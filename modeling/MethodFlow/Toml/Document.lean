import MethodFlow.Toml.Line

/-!
# TOML documents

Lines are put together into one table. The rules are about how a table came to be: by a header of
its own or in braces, as part of a longer header, or as part of a longer key. A header may complete
a table that so far is only part of longer headers, and no other. The key of an entry may add to
tables that are not complete, and its last table has to be one made by keys. No key is given twice.

Entries are in the order in which their keys first came, but a table that gets its own header only
after longer ones goes to the end of the table it is in.
-/

namespace MethodFlow.Toml

/-- How a table came to be. -/
inductive Origin where
  /-- It has a header of its own, or stands in braces. -/
  | header
  /-- It is part of a longer header. -/
  | implied
  /-- It is part of a longer key. -/
  | dotted
  deriving DecidableEq

/-- What stands under a key while a document is put together. -/
inductive Node where
  | value (value : Toml)
  | table (origin : Origin) (entries : List (String × Node))
  /-- An array of tables, each under a header of its own. -/
  | tables (elements : List (List (String × Node)))

/-- The entries of a table while a document is put together. -/
abbrev Entries := List (String × Node)

namespace Entries

/-- Puts a node under a key, in place of what was there. -/
def set (entries : Entries) (key : String) (node : Node) : Entries :=
  if (entries.lookup key).isSome then
    entries.map fun entry => if entry.1 == key then (key, node) else entry
  else entries ++ [(key, node)]

/-- Changes the table at the end of a path. Tables that are not there are made, with the given
origin; a path of a key does not lead through complete tables. An array of tables stands for its
last element. -/
def within (made : Origin) (change : Origin → Entries → Option Entries) :
    List String → Origin → Entries → Option Entries
  | [], origin, entries => change origin entries
  | key :: path, _, entries => do
    let node ←
      match entries.lookup key with
      | none => (within made change path made []).map (.table made)
      | some (.value _) => none
      | some (.table origin inner) =>
        if made == .dotted && origin == .header then none
        else (within made change path origin inner).map (.table origin)
      | some (.tables elements) =>
        elements.getLast?.bind fun last =>
          (within made change path .header last).map fun last =>
            .tables (elements.dropLast ++ [last])
    some (entries.set key node)

/-- Adds an entry under a key of one or more parts. -/
def add? (entries : Entries) (path : List String) (value : Toml) : Option Entries := do
  let key ← path.getLast?
  let outer := path.dropLast
  let change (origin : Origin) (entries : Entries) : Option Entries :=
    if (!outer.isEmpty && origin != .dotted) || (entries.lookup key).isSome then none
    else some (entries ++ [(key, .value value)])
  within .dotted change outer .header entries

/-- Begins the table of a header. -/
def openTable? (entries : Entries) (path : List String) : Option Entries := do
  let key ← path.getLast?
  let change (_ : Origin) (entries : Entries) : Option Entries :=
    match entries.lookup key with
    | none => some (entries.set key (.table .header []))
    | some (.table .implied inner) =>
      some (entries.filter (·.1 != key) ++ [(key, .table .header inner)])
    | some _ => none
  within .implied change path.dropLast .header entries

/-- Begins an element of an array of tables. -/
def openElement? (entries : Entries) (path : List String) : Option Entries := do
  let key ← path.getLast?
  let change (_ : Origin) (entries : Entries) : Option Entries :=
    match entries.lookup key with
    | none => some (entries.set key (.tables [[]]))
    | some (.tables elements) => some (entries.set key (.tables (elements ++ [[]])))
    | some _ => none
  within .implied change path.dropLast .header entries

end Entries

mutual

/-- The finished value. -/
def Node.toToml : Node → Toml
  | .value finished => finished
  | .table _ entries => .table (Node.entriesToToml entries)
  | .tables elements => .array (Node.elementsToToml elements)

def Node.entriesToToml : List (String × Node) → List (String × Toml)
  | [] => []
  | (key, node) :: rest => (key, node.toToml) :: Node.entriesToToml rest

def Node.elementsToToml : List (List (String × Node)) → List Toml
  | [] => []
  | entries :: rest => .table (Node.entriesToToml entries) :: Node.elementsToToml rest

end

mutual

/-- The value of what is written, unless a key in it is given twice. -/
def Literal.value? : Literal → Option Toml
  | .scalar value => some value
  | .array items => (Literal.values? items).map .array
  | .inlineTable entries =>
    (Literal.table? [] entries).map fun entries => .table (Node.entriesToToml entries)

def Literal.values? : List Literal → Option (List Toml)
  | [] => some []
  | item :: items => do
    let value ← item.value?
    let values ← Literal.values? items
    some (value :: values)

/-- The entries of an inline table added to those read so far. -/
def Literal.table? (entries : Entries) : List (List String × Literal) → Option Entries
  | [] => some entries
  | (path, literal) :: rest => do
    let value ← literal.value?
    let entries ← entries.add? path value
    Literal.table? entries rest

end

/-- A document while it is put together: all of it, and the path of the last header. -/
structure PartialDocument where
  root : Entries := []
  path : List String := []

namespace PartialDocument

/-- Adds a line. -/
def add? (doc : PartialDocument) : Line → Option PartialDocument
  | .header path => (doc.root.openTable? path).map (⟨·, path⟩)
  | .elementHeader path => (doc.root.openElement? path).map (⟨·, path⟩)
  | .entry path literal => do
    let value ← literal.value?
    let root ← Entries.within .implied (fun _ entries => entries.add? path value) doc.path .header
      doc.root
    some { doc with root }

end PartialDocument

/-- Reads a document. Gives the entries of its table. -/
def parse? (text : String) : Option (List (String × Toml)) := do
  let lines ← lines? text
  let doc ← lines.foldlM PartialDocument.add? {}
  some (Node.entriesToToml doc.root)

end MethodFlow.Toml
