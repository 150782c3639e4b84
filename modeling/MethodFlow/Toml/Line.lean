import MethodFlow.Toml.Scalar
import MethodFlow.Toml.Text

/-!
# Lines of TOML documents

A document is read line by line: a header names the table that the following entries belong to, and
an entry has a key and a value. A value may reach over several lines. What the lines mean together,
and whether they contradict each other, is not decided here.

Keys may have several parts; there, and in the nesting of values, the format's readers allow fewer
than eighty levels.
-/

namespace MethodFlow.Toml

/-- A value as it is written. The tables in it are lists of entries under keys of one or more
parts. -/
inductive Literal where
  | scalar (value : Toml)
  | array (items : List Literal)
  | inlineTable (entries : List (List String × Literal))
  deriving Inhabited

/-- A line of a document. -/
inductive Line where
  /-- A table begins. -/
  | header (path : List String)
  /-- An element of an array of tables begins. -/
  | elementHeader (path : List String)
  | entry (path : List String) (value : Literal)

/-- The number of levels that keys and values may have. -/
def levels : Nat := 79

/-! ## Keys -/

/-- Characters of a key without quotes. -/
def isKeyChar (c : Char) : Bool := c.isAlphanum || c == '_' || c == '-'

/-- One part of a key, and what follows it. -/
def keyPart? : List Char → Option (String × List Char)
  | '"' :: cs => basicText? [] cs
  | '\'' :: cs => literalText? [] cs
  | cs =>
    let bare := cs.takeWhile isKeyChar
    if bare.isEmpty then none else some (String.ofList bare, cs.dropWhile isKeyChar)

/-- A key of at most the given number of parts, divided by points, and what follows it. Blanks may
stand around every part. -/
def key? : Nat → List Char → Option (List String × List Char)
  | 0, _ => none
  | n + 1, cs => do
    let (part, rest) ← keyPart? (skipBlanks cs)
    match skipBlanks rest with
    | '.' :: rest => do
      let (parts, rest) ← key? n rest
      some (part :: parts, rest)
    | rest => some ([part], rest)

/-! ## Values

Every step of the three functions below either reads a character or is followed by one that does, so
twice the length of the text bounds their number. -/

mutual

/-- A value with at most `room` levels inside each other, and what follows it. -/
def literal? : (steps room : Nat) → List Char → Option (Literal × List Char)
  | 0, _, _ => none
  | steps + 1, room, cs =>
    match cs with
    | '[' :: cs =>
      match room with
      | 0 => none
      | room + 1 => arrayItems? steps room [] cs
    | '{' :: cs =>
      match room, skipBlanks cs with
      | 0, _ => none
      | _ + 1, '}' :: cs => some (.inlineTable [], cs)
      | room + 1, cs => tableEntries? steps room [] cs
    | '"' :: _ | '\'' :: _ => (string? cs).map fun (text, rest) => (.scalar (.string text), rest)
    | cs => (scalar? cs).map fun (value, rest) => (.scalar value, rest)

/-- The rest of an array, `rev` being its items so far. A comma may stand after the last one. -/
def arrayItems? : (steps room : Nat) → List Literal → List Char → Option (Literal × List Char)
  | 0, _, _, _ => none
  | steps + 1, room, rev, cs =>
    match skipGap false cs with
    | ']' :: cs => some (.array rev.reverse, cs)
    | cs => do
      let (item, rest) ← literal? steps room cs
      match skipGap false rest with
      | ',' :: cs => arrayItems? steps room (item :: rev) cs
      | ']' :: cs => some (.array (item :: rev).reverse, cs)
      | _ => none

/-- The rest of an inline table, from an entry on. It stands on one line but for the values in
it. -/
def tableEntries? : (steps room : Nat) → List (List String × Literal) → List Char →
    Option (Literal × List Char)
  | 0, _, _, _ => none
  | steps + 1, room, rev, cs => do
    let (path, rest) ← key? levels cs
    match rest with
    | '=' :: rest => do
      let (value, rest) ← literal? steps room (skipBlanks rest)
      match skipBlanks rest with
      | ',' :: cs => tableEntries? steps room ((path, value) :: rev) cs
      | '}' :: cs => some (.inlineTable ((path, value) :: rev).reverse, cs)
      | _ => none
    | _ => none

end

/-- A value, and what follows it. -/
def value? (cs : List Char) : Option (Literal × List Char) :=
  literal? (2 * cs.length + 1) levels cs

/-! ## Lines -/

/-- A header after its opening brackets. -/
def header? (closing : Nat) (make : List String → Line) (cs : List Char) :
    Option (Line × List Char) := do
  let (path, rest) ← key? levels cs
  if rest.take closing == List.replicate closing ']' then
    let rest ← lineEnd? (rest.drop closing)
    some (make path, rest)
  else none

/-- An entry on a line of its own. -/
def entryLine? (cs : List Char) : Option (Line × List Char) := do
  let (path, rest) ← key? levels cs
  match rest with
  | '=' :: rest => do
    let (value, rest) ← value? (skipBlanks rest)
    let rest ← lineEnd? rest
    some (.entry path value, rest)
  | _ => none

/-- The line at the start of a text, which is not empty, and what follows it. Blank lines and
comments mean nothing. -/
def line? (cs : List Char) : Option (Option Line × List Char) :=
  let full (read : Option (Line × List Char)) := read.map fun (line, rest) => (some line, rest)
  match skipBlanks cs with
  | [] | '#' :: _ | '\n' :: _ | '\r' :: _ => (lineEnd? cs).map (none, ·)
  | '[' :: '[' :: cs => full (header? 2 .elementHeader cs)
  | '[' :: cs => full (header? 1 .header cs)
  | cs => full (entryLine? cs)

/-- The lines of a text, of which there are at most as many as characters. -/
def linesFrom? : Nat → List Char → Option (List Line)
  | _, [] => some []
  | 0, _ :: _ => none
  | n + 1, cs => do
    let (line, rest) ← line? cs
    let lines ← linesFrom? n rest
    some (line.toList ++ lines)

/-- The lines of a document. A byte order mark in front is not part of it. -/
def lines? (text : String) : Option (List Line) :=
  match text.toList with
  | '\ufeff' :: cs => linesFrom? cs.length cs
  | cs => linesFrom? cs.length cs

end MethodFlow.Toml
