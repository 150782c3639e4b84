import MethodFlow.Json.Value

/-!
# Records spelled as JSON

A record with named fields may be written as an object, in any order and with extra keys, or as the
array of its fields in their fixed order, from which a tail may be left off. A tagged record also
says which kind it is: under the key `kind`, or as the first item of the array.

Both spellings are brought to one form, the list of known fields that are present. Which of them may
be absent, and what that means, is up to the record.
-/

namespace MethodFlow.Json

/-- The fields of a record that are present, by name. -/
abbrev Record := List (String × Json)

/-- The fields that a value spells, `names` being the known ones in order. A known key that occurs
twice and an array with too many items spell no record; unknown keys are dropped. -/
def record? (names : List String) : Json → Option Record
  | .object entries =>
    let known := entries.filter fun e => names.contains e.1
    if (known.map (·.1)).Nodup then some known else none
  | .array items => if items.length ≤ names.length then some (names.zip items) else none
  | _ => none

namespace Record

/-- A field that must be present. -/
def required? (r : Record) (name : String) (read : Json → Option α) : Option α :=
  (r.lookup name).bind read

/-- A field that has a value of its own when absent. -/
def defaulted? (r : Record) (name : String) (value : α) (read : Json → Option α) : Option α :=
  match r.lookup name with
  | none => some value
  | some j => read j

/-- A field that may be absent or `null`. -/
def optional? (r : Record) (name : String) (read : Json → Option α) : Option (Option α) :=
  r.defaulted? name none (nullable? read)

end Record

/-- The key under which a tagged record names its kind. -/
def tagKey : String := "kind"

/-- The kind that a value names: by its name or, where `ordinals` is set, by its place in the
list. -/
def kind? (kinds : List κ) (name : κ → String) (ordinals : Bool) : Json → Option κ
  | .string s => kinds.find? (name · == s)
  | .number n => if ordinals then n.toNat?.bind (kinds[·]?) else none
  | _ => none

/-- Splits a tagged record into its kind and the value that spells its fields. -/
def tagged? (kinds : List κ) (name : κ → String) (ordinals : Bool) : Json → Option (κ × Json)
  | .object entries =>
    match entries.filter (·.1 == tagKey) with
    | [(_, tag)] =>
      (kind? kinds name ordinals tag).map fun k => (k, .object (entries.filter (·.1 != tagKey)))
    | _ => none
  | .array (tag :: rest) => (kind? kinds name ordinals tag).map fun k => (k, .array rest)
  | _ => none

/-- Reads one of finitely many names, which may also be the only key of an object whose value is
`null`. Where `bare` is set, that value may be an empty object as well. -/
def variant? (ofName? : String → Option α) (bare : Bool) : Json → Option α
  | .string s => ofName? s
  | .object [(s, .null)] => ofName? s
  | .object [(s, .object [])] => if bare then ofName? s else none
  | _ => none

end MethodFlow.Json
