import MethodFlow.Toml.Scalar

/-!
# Dates and times as tables

Where only tables, arrays and plain values can be handed on, a date or a time is a table with its
text under a reserved key. It goes both ways: a date can be read as such a table (`Toml.entries?`),
and a table that begins with the reserved key is taken for a date (`Toml.plain?`).
-/

namespace MethodFlow.Toml

/-- The key under which a date or a time holds its text when it is a table. -/
def datetimeKey : String := "$__toml_private_datetime"

/-- The entries of a value that can be read as a table. -/
def entries? : Toml → Option (List (String × Toml))
  | table entries => some entries
  | datetime text => some [(datetimeKey, string text)]
  | _ => none

/-- What a table holds under the reserved key, if it begins with that. -/
def reserved? : List (String × Toml) → Option Toml
  | [] => none
  | (key, value) :: _ => if key == datetimeKey then some value else none

/-- The date or time that a string spells. -/
def ofDatetimeText? : Toml → Option Toml
  | string text => (datetime? text.toList).map fun cs => datetime (String.ofList cs)
  | _ => none

mutual

/-- The value with dates and times in place of all tables that begin with the reserved key; what
else such a table holds does not count. Fails if one of them does not hold the text of a date or a
time. -/
def plain? : Toml → Option Toml
  | table entries =>
    match reserved? entries with
    | some value => ofDatetimeText? value
    | none => (plainEntries? entries).map table
  | array items => (plainItems? items).map array
  | value => some value

/-- The entries of a table with plain values. -/
def plainEntries? : List (String × Toml) → Option (List (String × Toml))
  | [] => some []
  | (key, value) :: entries => do
    let value ← value.plain?
    let entries ← plainEntries? entries
    some ((key, value) :: entries)

/-- The items of an array as plain values. -/
def plainItems? : List Toml → Option (List Toml)
  | [] => some []
  | item :: items => do
    let item ← item.plain?
    let items ← plainItems? items
    some (item :: items)

end

end MethodFlow.Toml
