import MethodFlow.Settings.Basic
import MethodFlow.Toml.Plain

/-!
# Settings in TOML

Settings are a table with one entry for every section, and every section has named fields. All of
them may be left off; a field that is there has to be of the right type. Keys that mean nothing are
passed over.

A section may also be an array of its fields in their fixed order. Fields at its end may be left
off, and surplus items are passed over.
-/

namespace MethodFlow

namespace Toml

/-- The fields of a section, `names` being the known ones in order. -/
def fields? (names : List String) : Toml → Option (List (String × Toml))
  | array items => some (names.zip items)
  | value => value.entries?

/-- A field, or its default if it is not there. -/
def field? {α : Type} (fields : List (String × Toml)) (name : String) (value : α)
    (read : Toml → Option α) : Option α :=
  match fields.lookup name with
  | none => some value
  | some v => read v

/-- Reads an array of strings. -/
def texts? (v : Toml) : Option (List String) := v.items?.bind (·.mapM toText?)

/-- Reads a table all of whose values are of one kind. -/
def entriesOf? {α : Type} (read : Toml → Option α) (v : Toml) : Option (List (String × α)) :=
  v.entries?.bind (·.mapM fun (key, value) => (read value).map (key, ·))

end Toml

/-- A severity is written as its name, which may also be the only key of a table, with nothing under
it. -/
def Severity.ofToml? : Toml → Option Severity
  | .string name => ofName? name
  | .table [(name, .table [])] => ofName? name
  | .table [(name, .array [])] => ofName? name
  | _ => none

namespace RuleSettings

def fields : List String := ["enabled", "disabled", "severity", "quality", "complexity"]

def ofToml? (v : Toml) : Option RuleSettings := do
  let r ← v.fields? fields
  some
    { enabled := ← Toml.field? r "enabled" [] Toml.texts?
      disabled := ← Toml.field? r "disabled" [] Toml.texts?
      severity := ← Toml.field? r "severity" [] (Toml.entriesOf? Severity.ofToml?)
      quality := ← Toml.field? r "quality" none fun v => v.toBool?.map some
      complexity := ← Toml.field? r "complexity" none fun v => v.toBool?.map some }

end RuleSettings

namespace Thresholds

def fields : List String := ["max_complexity", "max_depth"]

def ofToml? (v : Toml) : Option Thresholds := do
  let r ← v.fields? fields
  let initial : Thresholds := {}
  some
    { complexity := ← Toml.field? r "max_complexity" initial.complexity Toml.toNat?
      depth := ← Toml.field? r "max_depth" initial.depth Toml.toNat? }

end Thresholds

namespace BrainLimits

def fields : List String := ["loc", "cyclomatic", "nesting", "variables"]

def ofToml? (v : Toml) : Option BrainLimits := do
  let r ← v.fields? fields
  let initial : BrainLimits := {}
  some
    { lines := ← Toml.field? r "loc" initial.lines Toml.toNat?
      complexity := ← Toml.field? r "cyclomatic" initial.complexity Toml.toNat?
      nesting := ← Toml.field? r "nesting" initial.nesting Toml.toNat?
      variableCount := ← Toml.field? r "variables" initial.variableCount Toml.toNat? }

end BrainLimits

namespace Settings

def sections : List String := ["rules", "thresholds", "brain_method", "exceptions"]

/-- Reads settings from the entries of a document. -/
def ofTable? (entries : List (String × Toml)) : Option Settings := do
  some
    { rules := ← Toml.field? entries "rules" {} RuleSettings.ofToml?
      thresholds := ← Toml.field? entries "thresholds" {} Thresholds.ofToml?
      brain := ← Toml.field? entries "brain_method" {} BrainLimits.ofToml?
      exceptions := ← Toml.field? entries "exceptions" [] (Toml.entriesOf? Toml.toText?) }

end Settings

end MethodFlow
