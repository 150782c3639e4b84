import MethodFlow.Settings.Reading

/-!
# Keys that mean nothing

Settings with keys that no one reads are accepted, and every such key is named in a warning: first
those of the document itself, then those of each section that is written as a table and has a fixed
set of fields. Within each part warnings are in the order of the keys.

The keys are those of the plain document (`Toml.plain?`): a section that is taken for a date is not
a table, and if a table that should be a date is none, there is no plain document and nothing is
said about it.
-/

namespace MethodFlow

/-- A key that means nothing. -/
inductive Warning where
  | unknownKey (key : String)
  | unknownField (sectionName key : String)
  deriving DecidableEq

namespace Warning

def message : Warning → String
  | unknownKey key => s!"Unknown config option: '{key}'"
  | unknownField sectionName key => s!"Unknown config option in [{sectionName}]: '{key}'"

/-- The keys of a table that are not known, in order. -/
def unknownKeys (known : List String) (entries : List (String × Toml)) : List String :=
  ((entries.map (·.1)).filter (!known.contains ·)).mergeSort fun a b => decide (a ≤ b)

/-- The sections with a fixed set of fields. -/
def checkedSections : List (String × List String) :=
  [("rules", RuleSettings.fields), ("thresholds", Thresholds.fields),
    ("brain_method", BrainLimits.fields)]

/-- The warnings about one section of a document. -/
def ofSection (entries : List (String × Toml)) (sectionName : String) (known : List String) :
    List Warning :=
  match entries.lookup sectionName with
  | some (.table inner) => (unknownKeys known inner).map (unknownField sectionName)
  | _ => []

/-- The warnings about a plain document. -/
def ofPlainTable (entries : List (String × Toml)) : List Warning :=
  (unknownKeys Settings.sections entries).map unknownKey ++
    checkedSections.flatMap fun (sectionName, known) => ofSection entries sectionName known

/-- The warnings about a document. -/
def ofTable (entries : List (String × Toml)) : List Warning :=
  (Toml.plainEntries? entries).elim [] ofPlainTable

end Warning

end MethodFlow
