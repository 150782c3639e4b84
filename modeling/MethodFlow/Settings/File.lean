import MethodFlow.FileTree
import MethodFlow.Settings.Warning
import MethodFlow.Toml.Document

/-!
# Settings files

Settings are kept in a file with a fixed name. It is looked for in a directory and then in those
above it, and the first one found counts, even when it cannot be used.
-/

namespace MethodFlow

/-- Why settings could not be loaded from a file. -/
inductive LoadError where
  | unreadable (path : String) (fault : FileFault)
  /-- The text is not TOML, or a field is of the wrong type. -/
  | invalid (path : String)
  deriving DecidableEq

namespace LoadError

def message : LoadError → String
  | unreadable path fault => s!"Failed to read config file '{path}': {fault.message}"
  | invalid path => s!"Invalid TOML in '{path}': "

end LoadError

/-- Settings as loaded, with warnings about keys that mean nothing. -/
structure LoadedSettings where
  settings : Settings := {}
  warnings : List Warning := []

namespace Settings

/-- The name of settings files. -/
def fileName : String := "jflow.toml"

/-- Reads settings from a text. -/
def parse? (text : String) : Option LoadedSettings := do
  let entries ← Toml.parse? text
  let settings ← ofTable? entries
  some ⟨settings, Warning.ofTable entries⟩

/-- The paths at which a settings file counts for a directory: in it, then in those above. -/
def candidates (start : TreePath) : List TreePath := start.lineage.map (·.child fileName)

/-- The settings file that counts for a directory, which need not be there itself. -/
def findFile? (t : FileTree) (start : TreePath) : Option TreePath :=
  (candidates start).find? t.contains

/-- Loads settings from a file. -/
def load (t : FileTree) (path : TreePath) : Except LoadError LoadedSettings :=
  match t.readText path with
  | .error fault => .error (.unreadable (t.shown path) fault)
  | .ok text =>
    match parse? text with
    | some loaded => .ok loaded
    | none => .error (.invalid (t.shown path))

/-- The settings that count for a directory; the defaults if there is no file or it cannot be
used. -/
def loadOrDefault (t : FileTree) (start : TreePath) : LoadedSettings :=
  match findFile? t start with
  | none => {}
  | some path => (load t path).toOption.getD {}

end Settings

end MethodFlow
