import MethodFlow.Span

/-!
# Diagnostics

What a rule reports: its identifier, how serious it is, a message, and the range of text concerned.
Diagnostics of a file are shown by position and, at one position, by rule.
-/

namespace MethodFlow

/-- How serious a diagnostic is. -/
inductive Severity where
  | error
  | warning
  | info
  | hint
  deriving DecidableEq, Inhabited

namespace Severity

def all : List Severity := [error, warning, info, hint]

def name : Severity → String
  | error => "error"
  | warning => "warning"
  | info => "info"
  | hint => "hint"

def ofName? (s : String) : Option Severity := all.find? (·.name == s)

theorem ofName?_name (severity : Severity) : ofName? severity.name = some severity := by
  cases severity <;> decide

end Severity

/-- A report of a rule about a place in a file. -/
structure Diagnostic where
  ruleId : String
  severity : Severity
  message : String
  file : String
  start : Position
  stop : Position := start
  suggestion : Option String := none
  deriving DecidableEq, Inhabited

namespace Diagnostic

def withEnd (d : Diagnostic) (stop : Position) : Diagnostic := { d with stop }

def withSuggestion (d : Diagnostic) (text : String) : Diagnostic :=
    { d with suggestion := some text }

def withSeverity (d : Diagnostic) (severity : Severity) : Diagnostic := { d with severity }

/-- The order of reports: by line, then by column, then by rule. -/
def notAfter (a b : Diagnostic) : Bool :=
  decide (a.start.line < b.start.line) ||
    a.start.line == b.start.line &&
      (decide (a.start.column < b.start.column) ||
        a.start.column == b.start.column && decide (a.ruleId ≤ b.ruleId))

/-- Puts reports in order. Reports at one place by one rule stay as they were. -/
def sort (ds : List Diagnostic) : List Diagnostic := ds.mergeSort notAfter

theorem perm_sort (ds : List Diagnostic) : (sort ds).Perm ds := List.mergeSort_perm ds notAfter

end Diagnostic

end MethodFlow
