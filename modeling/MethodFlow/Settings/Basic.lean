import MethodFlow.Lint.Diagnostic
import MethodFlow.Throwable.Hierarchy

/-!
# Settings

What a project can choose: which rules run and how serious they are, from which measures on a method
is reported, and which exception classes it has of its own.
-/

namespace MethodFlow

/-- Which rules run. A rule is referred to by its identifier or by its name. -/
structure RuleSettings where
  /-- Rules that run in any case. -/
  enabled : List String := []
  disabled : List String := []
  /-- Severities in place of the rules' own. -/
  severity : List (String × Severity) := []
  /-- Whether rules about quality run; they do unless said otherwise. -/
  quality : Option Bool := none
  /-- Whether rules about complexity run; they do unless said otherwise. -/
  complexity : Option Bool := none
  deriving DecidableEq, Inhabited

/-- The greatest values that are not reported. -/
structure Thresholds where
  complexity : Nat := 10
  depth : Nat := 4
  deriving DecidableEq, Inhabited

/-- The values that a method has to reach, all of them, to be reported as one that does too much. -/
structure BrainLimits where
  lines : Nat := 65
  complexity : Nat := 15
  nesting : Nat := 3
  variableCount : Nat := 7
  deriving DecidableEq, Inhabited

/-- All settings of a project. -/
structure Settings where
  rules : RuleSettings := {}
  thresholds : Thresholds := {}
  brain : BrainLimits := {}
  /-- Exception classes of the project with their superclasses. -/
  exceptions : List (TypeName × TypeName) := []
  deriving DecidableEq, Inhabited

namespace Settings

/-- The common throwable classes together with those of the project. -/
def hierarchy (s : Settings) : ClassHierarchy := ClassHierarchy.javaLang.extend s.exceptions

end Settings

end MethodFlow
