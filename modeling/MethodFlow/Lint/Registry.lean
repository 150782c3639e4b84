import MethodFlow.Distinct
import MethodFlow.Lint.Rule

/-!
# Registries of rules

A registry holds rules in the order of their registration, and what it was told about them: which
run in any case, which do not, how serious their reports are, and whether the rules of a category
run at all. A rule that is enabled by name runs in any case; otherwise its category must be on, and
it must not be disabled.

Settings are taken in entry by entry, after all that an earlier configuration left has been cleared.
-/

namespace MethodFlow

/-- Rules, and what decides which of them run and how serious their reports are. -/
structure Registry where
  rules : List Rule := []
  /-- References to rules that run in any case, each once. -/
  enabled : List String := []
  /-- References to rules that do not run, each once. -/
  disabled : List String := []
  /-- Severities in place of the rules' own, one for each reference. -/
  severities : List (String × Severity) := []
  /-- Whether rules about quality run. -/
  quality : Bool := true
  /-- Whether rules about complexity run. -/
  complexity : Bool := true

/-- Gives a severity to a reference, in place of one that it may have. -/
def Severity.assign (severities : List (String × Severity)) (ref : String) (severity : Severity) :
    List (String × Severity) :=
  (ref, severity) :: severities.filter (·.1 != ref)

namespace Registry

def size (r : Registry) : Nat := r.rules.length

/-- Adds a rule after the others. -/
def register (r : Registry) (rule : Rule) : Registry := { r with rules := r.rules ++ [rule] }

/-- Adds rules one after the other. -/
def registerAll (r : Registry) (rules : List Rule) : Registry := rules.foldl register r

/-! ## Configuring -/

/-- Forgets which rules were enabled or disabled and all severities. -/
def clear (r : Registry) : Registry := { r with enabled := [], disabled := [], severities := [] }

def enable (r : Registry) (ref : String) : Registry := { r with enabled := appendNew r.enabled ref }

def disable (r : Registry) (ref : String) : Registry :=
    { r with disabled := appendNew r.disabled ref }

/-- Gives the reports of a rule another severity. -/
def overrideSeverity (r : Registry) (ref : String) (severity : Severity) : Registry :=
  { r with severities := Severity.assign r.severities ref severity }

/-- Takes settings in. Where a reference has several severities the first one counts, so it is given
last. -/
def configure (r : Registry) (settings : RuleSettings) : Registry :=
  let r := r.clear
  let r := settings.enabled.foldl enable r
  let r := settings.disabled.foldl disable r
  let r := settings.severity.foldr (fun e r => r.overrideSeverity e.1 e.2) r
  { r with quality := settings.quality.getD true, complexity := settings.complexity.getD true }

theorem foldl_enable (refs : List String) (r : Registry) :
    refs.foldl enable r = { r with enabled := appendAllNew r.enabled refs } := by
  induction refs generalizing r with
  | nil => rfl
  | cons ref refs ih =>
    rw [List.foldl_cons, ih]
    rfl

theorem foldl_disable (refs : List String) (r : Registry) :
    refs.foldl disable r = { r with disabled := appendAllNew r.disabled refs } := by
  induction refs generalizing r with
  | nil => rfl
  | cons ref refs ih =>
    rw [List.foldl_cons, ih]
    rfl

/-- Overriding entry by entry touches the severities only. -/
theorem foldr_overrideSeverity (entries : List (String × Severity)) (r : Registry) :
    entries.foldr (fun e r => r.overrideSeverity e.1 e.2) r =
      { r with
        severities := entries.foldr (fun e severities => Severity.assign severities e.1 e.2)
          r.severities } := by
  induction entries with
  | nil => rfl
  | cons e entries ih =>
    rw [List.foldr_cons, ih]
    rfl

/-- All that a registry holds once it is configured. Of what it held before only the rules occur. -/
theorem configure_eq (r : Registry) (settings : RuleSettings) :
    r.configure settings =
      { rules := r.rules
        enabled := distinct settings.enabled
        disabled := distinct settings.disabled
        severities :=
          settings.severity.foldr (fun e severities => Severity.assign severities e.1 e.2) []
        quality := settings.quality.getD true
        complexity := settings.complexity.getD true } := by
  simp only [configure, foldl_enable, foldl_disable, foldr_overrideSeverity]
  rfl

@[simp] theorem rules_configure (r : Registry) (settings : RuleSettings) :
    (r.configure settings).rules = r.rules := by
  rw [configure_eq]

/-! ## Which rules run -/

/-- Whether the rules of a category run. -/
def allows (r : Registry) : Category → Bool
  | .quality => r.quality
  | .complexity => r.complexity

/-- Whether a rule runs. -/
def runs (r : Registry) (info : RuleInfo) : Bool :=
  info.isAmong r.enabled || (r.allows info.category && !info.isAmong r.disabled)

/-- The severity given to a rule in place of its own; one given to its identifier wins over one
given to its name. -/
def severityFor? (r : Registry) (info : RuleInfo) : Option Severity :=
  (r.severities.lookup info.id).or (r.severities.lookup info.name)

/-- The first rule with an identifier. -/
def byId? (r : Registry) (id : String) : Option Rule := r.rules.find? (·.info.id == id)

/-- The first rule with a name. -/
def byName? (r : Registry) (name : String) : Option Rule := r.rules.find? (·.info.name == name)

/-- Whether the rule that a reference denotes runs. Identifiers are looked up before names. -/
def isEnabled (r : Registry) (ref : String) : Bool :=
  ((r.byId? ref).or (r.byName? ref)).any fun rule => r.runs rule.info

/-- The reports of a rule, with the severity that was given to it. -/
def runRule (r : Registry) (c : MethodContext) (rule : Rule) : List Diagnostic :=
  match r.severityFor? rule.info with
  | some severity => (rule.check c).map (·.withSeverity severity)
  | none => rule.check c

/-- Whether a rule is asked about a method. -/
def applies (r : Registry) (c : MethodContext) (rule : Rule) : Bool :=
  r.runs rule.info && (!rule.info.flowSensitive || c.flow.isSome)

/-- The reports of all rules that run, in the order of registration. -/
def run (r : Registry) (c : MethodContext) : List Diagnostic :=
  (r.rules.filter (r.applies c)).flatMap (r.runRule c)

end Registry

end MethodFlow
