import MethodFlow.Lint.Rule

/-!
# Code that can never run

Every dead region with something in it is reported once, at the first element of its first block
that has any.
-/

namespace MethodFlow.UnreachableCode

def info : RuleInfo where
  id := "Q004"
  name := "unreachable-code"
  description := "Disallow code that can never execute"
  category := .quality
  severity := .warning
  flowSensitive := true
  examples := some ("// Bad\nint foo() \x7b\n  return 1;\n  log(); // unreachable\n\x7d\n\n" ++
    "// Good\nint foo() \x7b\n  if (ready) \x7b\n    return 1;\n  \x7d\n" ++
    "  log();\n  return 0;\n\x7d")

/-- The first element of a region. -/
def firstElement? (g : Graph) (region : List BlockId) : Option Element :=
  region.findSome? fun id => (g.block? id).bind (·.elements.head?)

/-- Whether a region starts with a catch clause. -/
def startsWithHandler (g : Graph) (region : List BlockId) : Bool :=
  (region.head?.bind g.block?).any (·.kind == .handler)

def message (g : Graph) (region : List BlockId) : String :=
  if startsWithHandler g region then "Catch clause can never be reached"
    else "Unreachable code detected"

/-- The report for a region, if it has an element. -/
def report? (c : MethodContext) (g : Graph) (region : List BlockId) : Option Diagnostic :=
  (firstElement? g region).map fun element =>
    (c.report info (message g region) (some element.span)).withSuggestion
      "Remove unreachable code or check the control flow"

def rule : Rule where
  info := info
  check c :=
    match c.flow with
    | none => []
    | some flow => flow.deadRegions.filterMap (report? c flow.graph)

end MethodFlow.UnreachableCode
