import MethodFlow.Lint.Rule

/-!
# Methods beyond a limit

Rules that compare the measures of a method with the settings: too complex, nested too deeply, or
too much of everything at once.
-/

namespace MethodFlow

namespace MaxComplexity

def info : RuleInfo where
  id := "Q010"
  name := "max-complexity"
  description := "Enforce a maximum cyclomatic complexity threshold for methods"
  category := .complexity
  severity := .warning
  flowSensitive := true
  examples := some ("// Bad (complexity > 10)\nvoid complex() \x7b\n" ++
    "  if (a) \x7b\x7d if (b) \x7b\x7d if (c) \x7b\x7d if (d) \x7b\x7d if (e) \x7b\x7d\n" ++
    "  if (f) \x7b\x7d if (g) \x7b\x7d if (h) \x7b\x7d if (i) \x7b\x7d if (j) \x7b\x7d\n\x7d\n\n" ++
    "// Good (complexity <= 10)\nint simple(int x) \x7b\n" ++
    "  if (x > 0) \x7b\n    return x * 2;\n  \x7d\n  return x;\n\x7d")

def message (name : String) (complexity limit : Nat) : String :=
  s!"Method '{name}' has a cyclomatic complexity of {complexity} (max: {limit})"

def rule : Rule where
  info := info
  check c :=
    match c.flow with
    | none => []
    | some flow =>
      let limit := c.settings.thresholds.complexity
      if flow.metrics.complexity ≤ limit then []
      else
        [(c.reportMethod info (message c.method.name flow.metrics.complexity limit)).withSuggestion
          "Reduce complexity by extracting logic into separate methods or simplifying conditionals"]

end MaxComplexity

namespace MaxDepth

def info : RuleInfo where
  id := "Q011"
  name := "max-depth"
  description := "Enforce a maximum nesting depth threshold"
  category := .complexity
  severity := .warning
  examples := some ("// Bad (depth > 4)\nvoid deep() \x7b\n  if (a) \x7b\n" ++
    "    for (Item i : items) \x7b\n      while (b) \x7b\n        try \x7b\n" ++
    "          if (c) \x7b\x7d\n        \x7d finally \x7b\x7d\n      \x7d\n" ++
    "    \x7d\n  \x7d\n\x7d\n\n" ++
    "// Good (depth <= 4)\nvoid shallow() \x7b\n  if (a) \x7b\n    process(items);\n  \x7d\n\x7d")

def message (name : String) (depth limit : Nat) : String :=
  s!"Method '{name}' has a nesting depth of {depth} (max: {limit})"

def rule : Rule where
  info := info
  check c :=
    let limit := c.settings.thresholds.depth
    let depth := c.body.nestingLevel
    if depth ≤ limit then []
    else
      [(c.reportMethod info (message c.method.name depth limit)).withSuggestion
        "Refactor code to reduce nesting levels by extracting logic into separate methods"]

end MaxDepth

namespace BrainMethod

def info : RuleInfo where
  id := "Q021"
  name := "brain-method"
  description := "Detect methods that centralize too much of their class's behavior"
  category := .complexity
  severity := .warning
  flowSensitive := true

/-- Whether every measure has reached its limit. -/
def isBeyond (m : Metrics) (limits : BrainLimits) : Bool :=
  decide (limits.lines ≤ m.lines) && decide (limits.complexity ≤ m.complexity) &&
    decide (limits.nesting ≤ m.nesting) && decide (limits.variableCount ≤ m.variableCount)

def message (name : String) (m : Metrics) : String :=
  s!"Method '{name}' is a brain method: {m.lines} lines, complexity {m.complexity}, " ++
    s!"nesting {m.nesting}, {m.variableCount} variables"

def rule : Rule where
  info := info
  check c :=
    match c.flow with
    | none => []
    | some flow =>
      if isBeyond flow.metrics c.settings.brain then
        [(c.reportMethod info (message c.method.name flow.metrics)).withSuggestion
          "Split the method into smaller, focused methods"]
      else []

end BrainMethod

end MethodFlow
