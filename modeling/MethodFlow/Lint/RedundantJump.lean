import MethodFlow.Graph.PassThrough
import MethodFlow.Lint.Rule

/-!
# Jumps that change nothing

A `return` without a value or a `continue` is redundant when control would go to the same place
without it. Both places are compared after passing over blocks that do nothing. A jump at the end of
a group of a `switch` is left alone, since without it the next group would run.
-/

namespace MethodFlow

namespace RedundantJump

def info : RuleInfo where
  id := "Q020"
  name := "redundant-jump"
  description := "Disallow return and continue statements that do not change the control flow"
  category := .quality
  severity := .info
  flowSensitive := true
  examples := some ("// Bad\nvoid save() \x7b\n  write();\n  return;\n\x7d\n\n" ++
    "// Good\nvoid save() \x7b\n  write();\n\x7d")

/-- The word of a jump that the rule is about. -/
def word? : Terminator → Option String
  | .returning false => some "return"
  | .continuing _ => some "continue"
  | _ => none

/-- Whether the jump at the end of a block leads where control would go anyway. -/
def isRedundant (g : Graph) (id : BlockId) (b : BasicBlock) : Bool :=
  !b.endsCaseGroup &&
    match g.successor? id with
    | none => false
    | some target => g.withoutJump? id == some (g.normalize target)

/-- The report for a jump. It covers the whole statement when its span is known. -/
def report (c : MethodContext) (word : String) (b : BasicBlock) : Diagnostic :=
  let d := (c.report info s!"Redundant '{word}' statement" b.terminatorSpan).withSuggestion
    s!"Remove this '{word}' statement"
  match b.terminatorSpan with
  | some s => if s.isUnknown then d else d.withEnd ⟨s.endLine.toNat, s.endColumn.toNat⟩
  | none => d

/-- The report for a block, if it ends in a redundant jump. -/
def report? (c : MethodContext) (g : Graph) (id : BlockId) : Option Diagnostic := do
  let b ← g.block? id
  let word ← word? b.terminator
  if isRedundant g id b then some (report c word b) else none

def rule : Rule where
  info := info
  check c :=
    match c.flow with
    | none => []
    | some flow =>
      (flow.graph.ids.filter flow.reachability.isReachable).filterMap (report? c flow.graph)

end RedundantJump

end MethodFlow
