import MethodFlow.Build.Failure
import MethodFlow.Throwable.Catching

/-!
# What encloses a statement

While a statement is drawn, its `Scope` says which statements around it can be the target of a jump
and which `try` statements guard it, innermost first. The scope depends on the text alone: going
into a statement extends it, and coming out again leaves it as it was.
-/

namespace MethodFlow

/-- What kind of statement a target is. A loop has a block where its next round begins. -/
inductive TargetKind where
  | loop (continueTo : BlockId)
  | switch
  | labeled

/-- An enclosing statement that a jump can leave or, if it is a loop, go on with. -/
structure Target where
  labels : List String
  kind : TargetKind
  /-- The block after the statement. -/
  breakTo : BlockId
  /-- How many `try` statements guard the target itself. -/
  depth : Nat

namespace Target

def hasLabel (t : Target) (label : String) : Bool := t.labels.contains label

/-- Whether `break` without a label leaves this statement. -/
def isBreakable (t : Target) : Bool :=
  match t.kind with
  | .labeled => false
  | _ => true

/-- Where the next round of a loop begins. -/
def continueTo? (t : Target) : Option BlockId :=
  match t.kind with
  | .loop continueTo => some continueTo
  | _ => none

end Target

/-- A catch clause that can receive an exception: its block and the types it names. -/
structure CatchTarget where
  entry : BlockId
  types : List TypeName

/-- What a `try` statement does for code inside it. Within the catch clauses themselves only the
`finally` clause is left. -/
structure Handler where
  catches : List CatchTarget
  finalizer : Option BlockId

/-- The statements around a place in a body, innermost first. -/
structure Scope where
  types : Subtyping
  targets : List Target := []
  handlers : List Handler := []

namespace Scope

/-- The scope inside a target. -/
def inside (scope : Scope) (labels : List String) (kind : TargetKind) (breakTo : BlockId) : Scope :=
  { scope with targets := ⟨labels, kind, breakTo, scope.handlers.length⟩ :: scope.targets }

/-- The scope inside a `try` statement. -/
def guarded (scope : Scope) (handler : Handler) : Scope :=
  { scope with handlers := handler :: scope.handlers }

/-- Whether an enclosing target carries a label. -/
def hasLabel (scope : Scope) (label : String) : Bool := scope.targets.any (·.hasLabel label)

/-- The handlers that a jump out of a target, or back to its start, crosses. -/
def crossed (scope : Scope) (target : Target) : List Handler :=
  scope.handlers.take (scope.handlers.length - target.depth)

/-- The innermost target with a label. -/
def labelTarget (scope : Scope) (label : String) (line : UInt32) : Except BuildFailure Target :=
  match scope.targets.find? (·.hasLabel label) with
  | some target => .ok target
  | none => .error (.unresolvedLabel label line)

/-- The target of a `break`: the one with its label, or else the innermost loop or `switch`. -/
def breakTarget (scope : Scope) (label : Option String) (line : UInt32) :
    Except BuildFailure Target :=
  match label with
  | some label => scope.labelTarget label line
  | none =>
    match scope.targets.find? (·.isBreakable) with
    | some target => .ok target
    | none => .error (.jumpOutsideTarget .breaking line)

/-- The target of a `continue` and where its next round begins: the loop with its label, or else the
innermost loop. -/
def continueTarget (scope : Scope) (label : Option String) (line : UInt32) :
    Except BuildFailure (Target × BlockId) :=
  match label with
  | some label => do
    let target ← scope.labelTarget label line
    match target.continueTo? with
    | some continueTo => .ok (target, continueTo)
    | none => .error (.continueToNonLoop label line)
  | none =>
    match scope.targets.findSome? fun target => target.continueTo?.map (target, ·) with
    | some found => .ok found
    | none => .error (.jumpOutsideTarget .continuing line)

end Scope

end MethodFlow
