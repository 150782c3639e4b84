/-!
# Edges

An edge says where control may go after a block and why. Blocks are numbered in the order in which
they are made, and an edge is stored with the block that it leaves.
-/

namespace MethodFlow

/-- The number of a block in its graph. -/
abbrev BlockId := Nat

/-- Why control takes an edge. The cases of a `switch` are numbered from zero. -/
inductive EdgeKind where
  | sequential
  | onTrue
  | onFalse
  | case (index : Nat)
  | default
  | exceptional
  | loopBack
  deriving DecidableEq, Inhabited

namespace EdgeKind

def text : EdgeKind → String
  | sequential => "Sequential"
  | onTrue => "True"
  | onFalse => "False"
  | case index => s!"Case({index})"
  | default => "Default"
  | exceptional => "Exceptional"
  | loopBack => "LoopBack"

/-- Several kinds between brackets. -/
def listText (kinds : List EdgeKind) : String :=
  "[" ++ ", ".intercalate (kinds.map text) ++ "]"

end EdgeKind

/-- A way out of a block. -/
structure Edge where
  kind : EdgeKind
  target : BlockId
  deriving DecidableEq, Inhabited

namespace Edge

def isExceptional (e : Edge) : Bool := e.kind == .exceptional

/-- An edge is normal when no exception is needed to take it. -/
def isNormal (e : Edge) : Bool := !e.isExceptional

/-- The edge to where control simply goes on. -/
def sequential (target : BlockId) : Edge := ⟨.sequential, target⟩

/-- The edge back to the next round of a loop. -/
def loopBack (target : BlockId) : Edge := ⟨.loopBack, target⟩

/-- The edge an exception takes. -/
def exceptional (target : BlockId) : Edge := ⟨.exceptional, target⟩

def text (e : Edge) : String := s!"B{e.target}:{e.kind.text}"

end Edge

end MethodFlow
