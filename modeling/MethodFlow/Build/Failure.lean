import MethodFlow.Graph.Terminator

/-!
# Why a body has no graph

A body has no graph when a jump or a label in it does not resolve, or when part of its text could
not be read. `Fault` is different: it says that a drawn graph breaks a rule of its own, which would
be a mistake of the drawing and not of the body.
-/

namespace MethodFlow

/-- The two statements that jump to an enclosing statement. -/
inductive JumpWord where
  | breaking
  | continuing
  deriving DecidableEq

namespace JumpWord

def text : JumpWord → String
  | breaking => "break"
  | continuing => "continue"

end JumpWord

/-- A rule of graphs that a draft breaks. -/
inductive Fault where
  | closedTwice (block : BlockId)
  | leftOpen (block next : BlockId)
  | neverClosed (block : BlockId)
  | edges (block : BlockId) (mismatch : EdgeMismatch)
  | entryHasPredecessors
  deriving DecidableEq

namespace Fault

def message : Fault → String
  | closedTwice block => s!"block B{block} terminated twice"
  | leftOpen block next => s!"block B{block} left open when entering B{next}"
  | neverClosed block => s!"block B{block} has no terminator"
  | edges block mismatch => s!"block B{block}: " ++ mismatch.message
  | entryHasPredecessors => "entry block has predecessors"

end Fault

/-- Why no graph was built. Lines are those of the statement at fault. -/
inductive BuildFailure where
  | unresolvedLabel (label : String) (line : UInt32)
  | jumpOutsideTarget (word : JumpWord) (line : UInt32)
  | continueToNonLoop (label : String) (line : UInt32)
  | duplicateLabel (label : String) (line : UInt32)
  | partialBody (line : UInt32)
  | inconsistent (fault : Fault)
  deriving DecidableEq

namespace BuildFailure

def message : BuildFailure → String
  | unresolvedLabel label line => s!"Unresolved label '{label}' at line {line}"
  | jumpOutsideTarget word line => s!"'{word.text}' outside of a loop or switch at line {line}"
  | continueToNonLoop label line => s!"'continue {label}' does not target a loop at line {line}"
  | duplicateLabel label line => s!"Duplicate label '{label}' at line {line}"
  | partialBody line => s!"Method body is incomplete after a parse error at line {line}"
  | inconsistent fault => "Inconsistent graph: " ++ fault.message

/-- Whether the body was not read in full, so that the failure says nothing about the code
itself. -/
def isPartialBody : BuildFailure → Bool
  | partialBody _ => true
  | _ => false

end BuildFailure

end MethodFlow
