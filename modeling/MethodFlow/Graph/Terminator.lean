import MethodFlow.Graph.Edge

/-!
# How blocks end

Every block ends in exactly one `Terminator`, and the terminator prescribes the normal edges that
leave the block. `checkEdges` compares a list of edges with that prescription. Exceptional edges may
leave any block but the exit; only `throwing` asks for one.

A jump keeps its final destination even when the edge that leaves the block goes to a `finally`
clause first, so the edges of jumps are not compared with their destinations.
-/

namespace MethodFlow

/-- The control transfer at the end of a block. -/
inductive Terminator where
  /-- Control runs on into the next block. -/
  | fallThrough
  | branch (onTrue onFalse : BlockId)
  | jump (target : BlockId)
  | switch (cases : List BlockId) (default : Option BlockId)
  | returning (hasExpression : Bool)
  | throwing
  | breaking (target : BlockId)
  | continuing (target : BlockId)
  /-- The end of the method. -/
  | methodExit
  /-- A `finally` clause has run to its end and control resumes each exit that waited for it. -/
  | endFinally
  deriving DecidableEq, Inhabited

/-- Why a list of edges does not fit a terminator. `got` lists the kinds of the normal edges
found. -/
inductive EdgeMismatch where
  | notSingle (terminator : String) (allowed got : List EdgeKind)
  | notBranch (got : List EdgeKind)
  | wrongTarget
  | edgeCount (expected : Nat) (got : List EdgeKind)
  | missingCase (index : Nat)
  | missingDefault
  | notThrow (got : List EdgeKind)
  | leavesExit
  | notResumption (got : List EdgeKind)
  deriving DecidableEq

namespace EdgeMismatch

open EdgeKind (listText)

def message : EdgeMismatch → String
  | notSingle terminator allowed got =>
    terminator ++ " expects a single " ++ listText allowed ++ " edge, got " ++ listText got
  | notBranch got => "Branch needs one True and one False edge, got " ++ listText got
  | wrongTarget => "Unconditional edge does not reach its target"
  | edgeCount expected got => s!"Switch expects {expected} edges, got " ++ listText got
  | missingCase index => s!"Switch is missing Case({index}) edge"
  | missingDefault => "Switch is missing its Default edge"
  | notThrow got => "Throw needs only Exceptional edges, got " ++ listText got
  | leavesExit => "Exit block has outgoing edges"
  | notResumption got => "EndFinally has invalid resume edges " ++ listText got

end EdgeMismatch

namespace Terminator

def name : Terminator → String
  | fallThrough => "None"
  | branch .. => "Branch"
  | jump _ => "Unconditional"
  | switch .. => "Switch"
  | returning _ => "Return"
  | throwing => "Throw"
  | breaking _ => "Break"
  | continuing _ => "Continue"
  | methodExit => "Exit"
  | endFinally => "EndFinally"

/-- Whether a block that ends so was ended by a jump, after which nothing runs on. -/
def isJump : Terminator → Bool
  | returning _ | throwing | breaking _ | continuing _ => true
  | _ => false

/-- Whether the terminator chooses between two blocks. -/
def isBranch : Terminator → Bool
  | branch .. => true
  | _ => false

/-- How many decisions the terminator takes: one less than the ways it can go. -/
def decisions : Terminator → Nat
  | branch .. => 1
  | switch cases default => cases.length + default.toList.length - 1
  | _ => 0

/-- The one normal edge of a terminator that has exactly one, of one of the allowed kinds. -/
def single (t : Terminator) (allowed : List EdgeKind) (normal : List Edge) :
    Except EdgeMismatch Edge :=
  let mismatch := .notSingle t.name allowed (normal.map (·.kind))
  match normal with
  | [e] => if allowed.contains e.kind then .ok e else .error mismatch
  | _ => .error mismatch

/-- The edges of a `switch`: one for every case, numbered in order, and one for the default. -/
def switchEdges (cases : List BlockId) (default : Option BlockId) : List Edge :=
  cases.mapIdx (fun index target => ⟨.case index, target⟩) ++
    default.toList.map fun target => ⟨.default, target⟩

/-- What is missing first when an edge of a `switch` is not there. -/
def missingEdge (e : Edge) : EdgeMismatch :=
  match e.kind with
  | .case index => .missingCase index
  | _ => .missingDefault

/-- Whether a list of edges is what the terminator prescribes. -/
def checkEdges (t : Terminator) (edges : List Edge) : Except EdgeMismatch Unit :=
  let normal := edges.filter (·.isNormal)
  let got := normal.map (·.kind)
  match t with
  | fallThrough | returning _ | breaking _ => do
    let _ ← t.single [.sequential] normal
  | continuing _ => do
    let _ ← t.single [.loopBack, .sequential] normal
  | jump target => do
    let e ← t.single [.sequential, .loopBack] normal
    if e.target == target then .ok () else .error .wrongTarget
  | branch onTrue onFalse =>
    if normal.length == 2 && normal.contains ⟨.onTrue, onTrue⟩ &&
      normal.contains ⟨.onFalse, onFalse⟩
    then .ok ()
    else .error (.notBranch got)
  | switch cases default =>
    let prescribed := switchEdges cases default
    if normal.length != prescribed.length then .error (.edgeCount prescribed.length got)
    else
      match prescribed.find? (!normal.contains ·) with
      | some e => .error (missingEdge e)
      | none => .ok ()
  | throwing =>
    if normal.isEmpty && !edges.isEmpty then .ok () else .error (.notThrow got)
  | methodExit => if edges.isEmpty then .ok () else .error .leavesExit
  | endFinally =>
    if got.all [.sequential, .loopBack].contains && !edges.isEmpty then .ok ()
    else .error (.notResumption got)

end Terminator

end MethodFlow
