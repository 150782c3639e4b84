import MethodFlow.Distinct
import MethodFlow.Graph.Basic
import MethodFlow.Build.Failure

/-!
# Graphs under construction

A draft holds a graph and the place where drawing goes on: at most one block is open, and elements
go to the end of it. A jump closes the open block; its number is kept in `dangling` until the block
that follows in the text is known. Code after a jump opens a block of its own, which nothing leads
to.

`closed` lists the blocks that have been given their terminator. Closing a block twice, or starting
a block while another is open, would be a mistake of the drawing; the first such mistake is kept in
`fault`. `resumptions` lists, for the entry block of a `finally` clause, where control goes on when
that clause has run to its end.
-/

namespace MethodFlow

/-- A graph under construction. -/
structure Draft where
  graph : Graph
  /-- The open block. -/
  current : Option BlockId
  /-- Blocks closed by a jump, as long as the block next to them in the text is not known. -/
  dangling : List BlockId := []
  closed : List BlockId
  /-- Entry blocks of `finally` clauses with the edges that leave the clause at its end. -/
  resumptions : List (BlockId × Edge) := []
  fault : Option Fault := none

namespace Draft

/-- The start of every drawing: the entry is open, and the exit needs no more closing. -/
def initial : Draft where
  graph := .bare
  current := some Graph.entry
  closed := [Graph.exit]

/-- The number that the next block will have. -/
def fresh (d : Draft) : BlockId := d.graph.size

/-- The block that the next element goes to: the open one, or the one that will be made for it. -/
def openBlock (d : Draft) : BlockId := d.current.getD d.fresh

/-- Adds a block, which takes the number `fresh`. -/
def create (d : Draft) (kind : BlockKind) (span : Option Span) : Draft :=
  { d with graph := d.graph.push { kind, span } }

def modify (d : Draft) (id : BlockId) (f : BasicBlock → BasicBlock) : Draft :=
  { d with graph := d.graph.modify id f }

/-- Applies a change to every block in the list. -/
def modifyAll (d : Draft) (ids : List BlockId) (f : BasicBlock → BasicBlock) : Draft :=
  ids.foldl (fun d id => d.modify id f) d

/-- Keeps a fault unless there was one before. -/
def report (d : Draft) (fault : Fault) : Draft :=
  { d with fault := d.fault.or (some fault) }

/-- Adds edges to a block, leaving out those it has. -/
def addEdges (d : Draft) (id : BlockId) (edges : List Edge) : Draft :=
  d.modify id fun b => { b with successors := appendAllNew b.successors edges }

/-- The next block in the text is known: it is what the jumps before it would run on into. -/
def resolveDangling (d : Draft) (next : BlockId) : Draft :=
  { d.modifyAll d.dangling (fun b => { b with lexicalNext := some next }) with dangling := [] }

/-- Makes sure that a block is open. -/
def ensureOpen (d : Draft) : Draft :=
  match d.current with
  | some _ => d
  | none => { (d.create .normal none).resolveDangling d.fresh with current := some d.fresh }

/-- A block with its terminator and the edges that go with it. A plain block that branches becomes a
condition. -/
def endBlock (terminator : Terminator) (edges : List Edge) (span : Option Span) (b : BasicBlock) :
    BasicBlock :=
  { b with
    kind := if terminator.isBranch && b.kind == .normal then .condition else b.kind
    successors := appendAllNew b.successors edges
    terminator
    terminatorSpan := span }

/-- Gives a block its terminator, once. -/
def close (d : Draft) (id : BlockId) (terminator : Terminator) (edges : List Edge)
    (span : Option Span) : Draft :=
  if d.closed.contains id then d.report (.closedTwice id)
  else { d.modify id (endBlock terminator edges span) with closed := id :: d.closed }

/-- Closes the open block, or one made for the purpose if none is open. -/
def terminate (d : Draft) (terminator : Terminator) (edges : List Edge)
    (span : Option Span) : Draft :=
  close { d.ensureOpen with current := none } d.openBlock terminator edges span

/-- Closes the open block, if there is one, and leaves none open. -/
def closeOpen (d : Draft) (terminator : Terminator) (edges : List Edge) : Draft :=
  match d.current with
  | some id => close { d with current := none } id terminator edges none
  | none => d

/-- Lets control run on into a block that is next in the text. -/
def fallInto (d : Draft) (next : BlockId) : Draft :=
  (d.closeOpen .fallThrough [.sequential next]).resolveDangling next

/-- Sends control to a block by an edge of the given kind. -/
def goto (d : Draft) (kind : EdgeKind) (target : BlockId) : Draft :=
  (d.closeOpen (.jump target) [⟨kind, target⟩]).resolveDangling target

/-- Sends control back to the next round of a loop. -/
def loopBack (d : Draft) (target : BlockId) : Draft := d.goto .loopBack target

/-- Goes on drawing in a block. None may be open. -/
def start (d : Draft) (id : BlockId) : Draft :=
  match d.current with
  | some left => { d.report (.leftOpen left id) with current := some id }
  | none => { d with current := some id }

/-- Lets control run on into a block and goes on drawing there. -/
def continueAt (d : Draft) (next : BlockId) : Draft :=
  { d.fallInto next with current := some next }

/-- Ends the open block with a choice between two blocks. -/
def branch (d : Draft) (onTrue onFalse : BlockId) (span : Span) : Draft :=
  d.terminate (.branch onTrue onFalse) [⟨.onTrue, onTrue⟩, ⟨.onFalse, onFalse⟩] (some span)

/-- Records an element at the end of the open block. -/
def emit (d : Draft) (kind : ElementKind) (span : Span) : Draft :=
  d.ensureOpen.modify d.openBlock fun b => { b with elements := b.elements ++ [⟨kind, span⟩] }

/-- Ends the open block with a jump, which waits for the block that follows it in the text. -/
def jump (d : Draft) (terminator : Terminator) (edges : List Edge) (span : Span) : Draft :=
  let next := d.terminate terminator edges (some span)
  { next with dangling := next.dangling ++ [d.openBlock] }

/-- Adds places where `finally` clauses go on, leaving out those already there. -/
def resumeAt (d : Draft) (resumptions : List (BlockId × Edge)) : Draft :=
  { d with resumptions := appendAllNew d.resumptions resumptions }

/-- Where the `finally` clause with the given entry goes on, in the order of registration. -/
def resumptionsOf (d : Draft) (entry : BlockId) : List Edge :=
  (d.resumptions.filter (·.1 == entry)).map (·.2)

/-- Ends the code of a `try` block or of a catch clause. With a `finally` clause control goes there
and then to the block after the statement; without one it runs on into that block. -/
def leaveRegion (d : Draft) (finalizer : Option BlockId) (after : BlockId) : Draft :=
  match finalizer with
  | none => d.fallInto after
  | some entry =>
    let left :=
      match d.current with
      | some _ =>
        (d.closeOpen .fallThrough [.sequential entry]).resumeAt [(entry, .sequential after)]
      | none => d
    left.resolveDangling after

/-- Ends a `finally` clause: control resumes every exit that waits for it. -/
def leaveFinalizer (d : Draft) (entry after : BlockId) : Draft :=
  match d.resumptionsOf entry with
  | [] => d.fallInto after
  | edges => d.closeOpen .endFinally edges

/-- Ends an arrow group of a `switch`: control leaves the `switch`. -/
def leaveArrowGroup (d : Draft) (after : BlockId) : Draft :=
  (d.closeOpen (.breaking after) [.sequential after]).resolveDangling after

/-- Ends a group that runs on into the next one, marking a jump at its end. -/
def endCaseGroup (d : Draft) : Draft :=
  d.modifyAll d.dangling fun b => { b with endsCaseGroup := true }

/-- The rule that a block of the draft breaks, if any. -/
def blockFault? (d : Draft) (id : BlockId) : Option Fault :=
  if !d.closed.contains id then some (.neverClosed id)
  else
    match d.graph.block? id with
    | none => none
    | some b =>
      match b.terminator.checkEdges b.successors with
      | .ok () => none
      | .error mismatch => some (.edges id mismatch)

/-- Whether the rule that nothing leads to the entry is broken: of the predecessors gathered for all
blocks, those of the entry are looked at. -/
def entryFault? (d : Draft) : Option Fault :=
  if d.graph.gatherPredecessors?.bind (·[Graph.entry]?) = some [] then none
    else some .entryHasPredecessors

/-- The first rule that the draft breaks: while it was drawn, in a block, or at the entry. -/
def firstFault? (d : Draft) : Option Fault :=
  d.fault.or <| (d.graph.ids.findSome? d.blockFault?).or d.entryFault?

/-- The finished graph. -/
def finish (d : Draft) : Except BuildFailure Graph :=
  match d.firstFault? with
  | some fault => .error (.inconsistent fault)
  | none => .ok d.graph

end Draft

end MethodFlow
