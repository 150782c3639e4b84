import MethodFlow.Distinct
import MethodFlow.Graph.Element
import MethodFlow.Graph.Terminator

/-!
# Control flow graphs

A graph is an array of blocks; a block's number is its place in it. The first two blocks are the
entry and the exit. All else about a graph is derived: the predecessors of a block, the blocks from
which a method is left normally, the edges that close a loop.
-/

namespace MethodFlow

/-- The part that a block plays. -/
inductive BlockKind where
  | entry
  | exit
  | normal
  | condition
  | loopHeader
  | join
  | caseGroup
  | handler
  | finalizer
  deriving DecidableEq, Inhabited

namespace BlockKind

def name : BlockKind → String
  | entry => "Entry"
  | exit => "Exit"
  | normal => "Normal"
  | condition => "Condition"
  | loopHeader => "LoopHeader"
  | join => "Join"
  | caseGroup => "CaseGroup"
  | handler => "Catch"
  | finalizer => "Finally"

end BlockKind

/-- A run of elements with one way in and one ending. -/
structure BasicBlock where
  kind : BlockKind := .normal
  elements : List Element := []
  terminator : Terminator := .fallThrough
  successors : List Edge := []
  span : Option Span := none
  terminatorSpan : Option Span := none
  /-- For a block ended by a jump, the block that would come next if the jump were not there. -/
  lexicalNext : Option BlockId := none
  /-- The jump is the last statement of a group that could run on into the next group. -/
  endsCaseGroup : Bool := false
  deriving Inhabited

namespace BasicBlock

def isEmpty (b : BasicBlock) : Bool := b.elements.isEmpty

/-- The edges that need no exception. -/
def normalSuccessors (b : BasicBlock) : List Edge := b.successors.filter (·.isNormal)

/-- The blocks that control may enter next, in the order of the edges. -/
def targets (b : BasicBlock) : List BlockId := b.successors.map (·.target)

/-- The decisions taken in a block: those of its ending, and one for every `&&` and `||`. -/
def decisions (b : BasicBlock) : Nat :=
  b.terminator.decisions + b.elements.countP (·.isShortCircuit)

end BasicBlock

/-- The control flow graph of a method body. -/
structure Graph where
  blocks : Array BasicBlock
  /-- The entry and the exit are always there. -/
  two_le_size : 2 ≤ blocks.size

namespace Graph

/-- The block where a method starts. -/
def entry : BlockId := 0

/-- The block that every return, the end of the body and every uncaught exception lead to. -/
def exit : BlockId := 1

/-- The graph with an entry and an exit and nothing between them. -/
def bare : Graph where
  blocks := #[{ kind := .entry }, { kind := .exit, terminator := .methodExit }]
  two_le_size := by decide

instance : Inhabited Graph := ⟨bare⟩

def size (g : Graph) : Nat := g.blocks.size

/-- The numbers of all blocks, in order. -/
def ids (g : Graph) : List BlockId := List.range g.size

def block? (g : Graph) (id : BlockId) : Option BasicBlock := g.blocks[id]?

/-- The edges that leave a block, none for a number that is no block. -/
def edgesFrom (g : Graph) (id : BlockId) : List Edge := (g.block? id).elim [] (·.successors)

/-- The blocks that control may enter after a block, in the order of its edges. -/
def targets (g : Graph) (id : BlockId) : List BlockId := (g.edgesFrom id).map (·.target)

/-- Adds a block at the end; its number is the size that the graph had. -/
def push (g : Graph) (b : BasicBlock) : Graph where
  blocks := g.blocks.push b
  two_le_size := by
    have := g.two_le_size
    rw [Array.size_push]
    omega

/-- Changes one block. -/
def modify (g : Graph) (id : BlockId) (f : BasicBlock → BasicBlock) : Graph where
  blocks := g.blocks.modify id f
  two_le_size := by
    rw [Array.size_modify]
    exact g.two_le_size

theorem lt_size_of_block? {g : Graph} {id : BlockId} {b : BasicBlock} (h : g.block? id = some b) :
    id < g.size := by
  obtain ⟨hlt, _⟩ := Array.getElem?_eq_some_iff.mp h
  exact hlt

theorem exists_block? {g : Graph} {id : BlockId} (h : id < g.size) : ∃ b, g.block? id = some b :=
  ⟨g.blocks[id], Array.getElem?_eq_some_iff.mpr ⟨h, rfl⟩⟩

theorem block?_push (g : Graph) (b : BasicBlock) (id : BlockId) :
    (g.push b).block? id = if id = g.size then some b else g.block? id := by
  exact Array.getElem?_push

theorem block?_modify (g : Graph) (f : BasicBlock → BasicBlock) (i id : BlockId) :
    (g.modify i f).block? id = if i = id then (g.block? id).map f else g.block? id := by
  simp only [modify, block?, Array.getElem?_modify]

@[simp]
theorem size_push (g : Graph) (b : BasicBlock) : (g.push b).size = g.size + 1 := by
  simp only [push, size, Array.size_push]

@[simp]
theorem size_modify (g : Graph) (i : BlockId) (f : BasicBlock → BasicBlock) :
    (g.modify i f).size = g.size := by
  simp only [modify, size, Array.size_modify]

/-- The blocks with an edge to a block, in order. -/
def predecessors (g : Graph) (id : BlockId) : List BlockId :=
  g.ids.filter fun source => (g.targets source).contains id

/-- All edges, each with the block that it leaves, block by block. -/
def edges (g : Graph) : List (BlockId × Edge) :=
  g.ids.flatMap fun source => (g.edgesFrom source).map (source, ·)

/-- Enters the block that an edge leaves into the list of the block that the edge leads to, unless
it is there. There is no list for a number that is no block. -/
def enterSource? (lists : Array (List BlockId)) (edge : BlockId × Edge) :
    Option (Array (List BlockId)) :=
  if edge.2.target < lists.size then some (lists.modify edge.2.target (appendNew · edge.1))
    else none

/-- The predecessors of all blocks, found in one pass over the edges. -/
def gatherPredecessors? (g : Graph) : Option (Array (List BlockId)) :=
  g.edges.foldlM enterSource? (Array.replicate g.size [])

def edgeCount (g : Graph) : Nat := (g.ids.flatMap g.edgesFrom).length

/-- The blocks from which the method is left without an exception: returns, and the end of the
body. -/
def exitBlocks (g : Graph) : List BlockId :=
  g.ids.filter fun id => (g.edgesFrom id).any fun e => e.isNormal && e.target == exit

def isLoopHeader (g : Graph) (id : BlockId) : Bool :=
  (g.block? id).any (·.kind == .loopHeader)

/-- Whether an edge between two blocks starts a new round of a loop: it is marked so, or it leads to
a loop header that was made no later than its source. -/
def isBackEdge (g : Graph) (source target : BlockId) : Bool :=
  (g.edgesFrom source).any fun e =>
    e.target == target &&
      (e.kind == .loopBack || (g.isLoopHeader target && decide (target ≤ source)))

/-- The pairs of blocks joined by an edge that starts a new round of a loop. -/
def backEdges (g : Graph) : List (BlockId × BlockId) :=
  g.ids.flatMap fun source =>
    ((distinct (g.targets source)).filter (g.isBackEdge source)).map (source, ·)

/-- A block in one line: its number, kind, number of elements, ending and edges. -/
def blockSummary (id : BlockId) (b : BasicBlock) : String :=
  s!"B{id} {b.kind.name} [{b.elements.length}] {b.terminator.name} -> [" ++
    ", ".intercalate (b.successors.map (·.text)) ++ "]"

/-- One line for every block. -/
def summary (g : Graph) : List String := g.blocks.toList.mapIdx blockSummary

end Graph

end MethodFlow
