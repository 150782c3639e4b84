import MethodFlow.Build.Stmt

/-!
# Drawing, move by move

Whatever is drawn, the draft changes by a few kinds of move only: a block is made, opened, filled,
linked or closed, a jump finds out what follows it, a `finally` clause learns where it has to go on.
`Move` lists them, each with what holds when it is made, and `Run` is any number of moves. A fact
about all drafts is then proved once for each move and carried along runs by `Run.invariant`.

A block that was made but not opened yet is *waiting*. Edges are only added to the open block, and
they lead to the exit, to a waiting block or to a loop header (`Awaits`). So an edge never leads
back to a block that is open or closed, unless that block starts a loop.
-/

namespace MethodFlow

/-- The edges that a block gets together with its terminator. -/
inductive Terminator.Ending : Terminator → List Edge → Prop
  | fallThrough (next : BlockId) : Ending .fallThrough [.sequential next]
  | branch (onTrue onFalse : BlockId) :
      Ending (.branch onTrue onFalse) [⟨.onTrue, onTrue⟩, ⟨.onFalse, onFalse⟩]
  | jump {kind : EdgeKind} (target : BlockId) (h : kind = .sequential ∨ kind = .loopBack) :
      Ending (.jump target) [⟨kind, target⟩]
  | switch (cases : List BlockId) (default : Option BlockId) :
      Ending (.switch cases default) (switchEdges cases default)
  | returning (hasExpression : Bool) (next : BlockId) :
      Ending (.returning hasExpression) [.sequential next]
  | breaking (target next : BlockId) : Ending (.breaking target) [.sequential next]
  | continuing {e : Edge} (target : BlockId) (h : e.kind = .sequential ∨ e.kind = .loopBack) :
      Ending (.continuing target) [e]
  | throwing {targets : List BlockId} (h : targets ≠ []) :
      Ending .throwing (targets.map .exceptional)
  | endFinally {edges : List Edge} (h : edges ≠ [])
      (kinds : ∀ e ∈ edges, e.kind = .sequential ∨ e.kind = .loopBack ∨ e.kind = .exceptional) :
      Ending .endFinally edges

namespace Draft

/-- Adds a block, which takes the number `fresh`. -/
def add (d : Draft) (b : BasicBlock) : Draft := { d with graph := d.graph.push b }

/-- The block was made but not opened yet. -/
def Waiting (d : Draft) (id : BlockId) : Prop :=
  id < d.fresh ∧ id ∉ d.closed ∧ d.current ≠ some id

/-- Where an edge that is added now may lead. -/
def Awaits (d : Draft) (id : BlockId) : Prop :=
  id = Graph.exit ∨ d.Waiting id ∨ d.graph.isLoopHeader id = true

/-- The draft in which the open block `id` has been given its terminator. -/
def sealed (d : Draft) (id : BlockId) (terminator : Terminator) (edges : List Edge)
    (span : Option Span) : Draft :=
  { d.modify id (endBlock terminator edges span) with current := none, closed := id :: d.closed }

/-- What drawing can do to a draft in one go. -/
inductive Move : Draft → Draft → Prop
  | add {d : Draft} (kind : BlockKind) (elements : List Element) (span : Option Span) :
      Move d (d.add { kind, elements, span })
  | enter {d : Draft} {id : BlockId} (idle : d.current = none) (waiting : d.Waiting id) :
      Move d { d with current := some id }
  | emit {d : Draft} {id : BlockId} (element : Element) (isOpen : d.current = some id) :
      Move d (d.modify id fun b => { b with elements := b.elements ++ [element] })
  | link {d : Draft} {id : BlockId} {edges : List Edge} (isOpen : d.current = some id)
      (exceptional : ∀ e ∈ edges, e.isExceptional = true) (ahead : ∀ e ∈ edges, d.Awaits e.target) :
      Move d (d.addEdges id edges)
  | close {d : Draft} {id : BlockId} {terminator : Terminator} {edges : List Edge}
      {span : Option Span} (isOpen : d.current = some id) (ending : terminator.Ending edges)
      (ahead : ∀ e ∈ edges, d.Awaits e.target) (silent : terminator.isJump = false ∨ span = none) :
      Move d (d.sealed id terminator edges span)
  /-- A block ended by a jump statement waits for the block that follows it in the text. -/
  | jump {d : Draft} {id : BlockId} {terminator : Terminator} {edges : List Edge} (span : Span)
      (isOpen : d.current = some id) (isJump : terminator.isJump = true)
      (ending : terminator.Ending edges) (ahead : ∀ e ∈ edges, d.Awaits e.target) :
      Move d { d.sealed id terminator edges (some span) with dangling := d.dangling ++ [id] }
  | resolve {d : Draft} {next : BlockId} (idle : d.current = none) (isBlock : next < d.fresh) :
      Move d (d.resolveDangling next)
  | mark {d : Draft} : Move d d.endCaseGroup
  | resume {d : Draft} {resumptions : List (BlockId × Edge)}
      (pending : ∀ p ∈ resumptions, d.Waiting p.1)
      (ahead : ∀ p ∈ resumptions, d.Awaits p.2.target) :
      Move d (d.resumeAt resumptions)

/-- Any number of moves. -/
inductive Run : Draft → Draft → Prop
  | refl (d : Draft) : Run d d
  | tail {d₁ d₂ d₃ : Draft} (run : Run d₁ d₂) (move : Move d₂ d₃) : Run d₁ d₃

namespace Run

theorem single {d d' : Draft} (h : Move d d') : Run d d' := .tail (.refl d) h

theorem trans {d₁ d₂ d₃ : Draft} (h₁ : Run d₁ d₂) (h₂ : Run d₂ d₃) : Run d₁ d₃ := by
  induction h₂ with
  | refl => exact h₁
  | tail _ hm ih => exact .tail ih hm

/-- What every move keeps holds at the end of a run if it held at its start. -/
theorem invariant {P : Draft → Prop} (step : ∀ {d d' : Draft}, Move d d' → P d → P d')
    {d d' : Draft} (h : Run d d') (hd : P d) : P d' := by
  induction h with
  | refl => exact hd
  | tail _ hm ih => exact step hm ih

end Run

end Draft

end MethodFlow
