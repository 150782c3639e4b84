import MethodFlow.Proofs.Segments

/-!
# Traces

A trace is a run that keeps to rules: which edges may be added, which resumptions may be registered,
and where a `finally` clause may come to its end. Its steps are the moves of a run, and edges have
to meet one demand more: one that leads back, to a loop header that has been opened, is marked as
such or comes from a block that was made later (`Expects`).

Facts about all edges of a graph are then proved once for each step. Which rules the drawing of a
statement keeps to is a matter of its scope.
-/

namespace MethodFlow

namespace Draft

/-- Where an edge that is added to a block now may lead. -/
def Expects (d : Draft) (id : BlockId) (e : Edge) : Prop :=
  e.target = Graph.exit ∨ d.Waiting e.target ∨
    d.graph.isLoopHeader e.target = true ∧ (e.kind = .loopBack ∨ e.target ≤ id)

/-- What a trace may do. -/
structure Rules where
  edge : Edge → Prop
  resumption : BlockId × Edge → Prop
  /-- Whether the open block of a draft may end a `finally` clause, with the edges that it is
  given. -/
  ending : Draft → BlockId → List Edge → Prop

/-- What drawing can do to a draft in one go, by the rules. -/
inductive Step (R : Rules) : Draft → Draft → Prop
  | add {d : Draft} (kind : BlockKind) (elements : List Element) (span : Option Span) :
      Step R d (d.add { kind, elements, span })
  | enter {d : Draft} {id : BlockId} (idle : d.current = none) (waiting : d.Waiting id) :
      Step R d { d with current := some id }
  | emit {d : Draft} {id : BlockId} (element : Element) (isOpen : d.current = some id) :
      Step R d (d.modify id fun b => { b with elements := b.elements ++ [element] })
  | link {d : Draft} {id : BlockId} {edges : List Edge} (isOpen : d.current = some id)
      (exceptional : ∀ e ∈ edges, e.isExceptional = true) (ahead : ∀ e ∈ edges, d.Expects id e)
      (allowed : ∀ e ∈ edges, R.edge e) : Step R d (d.addEdges id edges)
  | close {d : Draft} {id : BlockId} {terminator : Terminator} {edges : List Edge}
      {span : Option Span} (isOpen : d.current = some id) (ending : terminator.Ending edges)
      (ahead : ∀ e ∈ edges, d.Expects id e) (silent : terminator.isJump = false ∨ span = none)
      (allowed : ∀ e ∈ edges, R.edge e) (final : terminator = .endFinally → R.ending d id edges) :
      Step R d (d.sealed id terminator edges span)
  | jump {d : Draft} {id : BlockId} {terminator : Terminator} {edges : List Edge} (span : Span)
      (isOpen : d.current = some id) (isJump : terminator.isJump = true)
      (ending : terminator.Ending edges) (ahead : ∀ e ∈ edges, d.Expects id e)
      (allowed : ∀ e ∈ edges, R.edge e) :
      Step R d { d.sealed id terminator edges (some span) with dangling := d.dangling ++ [id] }
  | resolve {d : Draft} {next : BlockId} (idle : d.current = none) (isBlock : next < d.fresh) :
      Step R d (d.resolveDangling next)
  | mark {d : Draft} : Step R d d.endCaseGroup
  | resume {d : Draft} {resumptions : List (BlockId × Edge)}
      (pending : ∀ p ∈ resumptions, d.Waiting p.1)
      (ahead : ∀ p ∈ resumptions, d.Awaits p.2.target)
      (allowed : ∀ p ∈ resumptions, R.resumption p) :
      Step R d (d.resumeAt resumptions)

/-- Any number of steps. -/
inductive Trace (R : Rules) : Draft → Draft → Prop
  | refl (d : Draft) : Trace R d d
  | tail {d₁ d₂ d₃ : Draft} (trace : Trace R d₁ d₂) (step : Step R d₂ d₃) : Trace R d₁ d₃

variable {R R' : Rules} {d d' d₁ d₂ : Draft} {id next : BlockId} {e : Edge}

theorem Expects.awaits (h : d.Expects id e) : d.Awaits e.target := by
  rcases h with h | h | ⟨h, _⟩
  · exact Or.inl h
  · exact Or.inr (Or.inl h)
  · exact Or.inr (Or.inr h)

theorem Waiting.expects (h : d.Waiting e.target) : d.Expects id e := Or.inr (Or.inl h)

theorem Step.move (h : Step R d d') : Move d d' := by
  cases h with
  | add kind elements span => exact .add kind elements span
  | enter idle waiting => exact .enter idle waiting
  | emit element isOpen => exact .emit element isOpen
  | link isOpen exceptional ahead => exact .link isOpen exceptional fun e he => (ahead e he).awaits
  | close isOpen ending ahead silent =>
    exact .close isOpen ending (fun e he => (ahead e he).awaits) silent
  | jump span isOpen isJump ending ahead =>
    exact .jump span isOpen isJump ending fun e he => (ahead e he).awaits
  | resolve idle isBlock => exact .resolve idle isBlock
  | mark => exact .mark
  | resume pending ahead => exact .resume pending ahead

/-! ## Edges -/

theorem mem_successors_addEdges {edges : List Edge} {i : BlockId} {b' : BasicBlock}
    (hb : (d.addEdges id edges).graph.block? i = some b') :
    ∃ b, d.graph.block? i = some b ∧ ∀ e ∈ b'.successors, e ∈ b.successors ∨ id = i ∧
      e ∈ edges := by
  rw [addEdges, block?_modify] at hb
  split at hb
  · obtain ⟨b, hb₀, rfl⟩ := Option.map_eq_some_iff.mp hb
    exact ⟨b, hb₀, fun e he => (mem_appendAllNew.mp he).imp_right fun he => ⟨‹_›, he⟩⟩
  · exact ⟨b', hb, fun e he => Or.inl he⟩

/-- Sealing adds its own edges to the sealed block only. -/
theorem mem_successors_sealed {t : Terminator} {edges : List Edge} {span : Option Span}
    {i : BlockId} {b' : BasicBlock} (hb : (d.sealed id t edges span).graph.block? i = some b') :
    ∃ b, d.graph.block? i = some b ∧ ∀ e ∈ b'.successors, e ∈ b.successors ∨ id = i ∧
      e ∈ edges := by
  rw [block?_sealed] at hb
  split at hb
  · obtain ⟨b, hb₀, rfl⟩ := Option.map_eq_some_iff.mp hb
    exact ⟨b, hb₀, fun e he => (mem_appendAllNew.mp he).imp_right fun he => ⟨‹_›, he⟩⟩
  · exact ⟨b', hb, fun e he => Or.inl he⟩

/-- A step adds edges to the open block only, and by the rules. -/
theorem Step.mem_successors (h : Step R d d') {b' : BasicBlock} (hb : d'.graph.block? id = some b')
    (he : e ∈ b'.successors) :
    (∃ b, d.graph.block? id = some b ∧ e ∈ b.successors) ∨
      d.current = some id ∧ d.Expects id e ∧ R.edge e := by
  -- Only `link`, `close` and `jump` make edges, and only out of the open block.
  cases h with
  | add kind elements span =>
    rw [block?_add] at hb
    split at hb
    · cases hb
      exact nomatch he
    · exact Or.inl ⟨b', hb, he⟩
  | enter | resume => exact Or.inl ⟨b', hb, he⟩
  | emit element isOpen =>
    rw [block?_modify] at hb
    split at hb
    · obtain ⟨b, hb₀, rfl⟩ := Option.map_eq_some_iff.mp hb
      exact Or.inl ⟨b, hb₀, he⟩
    · exact Or.inl ⟨b', hb, he⟩
  | link isOpen exceptional ahead allowed =>
    obtain ⟨b, hb, hs⟩ := mem_successors_addEdges hb
    rcases hs e he with he | ⟨rfl, he⟩
    · exact Or.inl ⟨b, hb, he⟩
    · exact Or.inr ⟨isOpen, ahead e he, allowed e he⟩
  | close isOpen ending ahead silent allowed | jump span isOpen isJump ending ahead allowed =>
    obtain ⟨b, hb, hs⟩ := mem_successors_sealed hb
    rcases hs e he with he | ⟨rfl, he⟩
    · exact Or.inl ⟨b, hb, he⟩
    · exact Or.inr ⟨isOpen, ahead e he, allowed e he⟩
  | resolve idle isBlock =>
    obtain ⟨b, hb, hc⟩ := exists_block?_of_core (d.core_resolveDangling _ _) hb
    exact Or.inl ⟨b, hb, congrArg (·.successors) hc ▸ he⟩
  | mark =>
    obtain ⟨b, hb, hc⟩ := exists_block?_of_core (d.core_endCaseGroup _) hb
    exact Or.inl ⟨b, hb, congrArg (·.successors) hc ▸ he⟩

/-- A step within some rules is a step within weaker ones. -/
theorem Step.mono (h : Step R d d') (hedge : ∀ e, R.edge e → R'.edge e)
    (hres : ∀ p, R.resumption p → R'.resumption p)
    (hend : ∀ d id edges, R.ending d id edges → R'.ending d id edges) :
    Step R' d d' := by
  cases h with
  | add kind elements span => exact .add kind elements span
  | enter idle waiting => exact .enter idle waiting
  | emit element isOpen => exact .emit element isOpen
  | link isOpen exceptional ahead allowed =>
    exact .link isOpen exceptional ahead fun e he => hedge e (allowed e he)
  | close isOpen ending ahead silent allowed final =>
    exact .close isOpen ending ahead silent (fun e he => hedge e (allowed e he)) fun ht =>
      hend _ _ _ (final ht)
  | jump span isOpen isJump ending ahead allowed =>
    exact .jump span isOpen isJump ending ahead fun e he => hedge e (allowed e he)
  | resolve idle isBlock => exact .resolve idle isBlock
  | mark => exact .mark
  | resume pending ahead allowed => exact .resume pending ahead fun p hp => hres p (allowed p hp)

namespace Trace

theorem single (h : Step R d d') : Trace R d d' := .tail (.refl d) h

theorem trans (h₁ : Trace R d d₁) (h₂ : Trace R d₁ d₂) : Trace R d d₂ := by
  induction h₂ with
  | refl => exact h₁
  | tail _ step ih => exact .tail ih step

theorem run (h : Trace R d d') : Run d d' := by
  induction h with
  | refl => exact .refl _
  | tail _ step ih => exact .tail ih step.move

/-- A trace keeps to looser rules as well. -/
theorem mono (h : Trace R d d') (hedge : ∀ e, R.edge e → R'.edge e)
    (hres : ∀ p, R.resumption p → R'.resumption p)
    (hend : ∀ d id edges, R.ending d id edges → R'.ending d id edges) :
    Trace R' d d' := by
  induction h with
  | refl => exact .refl _
  | tail _ step ih => exact .tail ih (step.mono hedge hres hend)

/-- What every step keeps holds at the end of a trace if it held at its start. -/
theorem invariant {P : Draft → Prop} (step : ∀ {d d' : Draft}, d.Steady → Step R d d' → P d → P d')
    (h : Trace R d d') (hd : d.Steady) (hP : P d) : P d' := by
  induction h with
  | refl => exact hP
  | tail trace hs ih => exact step (trace.run.steady hd) hs ih

/-- An edge was there before, or it was added by the rules to a block that was not closed. -/
theorem mem_successors (h : Trace R d d') (hd : d.Steady) {b' : BasicBlock}
    (hb : d'.graph.block? id = some b') (he : e ∈ b'.successors) :
    (∃ b, d.graph.block? id = some b ∧ e ∈ b.successors) ∨
      id ∉ d.closed ∧ R.edge e ∧ e.target < d'.fresh := by
  induction h generalizing b' with
  | refl => exact Or.inl ⟨b', hb, he⟩
  | tail trace step ih =>
    have hd₂ := trace.run.steady hd
    have hle := (step.move.extends hd₂).fresh_le
    rcases step.mem_successors hb he with ⟨b, hb, he⟩ | ⟨isOpen, hexp, hR⟩
    · exact (ih hb he).imp_right fun ⟨hid, hR, hlt⟩ => ⟨hid, hR, Nat.lt_of_lt_of_le hlt hle⟩
    · refine Or.inr ⟨fun hm => ?_, hR, Nat.lt_of_lt_of_le hexp.awaits.lt hle⟩
      exact hd₂.current_open id isOpen ((trace.run.extends hd).closed.subset hm)

/-! ## Operations as traces -/

theorem create (kind : BlockKind) (span : Option Span) : Trace R d (d.create kind span) :=
  single (.add kind [] span)

theorem start (idle : d.current = none) (waiting : d.Waiting next) : Trace R d (d.start next) := by
  rw [start_of_none idle]
  exact single (.enter idle waiting)

theorem ensureOpen (hd : d.Steady) : Trace R d d.ensureOpen := by
  cases h : d.current with
  | some id =>
    rw [ensureOpen_of_some h]
    exact .refl d
  | none =>
    rw [ensureOpen_of_none h]
    have hadd : Trace R d (d.add { kind := .normal, elements := [], span := none }) :=
      single (.add _ _ _)
    refine (hadd.tail (.resolve h ?_)).tail (.enter ?_ ?_)
    · rw [fresh_add]
      exact Nat.lt_succ_self _
    · rw [current_resolveDangling]
      exact h
    · rw [waiting_resolveDangling, waiting_add hd]
      exact Or.inr rfl

theorem emit (hd : d.Steady) (kind : ElementKind) (span : Span) : Trace R d (d.emit kind span) :=
  (ensureOpen hd).tail (.emit ⟨kind, span⟩ d.current_ensureOpen)

theorem expects_ensureOpen (hd : d.Steady) (h : d.Expects d.openBlock e) :
    d.ensureOpen.Expects d.openBlock e := by
  rcases h with h | h | ⟨h, hk⟩
  · exact Or.inl h
  · exact Or.inr (Or.inl ((waiting_ensureOpen hd _).mpr h))
  · exact Or.inr (Or.inr ⟨((Run.ensureOpen hd).extends hd).isLoopHeader h, hk⟩)

/-- Ending the open block obeys the rules if its edges do. -/
theorem terminate (hd : d.Steady) {t : Terminator} {edges : List Edge} {span : Option Span}
    (ending : t.Ending edges) (ahead : ∀ e ∈ edges, d.Expects d.openBlock e)
    (silent : t.isJump = false ∨ span = none) (allowed : ∀ e ∈ edges, R.edge e)
    (ht : t ≠ .endFinally) :
    Trace R d (d.terminate t edges span) := by
  rw [terminate_eq_sealed hd]
  exact (ensureOpen hd).tail (.close d.current_ensureOpen ending
    (fun e he => expects_ensureOpen hd (ahead e he)) silent allowed fun h => absurd h ht)

theorem jump (hd : d.Steady) {t : Terminator} {edges : List Edge} (span : Span)
    (isJump : t.isJump = true) (ending : t.Ending edges)
    (ahead : ∀ e ∈ edges, d.Expects d.openBlock e) (allowed : ∀ e ∈ edges, R.edge e) :
      Trace R d (d.jump t edges span) := by
  have heq : d.jump t edges span = { d.ensureOpen.sealed d.openBlock t edges (some span) with
      dangling := d.ensureOpen.dangling ++ [d.openBlock] } := by
    simp only [Draft.jump, terminate_eq_sealed hd]
    rfl
  rw [heq]
  exact (ensureOpen hd).tail (.jump span d.current_ensureOpen isJump ending
    (fun e he => expects_ensureOpen hd (ahead e he)) allowed)

theorem closeOpen (hd : d.Steady) {t : Terminator} {edges : List Edge} (ending : t.Ending edges)
    (ahead : ∀ e ∈ edges, d.Expects d.openBlock e) (allowed : ∀ e ∈ edges, R.edge e)
    (final : t = .endFinally → ∀ id, d.current = some id → R.ending d id edges) :
    Trace R d (d.closeOpen t edges) := by
  cases hc : d.current with
  | none =>
    rw [closeOpen_of_none hc]
    exact .refl d
  | some id =>
    rw [closeOpen_of_some hd hc]
    rw [openBlock_eq hc] at ahead
    exact single (.close hc ending ahead (Or.inr rfl) allowed fun ht => final ht id hc)

/-- Closing the open block in favour of a single one, which is next in the text. -/
theorem passOn (hd : d.Steady) {t : Terminator} {kind : EdgeKind} {target : BlockId}
    (ending : t.Ending [⟨kind, target⟩]) (ahead : d.Expects d.openBlock ⟨kind, target⟩)
    (allowed : R.edge ⟨kind, target⟩) (ht : t ≠ .endFinally) :
    Trace R d ((d.closeOpen t [⟨kind, target⟩]).resolveDangling target) := by
  refine (closeOpen hd ending ?_ ?_ fun h => absurd h ht).tail (.resolve (by simp) ?_)
  · intro e he
    rw [List.mem_singleton.mp he]
    exact ahead
  · intro e he
    rw [List.mem_singleton.mp he]
    exact allowed
  · rw [fresh_closeOpen]
    exact ahead.awaits.lt

theorem fallInto (hd : d.Steady) (waiting : d.Waiting next) (allowed : R.edge (.sequential next)) :
    Trace R d (d.fallInto next) :=
  passOn hd (.fallThrough next) (Waiting.expects waiting) allowed nofun

theorem goto (hd : d.Steady) {kind : EdgeKind} {target : BlockId}
    (hkind : kind = .sequential ∨ kind = .loopBack) (ahead : d.Expects d.openBlock ⟨kind, target⟩)
    (allowed : R.edge ⟨kind, target⟩) : Trace R d (d.goto kind target) :=
  passOn hd (.jump target hkind) ahead allowed nofun

theorem leaveArrowGroup (hd : d.Steady) {after : BlockId} (waiting : d.Waiting after)
    (allowed : R.edge (.sequential after)) : Trace R d (d.leaveArrowGroup after) :=
  passOn hd (.breaking after after) (Waiting.expects waiting) allowed nofun

/-- Going on in a block obeys the rules if falling into it does. -/
theorem continueAt (hd : d.Steady) (waiting : d.Waiting next)
    (allowed : R.edge (.sequential next)) :
    Trace R d (d.continueAt next) := by
  rw [← fallInto_start]
  exact (fallInto hd waiting allowed).trans
    (start (by simp) ((waiting_fallInto hd next next).mpr waiting))

/-- If no block is open, none runs on into the next one. -/
theorem continueAt_of_none (idle : d.current = none) (waiting : d.Waiting next) :
    Trace R d (d.continueAt next) := by
  rw [← fallInto_start]
  have hfall : d.fallInto next = d.resolveDangling next := by
    rw [Draft.fallInto, closeOpen_of_none idle]
  rw [hfall]
  refine (single (.resolve idle waiting.lt)).trans
    (start ?_ ((waiting_resolveDangling d next next).mpr waiting))
  rw [current_resolveDangling]
  exact idle

theorem turn (hd : d.Steady) {kind : EdgeKind} {target : BlockId}
    (hkind : kind = .sequential ∨ kind = .loopBack) (ahead : d.Expects d.openBlock ⟨kind, target⟩)
    (allowed : R.edge ⟨kind, target⟩) (waiting : d.Waiting next) :
      Trace R d (d.turn kind target next) :=
  (goto hd hkind ahead allowed).trans
  (start (by simp) ((waiting_goto hd kind target next).mpr waiting))

theorem branch (hd : d.Steady) {onTrue onFalse : BlockId} (span : Span)
    (htrue : d.Expects d.openBlock ⟨.onTrue, onTrue⟩) (hfalse : d.Waiting onFalse)
    (allowed : R.edge ⟨.onTrue, onTrue⟩ ∧ R.edge ⟨.onFalse, onFalse⟩) :
    Trace R d (d.branch onTrue onFalse span) := by
  refine terminate hd (.branch onTrue onFalse) ?_ (Or.inl rfl) ?_ nofun <;> intro e he <;>
    rcases List.mem_cons.mp he with rfl | he
  · exact htrue
  · rw [List.mem_singleton.mp he]
    exact Waiting.expects hfalse
  · exact allowed.1
  · rw [List.mem_singleton.mp he]
    exact allowed.2

theorem resumeAt {resumptions : List (BlockId × Edge)} (pending : ∀ p ∈ resumptions, d.Waiting p.1)
    (ahead : ∀ p ∈ resumptions, d.Awaits p.2.target) (allowed : ∀ p ∈ resumptions, R.resumption p) :
    Trace R d (d.resumeAt resumptions) :=
  single (.resume pending ahead allowed)

theorem createGroups (groups : List CaseGroup) : Trace R d (CaseGroup.createBlocks groups d) := by
  unfold CaseGroup.createBlocks
  induction groups generalizing d with
  | nil => exact .refl d
  | cons group groups ih => exact (create .caseGroup (some group.span)).trans ih

theorem createClauses (clauses : List CatchClause) :
    Trace R d (CatchClause.createBlocks clauses d) := by
  unfold CatchClause.createBlocks
  induction clauses generalizing d with
  | nil => exact .refl d
  | cons clause clauses ih =>
    rw [List.foldl_cons, createClause_eq]
    exact (single (.add .handler _ (some clause.span))).trans ih

end Trace

/-! ## Targets that have been made -/

/-- Every edge leads to a block that has been made, and so does every `finally` clause at its
end. -/
structure Bounded (d : Draft) : Prop where
  edges : ∀ id b, d.graph.block? id = some b → ∀ e ∈ b.successors, e.target < d.fresh
  resumptions : ∀ p ∈ d.resumptions, p.2.target < d.fresh

theorem bounded_begun (span : Span) : (begun span).Bounded := by
  refine ⟨fun id b hb e he => ?_, nofun⟩
  rcases block?_begun hb with ⟨_, rfl⟩ | ⟨_, rfl⟩ <;> exact nomatch he

/-- Edges that a move draws lead to blocks that exist. -/
theorem Move.bounded_edges (hm : Move d d') (hd : d.Steady) (h : d.Bounded) {b : BasicBlock}
    (hb : d'.graph.block? id = some b) (he : e ∈ b.successors) : e.target < d'.fresh := by
  have hle := (hm.extends hd).fresh_le
  -- An edge that was there before is fine, since a move never takes blocks away.
  have old : ∀ b₀, d.graph.block? id = some b₀ → e ∈ b₀.successors → e.target < d'.fresh :=
    fun b₀ hb₀ he₀ => Nat.lt_of_lt_of_le (h.edges id b₀ hb₀ e he₀) hle
  cases hm with
  | add kind elements span =>
    rw [block?_add] at hb
    split at hb
    · cases hb
      exact nomatch he
    · exact old b hb he
  | enter | resume => exact old b hb he
  | emit element isOpen =>
    rw [block?_modify] at hb
    split at hb
    · obtain ⟨b₀, hb₀, rfl⟩ := Option.map_eq_some_iff.mp hb
      exact old b₀ hb₀ he
    · exact old b hb he
  | link isOpen exceptional ahead =>
    obtain ⟨b₀, hb₀, hs⟩ := mem_successors_addEdges hb
    rcases hs e he with he | ⟨_, he⟩
    · exact old b₀ hb₀ he
    · exact Nat.lt_of_lt_of_le (ahead e he).lt hle
  | close isOpen ending ahead silent | jump span isOpen isJump ending ahead =>
    obtain ⟨b₀, hb₀, hs⟩ := mem_successors_sealed hb
    rcases hs e he with he | ⟨_, he⟩
    · exact old b₀ hb₀ he
    · exact Nat.lt_of_lt_of_le (ahead e he).lt hle
  | resolve idle isBlock =>
    obtain ⟨b₀, hb₀, hc⟩ := exists_block?_of_core (d.core_resolveDangling _ _) hb
    exact old b₀ hb₀ (congrArg (·.successors) hc ▸ he)
  | mark =>
    obtain ⟨b₀, hb₀, hc⟩ := exists_block?_of_core (d.core_endCaseGroup _) hb
    exact old b₀ hb₀ (congrArg (·.successors) hc ▸ he)

/-- Each move keeps targets within the draft. -/
theorem Move.bounded (hm : Move d d') (hd : d.Steady) (h : d.Bounded) : d'.Bounded := by
  refine ⟨fun _ _ hb _ he => hm.bounded_edges hd h hb he, fun p hp => ?_⟩
  have old : p ∈ d.resumptions → p.2.target < d'.fresh := fun hp =>
    Nat.lt_of_lt_of_le (h.resumptions p hp) (hm.extends hd).fresh_le
  cases hm with
  | resume pending ahead =>
    rcases mem_appendAllNew.mp hp with hp | hp
    · exact old hp
    · exact (ahead p hp).lt
  | resolve idle isBlock | mark => exact old (by simpa using hp)
  | _ => exact old hp

/-- Every run of moves keeps targets within the draft. -/
theorem Run.bounded (hr : Run d d') (hd : d.Steady) (h : d.Bounded) : d'.Bounded := by
  induction hr with
  | refl => exact h
  | tail hr hm ih => exact hm.bounded (hr.steady hd) ih

end Draft

end MethodFlow
