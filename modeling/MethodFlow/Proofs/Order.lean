import MethodFlow.Proofs.Tracing

/-!
# Edges lead onward

Blocks are closed one after the other, and an edge leads to the exit, back to the header of a loop,
or to a block that is closed later than the one it leaves: when a block gets an edge, the target is
still waiting. An edge back to a header is marked so or comes from a block that was made later.

The list `closed` of a draft has the block closed last at its head. `Ordered` is the invariant,
about each block at the moment when it was closed. For a finished draft it says that edges go down
in the list, unless they lead to the exit or start a new round (`Ordered.onward`).
-/

namespace MethodFlow

namespace Draft

/-- The edge starts a new round of a loop, if it leaves the block `id`. -/
def Returns (d : Draft) (id : BlockId) (e : Edge) : Prop :=
  d.graph.isLoopHeader e.target = true ∧ (e.kind = .loopBack ∨ e.target ≤ id)

/-- The edge leads to the exit, back to a loop header, or to a block that is not in the list. -/
def Beyond (d : Draft) (l : List BlockId) (id : BlockId) (e : Edge) : Prop :=
  e.target = Graph.exit ∨ d.Returns id e ∨ e.target ∉ l

/-- Every edge leads beyond what was closed when the block it leaves was closed. -/
structure Ordered (d : Draft) : Prop where
  blank : ∀ id b, d.graph.block? id = some b → id ∉ d.closed → d.current ≠ some id →
    b.successors = []
  opened : ∀ id b, d.graph.block? id = some b → id ∉ d.closed →
    ∀ e ∈ b.successors, d.Beyond (id :: d.closed) id e
  ended : ∀ id b, d.graph.block? id = some b → ∀ l, id :: l <:+ d.closed →
    ∀ e ∈ b.successors, d.Beyond (id :: l) id e

variable {d d' : Draft}

/-- Edges that lead onward still do in every later draft. -/
theorem Beyond.of_extends {l : List BlockId} {id : BlockId} {e : Edge} (h : d.Beyond l id e)
    (hext : d.Extends d') : d'.Beyond l id e := by
  rcases h with h | ⟨h, hk⟩ | h
  · exact Or.inl h
  · exact Or.inr (Or.inl ⟨hext.isLoopHeader h, hk⟩)
  · exact Or.inr (Or.inr h)

theorem Expects.beyond {id : BlockId} {e : Edge} (h : d.Expects id e)
    (isOpen : d.current = some id) :
    d.Beyond (id :: d.closed) id e := by
  rcases h with h | h | h
  · exact Or.inl h
  · refine Or.inr (Or.inr fun hm => ?_)
    rcases List.mem_cons.mp hm with rfl | hm
    · exact h.2.2 isOpen
    · exact h.2.1 hm
  · exact Or.inr (Or.inl h)

namespace Ordered

/-- A move that changes neither edges nor what is closed. -/
theorem of_successors (h : d.Ordered) (hext : d.Extends d') (closed : d'.closed = d.closed)
    (current : ∀ id, d'.current ≠ some id → d.current ≠ some id)
    (blocks : ∀ id b', d'.graph.block? id = some b' →
      b'.successors = [] ∨ ∃ b, d.graph.block? id = some b ∧ b'.successors = b.successors) :
        d'.Ordered := by
  refine ⟨fun id b' hb hid hc => ?_, fun id b' hb hid e he => ?_, fun id b' hb l hl e he => ?_⟩
  · rcases blocks id b' hb with hs | ⟨b, hb, hs⟩
    · exact hs
    · rw [hs]
      exact h.blank id b hb (closed ▸ hid) (current id hc)
  · rcases blocks id b' hb with hs | ⟨b, hb, hs⟩
    · rw [hs] at he
      exact nomatch he
    · rw [closed]
      exact (h.opened id b hb (closed ▸ hid) e (hs ▸ he)).of_extends hext
  · rcases blocks id b' hb with hs | ⟨b, hb, hs⟩
    · rw [hs] at he
      exact nomatch he
    · exact (h.ended id b hb l (closed ▸ hl) e (hs ▸ he)).of_extends hext

theorem of_cores (h : d.Ordered) (hext : d.Extends d') (closed : d'.closed = d.closed)
    (current : d'.current = d.current)
    (cores : ∀ id, (d'.graph.block? id).map (·.core) = (d.graph.block? id).map (·.core)) :
      d'.Ordered := by
  refine h.of_successors hext closed (fun id hc => current ▸ hc) fun id b' hb => Or.inr ?_
  obtain ⟨b, hb, hc⟩ := exists_block?_of_core (cores id) hb
  exact ⟨b, hb, congrArg (·.successors) hc⟩

/-- Exceptional edges out of the open block. -/
theorem link (h : d.Ordered) (hd : d.Steady) {id : BlockId} {edges : List Edge}
    (isOpen : d.current = some id) (ahead : ∀ e ∈ edges, d.Expects id e) :
    (d.addEdges id edges).Ordered := by
  have hext := extends_addEdges hd isOpen edges
  refine ⟨fun i b' hb hi hc => ?_, fun i b' hb hi e he => ?_, fun i b' hb l hl e he => ?_⟩
  · obtain ⟨b, hb, hs⟩ := mem_successors_addEdges hb
    refine List.eq_nil_iff_forall_not_mem.mpr fun e he => ?_
    rcases hs e he with he | ⟨rfl, _⟩
    · rw [h.blank i b hb hi hc] at he
      exact nomatch he
    · exact hc isOpen
  · obtain ⟨b, hb, hs⟩ := mem_successors_addEdges hb
    rcases hs e he with he | ⟨rfl, he⟩
    · exact (h.opened i b hb hi e he).of_extends hext
    · exact ((ahead e he).beyond isOpen).of_extends hext
  · obtain ⟨b, hb, hs⟩ := mem_successors_addEdges hb
    rcases hs e he with he | ⟨rfl, _⟩
    · exact (h.ended i b hb l hl e he).of_extends hext
    · exact absurd (hl.subset List.mem_cons_self) (hd.current_open _ isOpen)

/-- Closing the open block. -/
theorem sealed (h : d.Ordered) (hd : d.Steady) {id : BlockId} {edges : List Edge} {t : Terminator}
    {span : Option Span} (isOpen : d.current = some id) (ahead : ∀ e ∈ edges, d.Expects id e) :
    (d.sealed id t edges span).Ordered := by
  have hext := extends_sealed hd isOpen t edges span
  have hopen := hd.current_open id isOpen
  -- A block that is neither closed nor the one just closed has no edges yet.
  have hblank : ∀ i b', (d.sealed id t edges span).graph.block? i = some b' → i ∉ id :: d.closed →
      b'.successors = [] := by
    intro i b' hb hi
    rw [List.mem_cons, not_or] at hi
    obtain ⟨b, hb, hs⟩ := mem_successors_sealed hb
    refine List.eq_nil_iff_forall_not_mem.mpr fun e he => ?_
    rcases hs e he with he | ⟨rfl, _⟩
    · rw [h.blank i b hb hi.2 fun hc => hi.1 (Option.some.inj (hc.symm.trans isOpen))] at he
      exact nomatch he
    · exact hi.1 rfl
  refine ⟨fun i b' hb hi _ => hblank i b' hb hi, fun i b' hb hi e he => ?_,
    fun i b' hb l hl e he => ?_⟩
  · rw [hblank i b' hb hi] at he
    exact nomatch he
  · obtain ⟨b, hb₀, hs⟩ := mem_successors_sealed hb
    rcases List.suffix_cons_iff.mp hl with hl | hl
    · obtain ⟨rfl, rfl⟩ := List.cons.inj hl
      rcases hs e he with he | ⟨_, he⟩
      · exact (h.opened i b hb₀ hopen e he).of_extends hext
      · exact ((ahead e he).beyond isOpen).of_extends hext
    · rcases hs e he with he | ⟨rfl, _⟩
      · exact (h.ended i b hb₀ l hl e he).of_extends hext
      · exact absurd (hl.subset List.mem_cons_self) hopen

end Ordered

/-- Each step keeps a draft ordered. -/
theorem Step.ordered {R : Rules} (hd : d.Steady) (hs : Step R d d') (h : d.Ordered) :
    d'.Ordered := by
  have hext := hs.move.extends hd
  cases hs with
  | add kind elements span =>
    refine h.of_successors hext rfl (fun _ hc => hc) fun id b' hb => ?_
    rw [block?_add] at hb
    split at hb
    · exact Or.inl (Option.some.inj hb ▸ rfl)
    · exact Or.inr ⟨b', hb, rfl⟩
  | enter idle waiting =>
    refine h.of_successors hext rfl (fun _ _ => ?_) fun id b' hb => Or.inr ⟨b', hb, rfl⟩
    rw [idle]
    exact nofun
  | @emit id element isOpen =>
    refine h.of_successors hext rfl (fun _ hc => hc) fun i b' hb => Or.inr ?_
    rw [block?_modify] at hb
    split at hb
    · obtain ⟨b, hb₀, rfl⟩ := Option.map_eq_some_iff.mp hb
      exact ⟨b, hb₀, rfl⟩
    · exact ⟨b', hb, rfl⟩
  | link isOpen exceptional ahead => exact h.link hd isOpen ahead
  | close isOpen ending ahead silent => exact h.sealed hd isOpen ahead
  | @jump id t edges span isOpen isJump ending ahead =>
    have hs : (d.sealed id t edges (some span)).Ordered := h.sealed hd isOpen ahead
    exact hs.of_cores (.of_cores rfl rfl rfl (fun _ => rfl) (List.Subset.refl _) rfl) rfl rfl
      fun _ => rfl
  | resolve idle isBlock => exact h.of_cores hext (by simp) (by simp) (d.core_resolveDangling _)
  | mark => exact h.of_cores hext (by simp) (by simp) d.core_endCaseGroup
  | resume pending ahead => exact h.of_cores hext rfl rfl fun _ => rfl

theorem ordered_begun (span : Span) : (begun span).Ordered := by
  have blank : ∀ id b, (begun span).graph.block? id = some b → b.successors = [] := by
    intro id b hb
    rcases block?_begun hb with ⟨_, rfl⟩ | ⟨_, rfl⟩ <;> rfl
  refine ⟨fun id b hb _ _ => blank id b hb, fun id b hb _ e he => ?_,
    fun id b hb _ _ e he => ?_⟩ <;>
  · rw [blank id b hb] at he
    exact nomatch he

/-- Unless an edge leads to the exit or starts a new round, its target was closed later than the
block it leaves, and so comes first in the list. -/
theorem Ordered.onward (h : d.Ordered) {id : BlockId} {b : BasicBlock} {e : Edge}
    (hb : d.graph.block? id = some b) (hid : id ∈ d.closed) (he : e ∈ b.successors)
    (hclosed : e.target ∈ d.closed) :
    e.target = Graph.exit ∨ d.Returns id e ∨ d.closed.idxOf e.target < d.closed.idxOf id := by
  obtain ⟨s, t, hst, hnot⟩ := List.eq_append_cons_of_mem hid
  rcases h.ended id b hb t ⟨s, hst.symm⟩ e he with h | h | h
  · exact Or.inl h
  · exact Or.inr (Or.inl h)
  · refine Or.inr (Or.inr ?_)
    rw [hst] at hclosed
    have hs : e.target ∈ s := (List.mem_append.mp hclosed).resolve_right h
    rw [hst, List.idxOf_append, if_pos hs, List.idxOf_append, if_neg hnot, List.idxOf_cons_self,
      Nat.zero_add]
    exact List.idxOf_lt_length_of_mem hs

end Draft

/-- The edges of a finished draft lead onward. -/
theorem Graph.draft_ordered {types : Subtyping} {body : Block} {d : Draft}
    (h : Graph.draft types body = .ok d) : d.Ordered :=
  (Graph.draft_trace h).invariant Draft.Step.ordered (Draft.steady_begun _) (Draft.ordered_begun _)

end MethodFlow
