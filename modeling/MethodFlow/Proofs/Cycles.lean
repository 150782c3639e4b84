import MethodFlow.Graph.PassThrough
import MethodFlow.Proofs.Consistency
import MethodFlow.Proofs.Order
import MethodFlow.Proofs.Words

/-!
# Every cycle goes through a loop header

In a finished draft the order in which blocks were closed is an order on all blocks. Edges of every
kind follow it, those of a shared `finally` clause too, except the ones that lead to the exit, from
where none goes on, and the ones back to a loop header. So a walk that comes back to where it began
has used an edge back to a header.

Blocks that only pass control on are no headers, so following them never comes round:
`Graph.normalize` ends at a block that does something.

Main result: `Graph.build_cycles`.
-/

namespace MethodFlow

/-- A block at which control has more to do than to go on: a loop header, a block with elements, or
one that has not exactly one edge. -/
def BasicBlock.Stops (b : BasicBlock) : Prop :=
  b.kind = .loopHeader ∨ b.elements ≠ [] ∨ b.successors.length ≠ 1

namespace BasicBlock

variable {b : BasicBlock}

/-- A block that passes control on to no other stops it. -/
theorem stops_of_passesTo? (h : b.passesTo? = none) : b.Stops := by
  unfold passesTo? at h
  split at h
  · rename_i hb
    rcases Bool.or_eq_true_iff.mp hb with hk | he
    · exact Or.inl (beq_iff_eq.mp hk)
    · exact Or.inr (Or.inl fun hnil => by simp [isEmpty, hnil] at he)
  · split at h
    · exact nomatch h
    · rename_i hone
      refine Or.inr (Or.inr fun hlen => ?_)
      obtain ⟨e, he⟩ := List.length_eq_one_iff.mp hlen
      exact hone e he

theorem of_passesTo? {next : BlockId} (h : b.passesTo? = some next) :
    b.kind ≠ .loopHeader ∧ ∃ e, b.successors = [e] ∧ e.target = next := by
  unfold passesTo? at h
  split at h
  · exact nomatch h
  · rename_i hb
    rw [Bool.or_eq_true_iff, not_or] at hb
    refine ⟨fun hk => hb.1 (beq_iff_eq.mpr hk), ?_⟩
    split at h
    · exact ⟨_, ‹_›, Option.some.inj h⟩
    · exact nomatch h

end BasicBlock

namespace Graph

/-- An edge is a back edge by its kind or by leading up to a loop header. -/
theorem isBackEdge_of_edge {g : Graph} {source : BlockId} {b : BasicBlock} {e : Edge}
    (hb : g.block? source = some b) (he : e ∈ b.successors)
    (h : e.kind = .loopBack ∨ g.isLoopHeader e.target = true ∧ e.target ≤ source) :
    g.isBackEdge source e.target = true := by
  rw [isBackEdge, edgesFrom, hb]
  refine List.any_eq_true.mpr ⟨e, he, ?_⟩
  simpa using h

theorem passOver_of_none {g : Graph} {unpassed : List BlockId} {id : BlockId}
    (h : g.passesTo? id = none) :
    g.passOver unpassed id = id := by
  rw [passOver]
  split
  · rw [h]
  · rfl

section Drafts

variable {types : Subtyping} {body : Block} {d : Draft} (hd : draft types body = .ok d)
include hd

theorem targets_exit_draft : d.graph.targets exit = [] := by
  refine List.eq_nil_iff_forall_not_mem.mpr fun target ht => ?_
  obtain ⟨b, e, hb, he, _⟩ := exists_edge ht
  rcases (draft_trace hd).mem_successors (Draft.steady_begun _) hb he
    with ⟨b₀, hb₀, he⟩ | ⟨hclosed, _⟩
  · rcases Draft.block?_begun hb₀ with ⟨_, rfl⟩ | ⟨_, rfl⟩ <;> exact nomatch he
  · exact hclosed List.mem_cons_self

/-- Unless an edge leads to the exit or starts a new round, it follows the order of closing. -/
theorem onward_draft {id : BlockId} {b : BasicBlock} {e : Edge} (hb : d.graph.block? id = some b)
    (he : e ∈ b.successors) :
    e.target = exit ∨ d.Returns id e ∨ d.closed.idxOf e.target < d.closed.idxOf id :=
  (draft_ordered hd).onward hb ((mem_closed_draft hd).mpr (lt_size_of_block? hb)) he
    ((mem_closed_draft hd).mpr (edges_draft_lt hd hb he))

/-- A walk uses an edge back to a loop header, or it ends at the exit or further down the order of
closing. -/
theorem Walk.onward {first last : BlockId} {steps : List (BlockId × BlockId)}
    (h : d.graph.Walk first steps last) :
    (∃ p ∈ steps, d.graph.isLoopHeader p.2 = true ∧ d.graph.isBackEdge p.1 p.2 = true) ∨
      steps = [] ∨ last = exit ∨ d.closed.idxOf last < d.closed.idxOf first := by
  induction h with
  | here => exact Or.inr (Or.inl rfl)
  | @step source target last steps isEdge rest ih =>
    obtain ⟨b, e, hb, he, rfl⟩ := exists_edge isEdge
    rcases onward_draft hd hb he with ht | ⟨hloop, hk⟩ | hlt
    · -- Nothing leads on from the exit.
      cases rest with
      | here => exact Or.inr (Or.inr (Or.inl ht))
      | step isEdge _ =>
        rw [ht, targets_exit_draft hd] at isEdge
        exact nomatch isEdge
    · refine Or.inl ⟨_, List.mem_cons_self, hloop, isBackEdge_of_edge hb he ?_⟩
      exact hk.imp_right fun hle => ⟨hloop, hle⟩
    · rcases ih with ⟨p, hp, hback⟩ | rfl | hexit | hlt'
      · exact Or.inl ⟨p, List.mem_cons_of_mem _ hp, hback⟩
      · cases rest
        exact Or.inr (Or.inr (Or.inr hlt))
      · exact Or.inr (Or.inr (Or.inl hexit))
      · exact Or.inr (Or.inr (Or.inr (Nat.lt_trans hlt' hlt)))

/-- A walk that returns to its start takes a back edge into a loop header. -/
theorem Walk.exists_backEdge {id : BlockId} {steps : List (BlockId × BlockId)}
    (h : d.graph.Walk id steps id) (hne : steps ≠ []) :
    ∃ p ∈ steps, d.graph.isLoopHeader p.2 = true ∧ d.graph.isBackEdge p.1 p.2 = true := by
  rcases h.onward hd with h | h | rfl | hlt
  · exact h
  · exact absurd h hne
  · cases h with
    | here => exact absurd rfl hne
    | step isEdge _ =>
      rw [targets_exit_draft hd] at isEdge
      exact nomatch isEdge
  · exact absurd hlt (Nat.lt_irrefl _)

/-- A block that passes control on leads to one that is closed later, or to one that does not pass
it on. -/
theorem passesTo?_draft {id next : BlockId} (h : d.graph.passesTo? id = some next) :
    next < d.graph.size ∧
      (d.graph.passesTo? next = none ∨ d.closed.idxOf next < d.closed.idxOf id) := by
  obtain ⟨b, hb, hpass⟩ := Option.bind_eq_some_iff.mp h
  obtain ⟨_, e, hs, rfl⟩ := BasicBlock.of_passesTo? hpass
  have he : e ∈ b.successors := hs ▸ List.mem_cons_self
  refine ⟨edges_draft_lt hd hb he, ?_⟩
  cases hnext : d.graph.passesTo? e.target with
  | none => exact Or.inl rfl
  | some last =>
    obtain ⟨b', hb', hpass'⟩ := Option.bind_eq_some_iff.mp hnext
    obtain ⟨hkind, e', hs', _⟩ := BasicBlock.of_passesTo? hpass'
    rcases onward_draft hd hb he with hexit | ⟨hloop, _⟩ | hlt
    · have hnone := targets_exit_draft hd
      rw [← hexit, targets, edgesFrom, hb', Option.elim_some, hs'] at hnone
      cases hnone
    · obtain ⟨b'', hb'', hk⟩ := isLoopHeader_eq_true_iff.mp hloop
      cases hb'.symm.trans hb''
      exact absurd hk hkind
    · exact Or.inr hlt

/-- Following blocks that pass control on, each is closed later than the one before, so it has not
been passed yet. -/
theorem passOver_stops {unpassed : List BlockId} {id : BlockId} (hid : id < d.graph.size)
    (hleft : ∀ i < d.graph.size, d.closed.idxOf i ≤ d.closed.idxOf id → i ∈ unpassed) :
    d.graph.passOver unpassed id < d.graph.size ∧
      d.graph.passesTo? (d.graph.passOver unpassed id) = none := by
  fun_induction passOver d.graph unpassed id with
  | case1 unpassed id _ next hnext ih =>
    obtain ⟨hlt, hnone | hafter⟩ := passesTo?_draft hd hnext
    · rw [passOver_of_none hnone]
      exact ⟨hlt, hnone⟩
    · refine ih hlt fun i hi hle => ?_
      have hbefore := Nat.lt_of_le_of_lt hle hafter
      refine (List.mem_erase_of_ne fun heq => ?_).mpr (hleft i hi (Nat.le_of_lt hbefore))
      exact Nat.lt_irrefl _ (heq ▸ hbefore)
  | case2 unpassed id _ hnone => exact ⟨hid, hnone⟩
  | case3 unpassed id hm => exact absurd (hleft id hid (Nat.le_refl _)) hm

end Drafts

/-- Every cycle of a graph, along edges of any kind, leads to a loop header by an edge that starts a
new round. Following blocks that only pass control on ends, from every block, at a loop header, at a
block with elements, or at one that has not exactly one edge. -/
theorem build_cycles {types : Subtyping} {body : Block} {g : Graph}
    (hg : build types body = .ok g) :
    (∀ id steps, g.Walk id steps id → steps ≠ [] →
      ∃ p ∈ steps, g.isLoopHeader p.2 = true ∧ g.isBackEdge p.1 p.2 = true) ∧
    ∀ id < g.size, ∃ b, g.block? (g.normalize id) = some b ∧ b.Stops := by
  obtain ⟨d, hd, rfl⟩ := exists_draft hg
  refine ⟨fun id steps h hne => h.exists_backEdge hd hne, fun id hid => ?_⟩
  obtain ⟨hlt, hnone⟩ := passOver_stops hd hid fun i hi _ => List.mem_range.mpr hi
  obtain ⟨b, hb⟩ := exists_block? hlt
  refine ⟨b, hb, BasicBlock.stops_of_passesTo? ?_⟩
  rw [passesTo?, hb] at hnone
  exact hnone

/-- A loop whose body goes on to the next round through a `finally` clause. -/
def roundBody : Block where
  stmts :=
    [.whileStmt (.name "c" {})
      (.tryStmt [] ⟨[.continueStmt none {}], {}⟩ []
        (some ⟨[.expr (.call none "f" [] [] {}) {}], {}⟩) {}) {}]
  span := {}

/-- The round through the `finally` clause takes a back edge into the header. -/
theorem build_cycles_roundBody :
    let steps := [(2, 3), (3, 7), (7, 6), (6, 2)]
    ∃ g, build ClassHierarchy.javaLang.subtyping roundBody = .ok g ∧ g.Walk 2 steps 2 ∧
      (∃ p ∈ steps, g.isLoopHeader p.2 = true ∧ g.isBackEdge p.1 p.2 = true) ∧
      ∃ b, g.block? (g.normalize 5) = some b ∧ b.Stops := by
  intro steps
  obtain ⟨g, hg⟩ : ∃ g, build ClassHierarchy.javaLang.subtyping roundBody = .ok g := ⟨_, rfl⟩
  have hw : g.Walk 2 steps 2 := by
    cases hg
    exact .step (by decide) (.step (by decide) (.step (by decide) (.step (by decide) .here)))
  have hlt : 5 < g.size := by
    cases hg
    decide
  exact ⟨g, hg, hw, (build_cycles hg).1 2 steps hw (by decide), (build_cycles hg).2 5 hlt⟩

end Graph

end MethodFlow
