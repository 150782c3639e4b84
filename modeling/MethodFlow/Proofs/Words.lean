import MethodFlow.Proofs.Paths

/-!
# The words of a graph

A word of a graph is what some way from the entry to the exit spells: the elements of every block on
it, one block after the other. Read from the exit back, `g.Finishes n id w` says that some way of
`n` edges from the start of a block to the exit spells `w`. The number of edges is there for
inductions over loops.
-/

namespace MethodFlow

namespace Graph

/-- A way along edges, with the pairs of blocks that it goes through. -/
inductive Walk (g : Graph) : BlockId → List (BlockId × BlockId) → BlockId → Prop
  | here {id : BlockId} : g.Walk id [] id
  | step {source target last : BlockId} {steps : List (BlockId × BlockId)}
      (isEdge : target ∈ g.targets source) (rest : g.Walk target steps last) :
      g.Walk source ((source, target) :: steps) last

theorem exists_edge {g : Graph} {source target : BlockId} (h : target ∈ g.targets source) :
    ∃ b e, g.block? source = some b ∧ e ∈ b.successors ∧ e.target = target := by
  rw [targets, edgesFrom] at h
  obtain ⟨e, he, ht⟩ := List.mem_map.mp h
  cases hb : g.block? source with
  | none =>
    rw [hb] at he
    cases he
  | some b =>
    rw [hb] at he
    exact ⟨b, e, rfl, he, ht⟩

/-- The elements of blocks, one block after the other. -/
def spelled (g : Graph) (ids : List BlockId) : List Element :=
  ids.flatMap fun id => (g.block? id).elim [] (·.elements)

/-- The elements of all blocks on some way from the entry to the exit. -/
def Word (g : Graph) (w : List Element) : Prop :=
  ∃ steps, g.Walk entry steps exit ∧ w = g.spelled (steps.map (·.1) ++ [exit])

/-- Some way of `n` edges from the start of a block to the exit spells the elements. -/
inductive Finishes (g : Graph) : Nat → BlockId → List Element → Prop
  | done {b : BasicBlock} (isBlock : g.block? exit = some b) : g.Finishes 0 exit b.elements
  | step {n : Nat} {id : BlockId} {b : BasicBlock} {e : Edge} {w : List Element}
      (isBlock : g.block? id = some b) (isEdge : e ∈ b.successors)
      (rest : g.Finishes n e.target w) :
      g.Finishes (n + 1) id (b.elements ++ w)

variable {g : Graph} {n : Nat} {id : BlockId} {w : List Element}

theorem spelled_cons {b : BasicBlock} (hb : g.block? id = some b) (ids : List BlockId) :
    g.spelled (id :: ids) = b.elements ++ g.spelled ids := by
  rw [spelled, List.flatMap_cons, hb]
  rfl

/-- What finishes is spelled by a walk to the exit. -/
theorem Finishes.exists_walk (h : g.Finishes n id w) :
    ∃ steps, g.Walk id steps exit ∧ w = g.spelled (steps.map (·.1) ++ [exit]) := by
  induction h with
  | done isBlock =>
    refine ⟨[], .here, ?_⟩
    rw [List.map_nil, List.nil_append, spelled_cons isBlock]
    exact (List.append_nil _).symm
  | step isBlock isEdge _ ih =>
    obtain ⟨steps, hwalk, rfl⟩ := ih
    exact ⟨_, .step (mem_targets isBlock isEdge) hwalk, (spelled_cons isBlock _).symm⟩

theorem Walk.exists_finishes {last : BlockId} {steps : List (BlockId × BlockId)}
    (h : g.Walk id steps last) (hlast : last = exit) :
    ∃ n, g.Finishes n id (g.spelled (steps.map (·.1) ++ [exit])) := by
  induction h with
  | here =>
    subst hlast
    obtain ⟨b, hb⟩ : ∃ b, g.block? exit = some b := exists_block? g.two_le_size
    refine ⟨0, ?_⟩
    rw [List.map_nil, List.nil_append, spelled_cons hb, spelled, List.flatMap_nil, List.append_nil]
    exact .done hb
  | step isEdge _ ih =>
    obtain ⟨n, hn⟩ := ih hlast
    obtain ⟨b, e, hb, he, rfl⟩ := exists_edge isEdge
    refine ⟨n + 1, ?_⟩
    rw [List.map_cons, List.cons_append, spelled_cons hb]
    exact .step hb he hn

theorem word_iff : g.Word w ↔ ∃ n, g.Finishes n entry w := by
  constructor
  · rintro ⟨steps, hwalk, rfl⟩
    exact hwalk.exists_finishes rfl
  · rintro ⟨n, hn⟩
    exact hn.exists_walk

/-- Anywhere but at the exit, a way to the exit takes an edge. -/
theorem Finishes.exists_step (h : g.Finishes n id w) (hne : id ≠ exit) :
    ∃ m b e u, n = m + 1 ∧ g.block? id = some b ∧ e ∈ b.successors ∧ g.Finishes m e.target u ∧
      w = b.elements ++ u := by
  cases h with
  | done => exact absurd rfl hne
  | step isBlock isEdge rest => exact ⟨_, _, _, _, rfl, isBlock, isEdge, rest, rfl⟩

end Graph

end MethodFlow
