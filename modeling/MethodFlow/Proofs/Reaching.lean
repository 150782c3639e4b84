import MethodFlow.Proofs.Searching
import MethodFlow.Proofs.Words

/-!
# Reachable means that a way leads there

The search from the entry takes edges of every kind and goes on until nothing new is found. What it
finds are the blocks that some way from the entry leads to, in any graph whose edges stay within it:
every block found has a way that leads to it, and the blocks found are closed under edges.

Main result: `Graph.reachability_exact`.
-/

namespace MethodFlow

namespace Graph

/-- Every edge leads to a block of the graph. -/
def InRange (g : Graph) : Prop := ∀ b ∈ g.blocks, ∀ e ∈ b.successors, e.target < g.size

instance (g : Graph) : Decidable g.InRange :=
  inferInstanceAs (Decidable (∀ b ∈ g.blocks, ∀ e ∈ b.successors, e.target < g.size))

/-- A way of any number of edges, of whatever kind, leads from one block to another. -/
def Reaches (g : Graph) : BlockId → BlockId → Prop := Relation.ReflTransGen fun a b =>
    b ∈ g.targets a

variable {g : Graph} {a b : BlockId}

theorem InRange.lt (hg : g.InRange) (h : b ∈ g.targets a) : b < g.size := by
  obtain ⟨block, e, hblock, he, rfl⟩ := exists_edge h
  exact hg block (Array.mem_of_getElem? hblock) e he

/-- The search finds just what a way from the entry leads to. -/
theorem isReachable_iff_reaches (hg : g.InRange) : g.reachability.isReachable b = true ↔
    g.Reaches entry b := by
  constructor
  · exact isReachable_invariant .refl fun _ hway _ hedge => hway.tail hedge
  · intro hway
    -- What has been found is closed under edges, so no way from the entry leaves it.
    induction hway with
    | refl => exact g.isReachable_entry
    | tail _ hedge ih => exact isReachable_target ih hedge (hg.lt hedge)

/-- The unreachable blocks are those that no way from the entry leads to. -/
theorem mem_unreachable_iff_reaches (hg : g.InRange) :
    b ∈ g.reachability.unreachable ↔ b < g.size ∧ ¬ g.Reaches entry b := by
  rw [mem_unreachable_iff, isReachable_iff_reaches hg]

/-- A block is found if and only if a way from the entry leads to it. The other blocks are listed as
dead in the order in which they were made, and each block is counted once, as found or as dead. -/
theorem reachability_exact (g : Graph) (hg : g.InRange) :
    (∀ b, g.reachability.isReachable b = true ↔ g.Reaches entry b) ∧
      (∀ b, b ∈ g.reachability.unreachable ↔ b < g.size ∧ ¬ g.Reaches entry b) ∧
      g.reachability.unreachable.Pairwise (· < ·) ∧ g.reachability.reachable.Nodup ∧
      g.reachability.reachable.length + g.reachability.unreachable.length = g.size := by
  have hperm := g.reachability_perm
  refine ⟨fun _ => isReachable_iff_reaches hg, fun _ => mem_unreachable_iff_reaches hg,
    g.unreachable_sorted, ?_, ?_⟩
  · exact (List.nodup_append.mp (hperm.nodup_iff.mpr List.nodup_range)).1
  · rw [← List.length_append, hperm.length_eq, ids, List.length_range]

/-- A loop that is entered by two edges from one block, and dead blocks that lead round in a circle
and into the loop. -/
def twoLoops : Graph where
  blocks := #[
    { kind := .entry, successors := [.sequential 2, .exceptional 2] },
    { kind := .exit, terminator := .methodExit },
    { kind := .loopHeader, successors := [⟨.onTrue, 3⟩, ⟨.onFalse, 1⟩] },
    { successors := [.loopBack 2] },
    { successors := [.sequential 5] },
    { successors := [.loopBack 4, .sequential 3] }]
  two_le_size := by decide

/-- One of the two loops is reached and the other is not. -/
theorem reachability_exact_twoLoops :
    twoLoops.InRange ∧ twoLoops.Reaches entry 3 ∧ ¬ twoLoops.Reaches entry 5 ∧
      twoLoops.reachability.reachable.length + twoLoops.reachability.unreachable.length = 6 := by
  have hg : twoLoops.InRange := by decide
  obtain ⟨hreach, hdead, _, _, hcount⟩ := reachability_exact twoLoops hg
  exact ⟨hg, (hreach 3).mp (by decide +kernel), ((hdead 5).mp (by decide +kernel)).2, hcount⟩

end Graph

end MethodFlow
