import MethodFlow.Proofs.DeadCode
import MethodFlow.Proofs.References

/-!
# Numbers in finished graphs

All numbers that a finished graph holds are those of blocks: the targets of edges, the blocks that
terminators and jumps name, and the predecessors that a pass over the edges gathers. Main result:
`Graph.build_references`.
-/

namespace MethodFlow

namespace Graph

variable {g : Graph}

/-- Predecessors are the sources of the edges that lead to a block. -/
theorem mem_predecessors {id p : BlockId} :
    p ∈ g.predecessors id ↔ ∃ e, (p, e) ∈ g.edges ∧ e.target = id := by
  simp only [predecessors, List.mem_filter, List.contains_iff_mem, targets, List.mem_map, mem_edges]
  refine and_iff_right_of_imp ?_
  rintro ⟨e, he, _⟩
  obtain ⟨b, hb, _⟩ := mem_edgesFrom.mp he
  exact List.mem_range.mpr (lt_size_of_block? hb)

/-- The numbers in a finished graph fit together. Every edge is kept with the block that it leaves,
and no block keeps one twice. Edges lead from blocks to blocks, and terminators and jumps name no
numbers but those of blocks. A pass over the edges finds the predecessors of all blocks: those of a
block are the blocks from which an edge leads to it, in order and each once. -/
theorem build_references (types : Subtyping) (body : Block) (g : Graph)
    (hg : build types body = .ok g) :
    (∀ source e, (source, e) ∈ g.edges ↔ ∃ b, g.block? source = some b ∧ e ∈ b.successors) ∧
      (∀ source e, (source, e) ∈ g.edges → source < g.size ∧ e.target < g.size) ∧
      (∀ id b, g.block? id = some b → b.successors.Nodup ∧
        (∀ named ∈ b.terminator.references, named < g.size) ∧
          ∀ next, b.lexicalNext = some next → next < g.size) ∧
      g.gatherPredecessors? = some (g.ids.map g.predecessors).toArray ∧
      ∀ id, (∀ p, p ∈ g.predecessors id ↔ ∃ e, (p, e) ∈ g.edges ∧ e.target = id) ∧
        (g.predecessors id).Pairwise (· < ·) ∧ ∀ p ∈ g.predecessors id, p < g.size := by
  obtain ⟨d, hd, rfl⟩ := exists_draft hg
  have hblocks := (selfContained_draft hd).blocks
  refine ⟨fun source e => mem_edges.trans mem_edgesFrom, fun source e he => ?_, fun id b hb => ?_,
    gatherPredecessors?_eq (lt_of_mem_edges_draft hd),
    fun id => ⟨fun p => mem_predecessors, ?_, fun p hp => ?_⟩⟩
  · obtain ⟨b, hb, he⟩ := mem_edgesFrom.mp (mem_edges.mp he)
    exact ⟨lt_size_of_block? hb, (hblocks source b hb).edges_lt e he⟩
  · exact ⟨(hblocks id b hb).nodup, (hblocks id b hb).named_lt, (hblocks id b hb).next_lt⟩
  · exact List.pairwise_lt_range.filter _
  · exact List.mem_range.mp (List.mem_filter.mp hp).1

/-- The `break` names the block after the loop, which none of its edges leads to, and two edges lead
to the `finally` clause. -/
theorem build_references_loopBody :
    ∃ g, build ClassHierarchy.javaLang.subtyping loopBody = .ok g ∧
      (∃ b, g.block? 7 = some b ∧ b.terminator = .breaking 4 ∧ b.targets = [6] ∧ 4 < g.size) ∧
      g.predecessors 6 = [7, 8] ∧ ∃ e, (8, e) ∈ g.edges ∧ e.target = 6 := by
  have hfacts : (build ClassHierarchy.javaLang.subtyping loopBody).toOption.map (fun g =>
      ((g.block? 7).map fun b => (b.terminator, b.targets), g.predecessors 6)) =
      some (some (.breaking 4, [6]), [7, 8]) := by
    decide +kernel
  cases hg : build ClassHierarchy.javaLang.subtyping loopBody with
  | error failure =>
    rw [hg] at hfacts
    cases hfacts
  | ok g =>
    rw [hg] at hfacts
    obtain ⟨hb, hp⟩ := Prod.mk.inj (Option.some.inj hfacts)
    obtain ⟨b, hb, hfacts⟩ := Option.map_eq_some_iff.mp hb
    obtain ⟨hterminator, htargets⟩ := Prod.mk.inj hfacts
    obtain ⟨_, _, hblocks, _, hpredecessors⟩ := build_references _ loopBody g hg
    refine ⟨g, rfl, ⟨b, hb, hterminator, htargets, (hblocks 7 b hb).2.1 4 ?_⟩, hp,
      ((hpredecessors 6).1 8).mp ?_⟩
    · rw [hterminator]
      exact List.mem_cons_self
    · rw [hp]
      exact List.mem_cons_of_mem _ List.mem_cons_self

end Graph

end MethodFlow
