import MethodFlow.Proofs.Views

/-!
# What the types of exceptions decide

The type hierarchy says which catch clauses may receive an exception, and so where exceptional edges
lead. That is all it decides. The graphs of one body under two hierarchies have the same blocks with
the same contents, and they agree in every edge that needs no exception, also at the ends of
`finally` clauses, which collect what exceptions and jumps have registered there.
-/

namespace MethodFlow

/-- The graph without its exceptional edges. -/
def Graph.withoutExceptions (g : Graph) : Graph where
  blocks := g.blocks.map fun b => { b with successors := b.normalSuccessors }
  two_le_size := by
    rw [Array.size_map]
    exact g.two_le_size

/-- Everything but exceptional edges is seen. -/
def View.calm : View where
  shows e := e.isNormal
  span := id
  normal _ h := h

/-- The calm view of a graph is the graph without its exceptional edges. -/
theorem View.graph_calm (g : Graph) : View.calm.graph g = g.withoutExceptions := by
  have hblock : View.calm.block = fun b => { b with successors := b.normalSuccessors } := by
    funext b
    simp only [View.block, View.calm, id, ite_self]
    rfl
  unfold View.graph Graph.withoutExceptions
  rw [Graph.mk.injEq, hblock]

/-- The calm view hides whatever two hierarchies differ in. -/
theorem View.calm_hides (t t' : Subtyping) : View.calm.Hides t t' := by
  right
  intro e he
  show (!e.isExceptional) = false
  rw [he]
  rfl

/-- The types decide nothing but exceptional edges: under any two hierarchies a body fails for the
same reason, or its two graphs are the same apart from those edges. -/
theorem Graph.build_withoutExceptions (types types' : Subtyping) (body : Block) :
    (∃ failure, Graph.build types body = .error failure ∧ Graph.build types' body =
      .error failure) ∨
      ∃ g g', Graph.build types body = .ok g ∧ Graph.build types' body = .ok g' ∧
        g.withoutExceptions = g'.withoutExceptions := by
  have hv := View.calm_hides types types'
  have halike := Graph.build_alike hv (View.comparison hv).covers_id body
  rw [Block.mapExpr_id] at halike
  refine halike.imp_right ?_
  rintro ⟨g, g', hg, hg', hgraph⟩
  rw [View.graph_calm, View.graph_calm] at hgraph
  exact ⟨g, g', hg, hg', hgraph⟩

end MethodFlow
