import Mathlib.Data.Fintype.EquivFin
import Mathlib.Order.WellFounded
import MethodFlow.Proofs.Cycles
import MethodFlow.Proofs.Searching

/-!
# Where dead regions start

A block from which a dead one is entered is dead itself, so dead blocks have ways between them that
stay among dead blocks. A region starts at a block that is entered from no dead block. What no such
block leads to is taken in the order in which blocks were made: there a region starts at a block
that was made before all others that lead to it (`Graph.exists_deadRegion_iff`).

If every block that leads to a block is entered from a dead one, going back along edges never ends,
so a dead cycle leads to the block; and a cycle goes through a loop header. But the block need not
be on the cycle. The block after a labeled statement is made before the loops inside the statement,
so it is taken first and split off from the dead loop that leads to it.

Main result: `Graph.build_deadRegions`.
-/

namespace MethodFlow

namespace Graph

/-- An edge from a dead block to a dead block. -/
def DeadEdge (g : Graph) (a b : BlockId) : Prop :=
  a ∈ g.reachability.unreachable ∧ b ∈ g.reachability.unreachable ∧ b ∈ g.targets a

/-- A way among dead blocks leads from the first block to the second. -/
def DeadLeads (g : Graph) : BlockId → BlockId → Prop := Relation.ReflTransGen g.DeadEdge

/-- The block lies on a cycle of dead blocks. -/
def OnDeadCycle (g : Graph) (b : BlockId) : Prop := Relation.TransGen g.DeadEdge b b

variable {g : Graph} {a b : BlockId}

theorem DeadLeads.dead (h : g.DeadLeads a b) (hb : b ∈ g.reachability.unreachable) :
    a ∈ g.reachability.unreachable := by
  rcases Relation.ReflTransGen.cases_head h with rfl | ⟨_, hedge, _⟩
  · exact hb
  · exact hedge.1

/-- The ways of a search among dead blocks are ways among dead blocks. -/
theorem leads_unreachable_iff (ha : a ∈ g.reachability.unreachable) :
    Search.Leads g.targets g.reachability.unreachable a b ↔ g.DeadLeads a b := by
  constructor
  · intro h
    have hdead : g.DeadLeads a b ∧ b ∈ g.reachability.unreachable := by
      induction h with
      | refl => exact ⟨.refl, ha⟩
      | tail _ hs ih => exact ⟨ih.1.tail ⟨ih.2, hs.2, hs.1⟩, hs.2⟩
    exact hdead.1
  · exact Relation.ReflTransGen.mono (fun _ _ hedge => ⟨hedge.2.2, hedge.2.1⟩) a b

/-- A dead block is a head when no edge from another dead block enters it. -/
theorem isDeadHead_iff (hb : b ∈ g.reachability.unreachable) :
    g.isDeadHead g.reachability b = true ↔ ∀ a, ¬ g.DeadEdge a b := by
  rw [isDeadHead, List.all_eq_true]
  constructor
  · rintro h a ⟨ha, _, hedge⟩
    obtain ⟨hlt, hnot⟩ := mem_unreachable_iff.mp ha
    exact hnot (h a (List.mem_filter.mpr ⟨List.mem_range.mpr hlt, List.contains_iff_mem.mpr hedge⟩))
  · intro h a ha
    obtain ⟨hlt, hedge⟩ := List.mem_filter.mp ha
    refine Decidable.byContradiction fun hnot => ?_
    exact h a ⟨mem_unreachable_iff.mpr ⟨List.mem_range.mp hlt, hnot⟩, hb,
      List.contains_iff_mem.mp hedge⟩

/-! ## Which blocks start a region -/

/-- A candidate that is no head stands behind all the heads. -/
theorem split_of_not_head {heads rest before after : List BlockId} (hb : b ∉ heads)
    (h : heads ++ rest = before ++ b :: after) :
    ∃ skipped, before = heads ++ skipped ∧ rest = skipped ++ b :: after := by
  rcases List.append_eq_append_iff.mp h with ⟨skipped, hbefore, hrest⟩ | ⟨heads', hheads, hafter⟩
  · exact ⟨skipped, hbefore, hrest⟩
  · cases heads' with
    | nil => exact ⟨[], by simpa using hheads.symm, by simpa using hafter.symm⟩
    | cons first heads' =>
      obtain ⟨rfl, _⟩ := List.cons.inj hafter
      exact absurd (hheads ▸ List.mem_append_right _ List.mem_cons_self) hb

/-- A region starts at a dead block that is entered from no dead block, or at the first among all
that lead to it, if each of these is entered from a dead block. -/
theorem exists_deadRegion_iff :
    (∃ rest, b :: rest ∈ g.deadRegions g.reachability) ↔
      b ∈ g.reachability.unreachable ∧
        ((∀ a, ¬ g.DeadEdge a b) ∨ ∀ a, g.DeadLeads a b → (∃ p, g.DeadEdge p a) ∧ b ≤ a) := by
  have hsorted := g.unreachable_sorted
  have hnodup : g.reachability.unreachable.Nodup := hsorted.imp Nat.ne_of_lt
  have hheads : ∀ {a}, a ∈ g.reachability.unreachable.filter (g.isDeadHead g.reachability) ↔
      a ∈ g.reachability.unreachable ∧ ∀ p, ¬ g.DeadEdge p a := by
    intro a
    rw [List.mem_filter]
    exact and_congr_right isDeadHead_iff
  rw [deadRegions, Search.exists_region_iff hnodup]
  refine and_congr_right fun hb => ⟨?_, ?_⟩
  · rintro ⟨before, after, hsplit, hbefore⟩
    by_cases hhead : b ∈ g.reachability.unreachable.filter (g.isDeadHead g.reachability)
    · exact Or.inl (hheads.mp hhead).2
    · -- Past the heads the dead blocks are tried in order: none before `b` leads to it.
      obtain ⟨skipped, rfl, hdead⟩ := split_of_not_head hhead hsplit
      refine Or.inr fun a hlead => ?_
      have ha := hlead.dead hb
      have hnot : a ∉ _ ++ skipped :=
        fun hm => hbefore a hm ha ((leads_unreachable_iff ha).mpr hlead)
      constructor
      · refine Classical.byContradiction fun hnone =>
          hnot (List.mem_append_left _ (hheads.mpr ⟨ha, fun p hp => ?_⟩))
        exact hnone ⟨p, hp⟩
      · rw [hdead] at ha hsorted
        rcases List.mem_append.mp ha with ha | ha
        · exact absurd (List.mem_append_right _ ha) hnot
        · rcases List.mem_cons.mp ha with rfl | ha
          · exact Nat.le_refl _
          · exact Nat.le_of_lt
              ((List.pairwise_cons.mp (List.pairwise_append.mp hsorted).2.1).1 a ha)
  · rintro (hhead | hfirst)
    · -- Nothing leads to a head but itself, and it is listed once.
      obtain ⟨before, after, hsplit⟩ := List.append_of_mem (hheads.mpr ⟨hb, hhead⟩)
      refine ⟨before, after ++ g.reachability.unreachable,
        by rw [hsplit, List.append_assoc, List.cons_append], fun a ha hdead hlead => ?_⟩
      rcases Relation.ReflTransGen.cases_tail ((leads_unreachable_iff hdead).mp hlead)
        with rfl | ⟨p, _, hedge⟩
      · have hfilter := hnodup.filter (g.isDeadHead g.reachability)
        rw [hsplit] at hfilter
        exact (List.nodup_append.mp hfilter).2.2 b ha b List.mem_cons_self rfl
      · exact hhead p hedge
    · obtain ⟨skipped, after, hsplit⟩ := List.append_of_mem hb
      refine ⟨_ ++ skipped, after, by rw [List.append_assoc, ← hsplit], fun a ha hdead hlead => ?_⟩
      obtain ⟨⟨p, hp⟩, hle⟩ := hfirst a ((leads_unreachable_iff hdead).mp hlead)
      rcases List.mem_append.mp ha with ha | ha
      · exact (hheads.mp ha).2 p hp
      · rw [hsplit] at hsorted
        exact Nat.not_lt.mpr hle ((List.pairwise_append.mp hsorted).2.2 a ha b List.mem_cons_self)

/-! ## Dead cycles -/

/-- Where going back along edges never ends, it comes round. -/
theorem exists_onDeadCycle (hb : b ∈ g.reachability.unreachable)
    (h : ∀ a, g.DeadLeads a b → ∃ p, g.DeadEdge p a) : ∃ c, g.DeadLeads c b ∧ g.OnDeadCycle c := by
  refine Classical.byContradiction fun hnone => ?_
  let before (x y : { a // g.DeadLeads a b }) : Prop := Relation.TransGen g.DeadEdge x y
  have hfinite : Finite { a // g.DeadLeads a b } :=
    Finite.of_injective (fun a => (⟨a.1, (mem_unreachable_iff.mp (a.2.dead hb)).1⟩ : Fin g.size))
      fun a a' heq => Subtype.ext (congrArg Fin.val heq)
  have htrans : IsTrans _ before := ⟨fun _ _ _ => Relation.TransGen.trans⟩
  have hirrefl : Std.Irrefl before := ⟨fun a hcycle => hnone ⟨a.1, a.2, hcycle⟩⟩
  obtain ⟨first, _, hfirst⟩ :=
    (Finite.wellFounded_of_trans_of_irrefl before).has_min Set.univ ⟨⟨b, .refl⟩, trivial⟩
  obtain ⟨p, hp⟩ := h first.1 first.2
  exact hfirst ⟨p, first.2.head hp⟩ trivial (.single hp)

section Drafts

variable {types : Subtyping} {body : Block} {d : Draft} (hd : draft types body = .ok d)
include hd

theorem not_deadEdge_exit (b : BlockId) : ¬ d.graph.DeadEdge exit b := by
  rintro ⟨_, _, hedge⟩
  rw [targets_exit_draft hd] at hedge
  exact nomatch hedge

/-- A way among dead blocks goes through a loop header, or to the exit, or down the order of
closing. -/
theorem onward_deadEdges (h : Relation.TransGen d.graph.DeadEdge a b) :
    (∃ s, d.graph.isLoopHeader s = true ∧ Relation.TransGen d.graph.DeadEdge a s ∧
      d.graph.DeadLeads s b) ∨
      b = exit ∨ d.closed.idxOf b < d.closed.idxOf a := by
  induction h with
  | @single b hedge =>
    obtain ⟨block, e, hblock, he, rfl⟩ := exists_edge hedge.2.2
    rcases onward_draft hd hblock he with hexit | ⟨hloop, _⟩ | hlt
    · exact Or.inr (Or.inl hexit)
    · exact Or.inl ⟨_, hloop, .single hedge, .refl⟩
    · exact Or.inr (Or.inr hlt)
  | @tail b c hway hedge ih =>
    obtain ⟨block, e, hblock, he, rfl⟩ := exists_edge hedge.2.2
    rcases onward_draft hd hblock he with hexit | ⟨hloop, _⟩ | hlt
    · exact Or.inr (Or.inl hexit)
    · exact Or.inl ⟨_, hloop, hway.tail hedge, .refl⟩
    · rcases ih with ⟨s, hloop, hto, hfrom⟩ | rfl | hlt'
      · exact Or.inl ⟨s, hloop, hto, hfrom.tail hedge⟩
      · exact absurd hedge (not_deadEdge_exit hd _)
      · exact Or.inr (Or.inr (Nat.lt_trans hlt hlt'))

/-- A dead cycle goes through a loop header. -/
theorem OnDeadCycle.exists_loopHeader (h : d.graph.OnDeadCycle a) :
    ∃ s, d.graph.isLoopHeader s = true ∧ d.graph.OnDeadCycle s ∧ d.graph.DeadLeads s a := by
  rcases onward_deadEdges hd h with ⟨s, hloop, hto, hfrom⟩ | rfl | hlt
  · exact ⟨s, hloop, Relation.TransGen.trans_right hfrom hto, hfrom⟩
  · obtain ⟨_, hedge, _⟩ := Relation.TransGen.head'_iff.mp h
    exact absurd hedge (not_deadEdge_exit hd _)
  · exact absurd hlt (Nat.lt_irrefl _)

end Drafts

/-- A region starts at a dead block that is entered from no dead block, or at the first among all
that lead to it, if each of these is entered from a dead block. In the second case the block is on a
dead cycle, or it was made before a loop header that is on a dead cycle and leads to it. -/
theorem build_deadRegions {types : Subtyping} {body : Block} {g : Graph}
    (hg : build types body = .ok g) (b : BlockId) :
    ((∃ rest, b :: rest ∈ g.deadRegions g.reachability) ↔
      b ∈ g.reachability.unreachable ∧
        ((∀ a, ¬ g.DeadEdge a b) ∨ ∀ a, g.DeadLeads a b → (∃ p, g.DeadEdge p a) ∧ b ≤ a)) ∧
    ∀ rest, b :: rest ∈ g.deadRegions g.reachability →
      (∀ a, ¬ g.DeadEdge a b) ∨ g.OnDeadCycle b ∨
        ∃ s, b < s ∧ g.isLoopHeader s = true ∧ g.OnDeadCycle s ∧ g.DeadLeads s b := by
  obtain ⟨d, hd, rfl⟩ := exists_draft hg
  refine ⟨exists_deadRegion_iff, fun rest hrest => ?_⟩
  obtain ⟨hb, hhead | hfirst⟩ := exists_deadRegion_iff.mp ⟨rest, hrest⟩
  · exact Or.inl hhead
  · obtain ⟨c, hlead, hcycle⟩ := exists_onDeadCycle hb fun a ha => (hfirst a ha).1
    obtain ⟨s, hloop, hcycle, hto⟩ := hcycle.exists_loopHeader hd
    have hsb : d.graph.DeadLeads s b := hto.trans hlead
    rcases Nat.eq_or_lt_of_le (hfirst s hsb).2 with rfl | hlt
    · exact Or.inr (Or.inl hcycle)
    · exact Or.inr (Or.inr ⟨s, hlt, hloop, hcycle, hsb⟩)

/-- Behind a `return`, a labeled statement with a loop in it, and a call after it. -/
def labeledLoop : Block where
  stmts :=
    [.returnStmt none {},
      .labeled "l"
        (.block ⟨[.whileStmt (.name "c" {}) (.expr (.call none "x" [] [] {}) {}) {}], {}⟩) {},
      .expr (.call none "y" [] [] {}) {}]
  span := {}

/-- The block after the labeled statement is a region of its own. It is entered from a dead block,
and no dead block comes after it. -/
theorem exists_labeledLoop :
    ∃ g, build ClassHierarchy.javaLang.subtyping labeledLoop = .ok g ∧
      [2] ∈ g.deadRegions g.reachability ∧
      g.DeadEdge 5 2 ∧ ∀ b, ¬ g.DeadEdge 2 b := by
  have hfacts : (build ClassHierarchy.javaLang.subtyping labeledLoop).toOption.map (fun g =>
      (g.deadRegions g.reachability, g.reachability.unreachable, g.targets 5, g.targets 2)) =
      some ([[2], [3, 4, 5]], [2, 3, 4, 5], [2], [exit]) := by
    decide +kernel
  obtain ⟨g, hg⟩ := Except.failure?_eq_none_iff.mp
    ((failure?_build ClassHierarchy.javaLang.subtyping labeledLoop).trans rfl)
  rw [hg] at hfacts
  obtain ⟨hregions, hdead, hfive, htwo⟩ : _ ∧ _ ∧ _ ∧ _ := by
    simpa only [Prod.mk.injEq] using Option.some.inj hfacts
  refine ⟨g, hg, ?_⟩
  unfold DeadEdge
  rw [hregions, hdead, hfive, htwo]
  refine ⟨by decide, by decide, ?_⟩
  rintro b ⟨_, hb, hexit⟩
  rw [List.mem_singleton.mp hexit] at hb
  exact absurd hb (by decide)

/-- A region need not start at a head or on a cycle. -/
theorem build_deadRegions_offCycle :
    ¬ ∀ (types : Subtyping) (body : Block) (g : Graph), build types body = .ok g →
      ∀ b rest, b :: rest ∈ g.deadRegions g.reachability → (∀ a, ¬ g.DeadEdge a b) ∨
        g.OnDeadCycle b := by
  intro h
  obtain ⟨g, hg, hregion, hinto, honward⟩ := exists_labeledLoop
  rcases h _ _ g hg 2 [] hregion with hhead | hcycle
  · exact hhead 5 hinto
  · obtain ⟨_, hedge, _⟩ := Relation.TransGen.head'_iff.mp hcycle
    exact honward _ hedge

/-- It is the loop inside the labeled statement that leads to the block after it. -/
theorem build_deadRegions_labeledLoop :
    ∃ g, build ClassHierarchy.javaLang.subtyping labeledLoop = .ok g ∧
      [2] ∈ g.deadRegions g.reachability ∧
      ∃ s, 2 < s ∧ g.isLoopHeader s = true ∧ g.OnDeadCycle s ∧ g.DeadLeads s 2 := by
  obtain ⟨g, hg, hregion, hinto, honward⟩ := exists_labeledLoop
  refine ⟨g, hg, hregion, ?_⟩
  rcases (build_deadRegions hg 2).2 [] hregion with hhead | hcycle | hloop
  · exact absurd hinto (hhead 5)
  · obtain ⟨_, hedge, _⟩ := Relation.TransGen.head'_iff.mp hcycle
    exact absurd hedge (honward _)
  · exact hloop

end Graph

end MethodFlow
