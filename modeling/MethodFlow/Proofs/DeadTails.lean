import Mathlib.Algebra.GroupWithZero.Nat
import MethodFlow.Metrics
import MethodFlow.Proofs.Consistency
import MethodFlow.Proofs.Paths
import MethodFlow.Proofs.Pruned
import MethodFlow.Proofs.Unfolding

/-!
# Complexity and dead tails

Of two drafts that correspond, the one without tails has all that control can reach in the other:
the search from the entry visits the same blocks, under their names (`Trimmed.isReachable_iff`), and
these take the same decisions.

Main result: deleting what follows jumps leaves the complexity of a body as it is, if the lists that
a `finally` clause follows are spared (`Graph.build_outsideFinally`). In these lists it may make a
difference: a tail that is never run still tells the clause to go on after the statement
(`Graph.build_everywhere_returnThenCall`).
-/

namespace MethodFlow

/-! ## Corresponding drafts -/

namespace Draft.Trimmed

variable {ρ : Renaming} {astray : Bool} {d d' : Draft}

/-- From a block that both drafts have, edges lead to such blocks. -/
theorem mem_targets_iff (h : Trimmed ρ astray d d') {x : BlockId} (hx : x < d'.fresh)
    (t : BlockId) :
    t ∈ d.graph.targets (ρ.name x) ↔ ∃ t' ∈ d'.graph.targets x, ρ.name t' = t := by
  obtain ⟨b', hb'⟩ := Graph.exists_block? hx
  obtain ⟨b, hb, hm⟩ := h.blocks x b' hb'
  have htargets : d.graph.targets (ρ.name x) = b.successors.map (·.target) := by
    rw [Graph.targets, Graph.edgesFrom, hb]
    rfl
  have htargets' : d'.graph.targets x = b'.successors.map (·.target) := by
    rw [Graph.targets, Graph.edgesFrom, hb']
    rfl
  rw [htargets, htargets']
  constructor
  · intro ht
    obtain ⟨e, he, rfl⟩ := List.mem_map.mp ht
    obtain ⟨e', he', rfl⟩ := List.mem_map.mp ((hm.successors e).mp he)
    exact ⟨e'.target, List.mem_map_of_mem he', rfl⟩
  · rintro ⟨t', ht', rfl⟩
    obtain ⟨e', he', rfl⟩ := List.mem_map.mp ht'
    have he := (hm.successors (e'.rename ρ.name)).mpr (List.mem_map_of_mem he')
    exact List.mem_map.mpr ⟨_, he, rfl⟩

/-- Edges of the shorter drawing stay inside it. -/
theorem target_lt (h : Trimmed ρ astray d d') (hb : d.Bounded) {x t' : BlockId} (hx : x < d'.fresh)
    (ht : t' ∈ d'.graph.targets x) : t' < d'.fresh := by
  have ht := (h.mem_targets_iff hx (ρ.name t')).mpr ⟨t', ht, rfl⟩
  obtain ⟨b, e, hblock, he, hte⟩ := Graph.exists_edge ht
  rw [h.lt_iff t', ← hte]
  exact hb.edges _ b hblock e he

/-- Control reaches the same blocks. -/
theorem isReachable_iff (h : Trimmed ρ astray d d') (hb : d.Bounded) (y : BlockId) :
    d.graph.reachability.isReachable y = true ↔
      ∃ x < d'.fresh, d'.graph.reachability.isReachable x = true ∧ ρ.name x = y := by
  have hentry : Graph.entry < d'.fresh := Nat.lt_of_succ_lt (Graph.two_le_size _)
  constructor
  · -- The search in `d` stays among the blocks that both drafts have.
    intro hy
    refine Graph.isReachable_invariant
      (P := fun y => ∃ x < d'.fresh, d'.graph.reachability.isReachable x = true ∧ ρ.name x = y)
      ⟨Graph.entry, hentry, d'.graph.isReachable_entry, h.entry⟩ ?_ hy
    rintro _ ⟨x, hx, hreach, rfl⟩ t ht
    obtain ⟨t', ht', rfl⟩ := (h.mem_targets_iff hx t).mp ht
    have hlt := h.target_lt hb hx ht'
    exact ⟨t', hlt, Graph.isReachable_target hreach ht' hlt, rfl⟩
  · -- The search in `d'` has to be known to stay below `d'.fresh`, where blocks have edges at all.
    rintro ⟨x, hx, hreach, rfl⟩
    have hboth : x < d'.fresh ∧ d.graph.reachability.isReachable (ρ.name x) = true := by
      refine Graph.isReachable_invariant (P := fun x => x < d'.fresh ∧
        d.graph.reachability.isReachable (ρ.name x) = true) ⟨hentry, ?_⟩ ?_ hreach
      · rw [h.entry]
        exact d.graph.isReachable_entry
      · rintro x ⟨hx, hreach⟩ t' ht'
        have hlt := h.target_lt hb hx ht'
        refine ⟨hlt, Graph.isReachable_target hreach ?_ ((h.lt_iff t').mp hlt)⟩
        exact (h.mem_targets_iff hx _).mpr ⟨t', ht', rfl⟩
    exact hboth.2

end Draft.Trimmed

/-! ## Decisions -/

namespace Graph

theorem decisions_eq_sum (g : Graph) (ids : List BlockId) :
    g.decisions ids = (ids.map fun id => (g.block? id).elim 0 (·.decisions)).sum := by
  unfold decisions
  induction ids with
  | nil => rfl
  | cons id ids ih => rw [List.foldr_cons, List.map_cons, List.sum_cons, ih]

theorem decisions_perm (g : Graph) {ids ids' : List BlockId} (h : ids.Perm ids') :
    g.decisions ids = g.decisions ids' := by
  rw [decisions_eq_sum, decisions_eq_sum]
  exact (h.map _).sum_nat

end Graph

theorem BasicBlock.Mirrors.decisions_eq {name : BlockId → BlockId} {b b' : BasicBlock}
    (h : b.Mirrors name b') :
    b.decisions = b'.decisions := by
  rw [BasicBlock.decisions, BasicBlock.decisions, h.decisions, h.elements]

/-- Drawings that agree up to dead tails have one complexity. -/
theorem Draft.Trimmed.complexity_eq {ρ : Renaming} {astray : Bool} {d d' : Draft}
    (h : Trimmed ρ astray d d') (hb : d.Bounded) : d.graph.complexity = d'.graph.complexity := by
  -- Names need not keep the order of blocks, but the sum of their decisions does not depend on it.
  have hperm : (d.graph.ids.filter d.graph.reachability.isReachable).Perm
      ((d'.graph.ids.filter d'.graph.reachability.isReachable).map ρ.name) := by
    have hnodup' : ((d'.graph.ids.filter d'.graph.reachability.isReachable).map ρ.name).Nodup :=
      List.Pairwise.map ρ.name (fun x y hne he => hne (ρ.inj x y he)) (List.nodup_range.filter _)
    refine (List.perm_ext_iff_of_nodup (List.nodup_range.filter _) hnodup').mpr fun y => ?_
    rw [List.mem_filter, h.isReachable_iff hb y, List.mem_map]
    constructor
    · rintro ⟨_, x, hx, hreach, rfl⟩
      exact ⟨x, List.mem_filter.mpr ⟨List.mem_range.mpr hx, hreach⟩, rfl⟩
    · rintro ⟨x, hmem, rfl⟩
      obtain ⟨hx, hreach⟩ := List.mem_filter.mp hmem
      have hx : x < d'.fresh := List.mem_range.mp hx
      exact ⟨List.mem_range.mpr ((h.lt_iff x).mp hx), x, hx, hreach, rfl⟩
  have hsame : ∀ ids : List BlockId, (∀ x ∈ ids, x < d'.fresh) →
      d.graph.decisions (ids.map ρ.name) = d'.graph.decisions ids := by
    intro ids hids
    rw [Graph.decisions_eq_sum, Graph.decisions_eq_sum, List.map_map]
    congr 1
    refine List.map_congr_left fun x hx => ?_
    obtain ⟨b', hb'⟩ := Graph.exists_block? (hids x hx)
    obtain ⟨b, hblock, hm⟩ := h.blocks x b' hb'
    rw [Function.comp_apply, hblock, hb']
    exact hm.decisions_eq
  unfold Graph.complexity Graph.complexityWithin
  rw [Graph.decisions_perm _ hperm, hsame]
  exact fun x hx => List.mem_range.mp (List.mem_filter.mp hx).1

/-! ## Bodies -/

theorem Draft.Trimmed.refl (d : Draft) : Trimmed .same false d d where
  entry := rfl
  shift _ := rfl
  closed _ := Iff.rfl
  resumptions x e := ⟨fun he => ⟨e, he, rfl⟩, fun ⟨_, he, hr⟩ => hr ▸ he⟩
  blocks x b hb := by
    have hsame : b.successors.map (·.rename Renaming.same.name) = b.successors := List.map_id _
    refine ⟨b, hb, rfl, fun e => ?_, rfl⟩
    rw [hsame]
  along _ := (congrFun Option.map_id d.current).symm
  idle := nofun
  strays := nofun

namespace Graph

variable {types : Subtyping} {body : Block}

/-- A body and its root have the same complexity. -/
theorem complexity_toTheRoot {d d' : Draft} (h : draft types body = .ok d)
    (h' : draft types (body.prune .toTheRoot false) = .ok d') :
      d.graph.complexity = d'.graph.complexity := by
  have hbounded := (draft_settled h).1.bounded (Draft.steady_begun _) (Draft.bounded_begun _)
  obtain ⟨d₁, h₁, h⟩ := Except.of_bind_ok h
  obtain ⟨d₁', h₁', h'⟩ := Except.of_bind_ok h'
  cases h
  cases h'
  have hd := Draft.steady_begun body.span
  have hfit := Scope.fits_empty types (.begun body.span)
  have hs :
      Draft.Sited false .same false { types } { types } (.begun body.span) (.begun body.span) :=
    ⟨.refl _, rfl, hd, Draft.bounded_begun _, hfit, fun _ _ hm => nomatch hm⟩
  obtain ⟨ρ, _, ht⟩ := Stmt.trims_all (fun s _ => s.trims) hs h₁ h₁'
  exact (ht.fallInto ρ.exit).complexity_eq hbounded

/-- Whatever is deleted, a body that can be built still can. -/
theorem exists_draft_prune {d : Draft} (h : draft types body = .ok d) (p : Pruning) :
    ∃ d', draft types (body.prune p false) = .ok d' := by
  have hscope : Stmt.scopeErrorIn? body.stmts [] = none := by
    rw [← failure?_draft types body, h]
    rfl
  refine Except.failure?_eq_none_iff.mp ?_
  rw [failure?_draft]
  exact Block.scopeErrorIn?_prune p false hscope

/-- A jump ends its list at the root too, so a body from which tails are missing has the same
root. -/
theorem complexity_prune {p : Pruning} (hp : ∀ s, p.ends s = true → s.breaksOff = true)
    (hspares : p.sparesFinally = true) {d d' : Draft} (h : draft types body = .ok d)
    (h' : draft types (body.prune p false) = .ok d') :
      d'.graph.complexity = d.graph.complexity := by
  obtain ⟨root, hroot⟩ := exists_draft_prune h .toTheRoot
  have hroot' : draft types ((body.prune p false).prune .toTheRoot false) = .ok root := by
    rw [Block.prune_prune hp hspares]
    exact hroot
  rw [complexity_toTheRoot h hroot, complexity_toTheRoot h' hroot']

/-- Dead tails can be deleted anywhere, and a body that builds still does. Where no `finally` clause
follows they do not count: without them the complexity is the same. -/
theorem build_outsideFinally {g : Graph} (hg : build types body = .ok g) :
    (∃ g', build types (body.prune .everywhere false) = .ok g') ∧
      ∃ g', build types (body.prune .outsideFinally false) = .ok g' ∧
        g'.complexity = g.complexity := by
  obtain ⟨d, hd, rfl⟩ := exists_draft hg
  obtain ⟨d₁, hd₁⟩ := exists_draft_prune hd .everywhere
  obtain ⟨d₂, hd₂⟩ := exists_draft_prune hd .outsideFinally
  refine ⟨⟨d₁.graph, ?_⟩, d₂.graph, ?_, ?_⟩
  · rw [build_eq, hd₁]
    rfl
  · rw [build_eq, hd₂]
    rfl
  · exact complexity_prune (fun _ => Stmt.breaksOff_of_leavesList) rfl hd hd₂

/-- A loop with a `continue` before a decision, and a `return` before a call that a `finally` clause
follows. -/
def tailsInLoop : Block where
  stmts :=
    [.whileStmt (.name "c" {})
      (.block ⟨[
        .ifStmt (.name "d" {})
          (.block ⟨[.continueStmt none {}, .ifStmt (.name "e" {}) (.empty {}) none {}], {}⟩)
            none {},
        .tryStmt [] ⟨[.returnStmt none {}, .expr (.call none "x" [] [] {}) {}], {}⟩ []
          (some ⟨[.expr (.call none "close" [] [] {}) {}], {}⟩) {}], {}⟩) {}]
  span := {}

/-- The tail in the loop is cut, the one that a `finally` clause follows is kept. -/
theorem build_outsideFinally_tailsInLoop :
    tailsInLoop.prune .outsideFinally false = ⟨[.whileStmt (.name "c" {})
      (.block ⟨[
        .ifStmt (.name "d" {}) (.block ⟨[.continueStmt none {}], {}⟩) none {},
        .tryStmt [] ⟨[.returnStmt none {}, .expr (.call none "x" [] [] {}) {}], {}⟩ []
          (some ⟨[.expr (.call none "close" [] [] {}) {}], {}⟩) {}], {}⟩) {}], {}⟩ ∧
      ∃ g', build ClassHierarchy.javaLang.subtyping (tailsInLoop.prune .outsideFinally false) =
        .ok g' ∧
        g'.complexity = 3 := by
  refine ⟨rfl, ?_⟩
  have hthree : (build ClassHierarchy.javaLang.subtyping tailsInLoop).toOption.map (·.complexity) =
      some 3 := by
    decide +kernel
  obtain ⟨g, hg⟩ := Except.failure?_eq_none_iff.mp
    ((failure?_build ClassHierarchy.javaLang.subtyping tailsInLoop).trans rfl)
  obtain ⟨_, g', hg', hsame⟩ := build_outsideFinally hg
  rw [hg] at hthree
  exact ⟨g', hg', hsame.trans (Option.some.inj hthree)⟩

/-- A `return` before a call, with a `finally` clause and a decision after them. -/
def returnThenCall : Block where
  stmts :=
    [.tryStmt [] ⟨[.returnStmt none {}, .expr (.call none "x" [] [] {}) {}], {}⟩ []
      (some ⟨[.expr (.call none "close" [] [] {}) {}], {}⟩) {},
     .ifStmt (.name "c" {}) (.expr (.call none "y" [] [] {}) {}) none {}]
  span := {}

/-- The call is never made. But since it is there, the clause goes on to the decision after the
statement. -/
theorem build_everywhere_returnThenCall :
    ¬ ∀ (types : Subtyping) (body : Block) (g : Graph), build types body = .ok g →
      ∃ g', build types (body.prune .everywhere false) = .ok g' ∧ g'.complexity = g.complexity := by
  intro hall
  have htwo : (build ClassHierarchy.javaLang.subtyping returnThenCall).toOption.map (·.complexity) =
      some 2 := by
    decide +kernel
  have hone :
    (build ClassHierarchy.javaLang.subtyping (returnThenCall.prune .everywhere false)).toOption.map
      (·.complexity) = some 1 := by
    decide +kernel
  obtain ⟨g, hg⟩ := Except.failure?_eq_none_iff.mp
    ((failure?_build ClassHierarchy.javaLang.subtyping returnThenCall).trans rfl)
  obtain ⟨g', hg', hsame⟩ := hall _ returnThenCall g hg
  rw [hg] at htwo
  rw [hg'] at hone
  have htwo : g.complexity = 2 := Option.some.inj htwo
  have hone : g'.complexity = 1 := Option.some.inj hone
  omega

end Graph

end MethodFlow
