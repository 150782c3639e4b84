import MethodFlow.Proofs.Tracing

/-!
# Where jumps leave to

A `break`, `continue` or `return` is described here by what stands around it in the text, without a
scope: going outward over the frames up to the one that the jump is for, which `try` statements does
it leave, and where does it go in the end (`Site.departure?`)? The routes by which jumps are drawn
agree with that. The first edge leads to the innermost `finally` clause that is crossed, and each
clause goes on to the next one (`Departure.next`).

Main results: `Site.exists_departure`, `Departure.mem_resumptions`.
-/

namespace MethodFlow

/-! ## The frames that a jump crosses -/

namespace Frame

/-- Where a `break` goes that is for this frame: one with its label, or without a label a loop or a
`switch`. -/
def breakTo? : Option String → Frame → Option BlockId
  | some label, .target labels _ breakTo => if labels.contains label then some breakTo else none
  | none, .target _ .labeled _ => none
  | none, .target _ _ breakTo => some breakTo
  | _, _ => none

/-- Where a `continue` goes that is for this frame, a loop. -/
def continueTo? : Option String → Frame → Option BlockId
  | some label, .target labels (.loop next) _ => if labels.contains label then some next else none
  | none, .target _ (.loop next) _ => some next
  | _, _ => none

/-- The `try` statements inside the innermost frame that is a goal, innermost first, and where the
goal is. -/
def upTo (goal? : Frame → Option BlockId) : List Frame → Option (List Guard × BlockId)
  | [] => none
  | frame :: frames =>
    match goal? frame with
    | some goal => some ([], goal)
    | none => (upTo goal? frames).map fun p => (frame.guard?.toList ++ p.1, p.2)

end Frame

/-- How a jump leaves: the `try` statements that it crosses, innermost first, and its last edge. -/
structure Departure where
  guards : List Guard
  final : Edge

namespace Departure

/-- The edge by which control goes on if it has still to cross some `try` statements: to the first
`finally` clause among them, or else by the last edge. -/
def next (guards : List Guard) (final : Edge) : Edge :=
  (guards.findSome? (·.finalBlock?)).elim final .sequential

theorem next_cons_none {g : Guard} (h : g.finalBlock? = none) (guards : List Guard) (final : Edge) :
    next (g :: guards) final = next guards final := by
  rw [next, List.findSome?_cons, h]
  rfl

/-- A `finally` clause on the way is entered before anything further out. -/
theorem next_cons_some {g : Guard} {entry : BlockId} (h : g.finalBlock? = some entry)
    (guards : List Guard) (final : Edge) : next (g :: guards) final = .sequential entry := by
  rw [next, List.findSome?_cons, h]
  rfl

end Departure

/-- Whether a statement is a jump. An exception is none. -/
def Stmt.isJump : Stmt → Bool
  | .breakStmt _ _ | .continueStmt _ _ | .returnStmt _ _ => true
  | _ => false

/-- How the jump at a site leaves, if there is one. -/
def Site.departure? (s : Site) : Option Departure :=
  match s.stmt with
  | .breakStmt label _ =>
    (Frame.upTo (Frame.breakTo? label) s.frames).map fun p => ⟨p.1, .sequential p.2⟩
  | .continueStmt label _ =>
    (Frame.upTo (Frame.continueTo? label) s.frames).map fun p => ⟨p.1, .loopBack p.2⟩
  | .returnStmt _ _ => some ⟨s.guards, .sequential Graph.exit⟩
  | _ => none

theorem Except.eq_ok_of_toOption {ε α : Type} {x : Except ε α} {a : α} (h : x.toOption = some a) :
    x = .ok a := by
  cases x with
  | error => exact nomatch h
  | ok => exact congrArg Except.ok (Option.some.inj h)

/-! ## Targets of the scope and goals among the frames -/

namespace Frame

variable {types : Subtyping} {fs : List Frame}

theorem depth_le_scope (types : Subtyping) (fs : List Frame) :
    ∀ t ∈ (scope types fs).targets, t.depth ≤ (scope types fs).handlers.length := by
  induction fs with
  | nil => exact nofun
  | cons frame fs ih =>
    intro t ht
    cases frame with
    | target labels kind breakTo =>
      rcases List.mem_cons.mp ht with rfl | ht
      · exact Nat.le_refl _
      · exact ih t ht
    | tryBlock guard | catchClause guard => exact Nat.le_succ_of_le (ih t ht)

theorem mem_of_findSome? {goalOf : Target → Option BlockId} {ts : List Target} {t : Target}
    {goal : BlockId} (h : ts.findSome? (fun t => (goalOf t).map (t, ·)) = some (t, goal)) :
      t ∈ ts := by
  obtain ⟨t', ht', h⟩ := List.exists_of_findSome?_eq_some h
  obtain ⟨_, _, h⟩ := Option.map_eq_some_iff.mp h
  exact (Prod.mk.inj h).1 ▸ ht'

theorem findSome?_of_find? {goalOf : Target → Option BlockId} {p : Target → Bool} {ts : List Target}
    {t : Target} {goal : BlockId} (h : ts.find? p = some t) (ht : goalOf t = some goal)
    (hnone : ∀ t, p t = false → goalOf t = none) :
    ts.findSome? (fun t => (goalOf t).map (t, ·)) = some (t, goal) := by
  induction ts with
  | nil => exact nomatch h
  | cons t' ts ih =>
    rw [List.findSome?_cons]
    cases hp : p t' with
    | true =>
      rw [List.find?_cons_of_pos hp] at h
      rw [Option.some.inj h, ht]
      rfl
    | false =>
      rw [List.find?_cons_of_neg (by simp [hp])] at h
      rw [hnone t' hp]
      exact ih h

/-- The first target with a goal is that of the first frame with one, and the handlers that a jump
there crosses belong to the `try` statements before this frame. -/
theorem upTo_of_findSome? {goal? : Frame → Option BlockId} (goalOf : Target → Option BlockId)
    (htarget : ∀ labels kind breakTo n, goal? (.target labels kind breakTo) =
      goalOf ⟨labels, kind, breakTo, n⟩)
    (hguard : ∀ frame g, frame.guard? = some g → goal? frame = none) {t : Target} {goal : BlockId}
    (h : (scope types fs).targets.findSome? (fun t => (goalOf t).map (t, ·)) = some (t, goal)) :
    ∃ guards, upTo goal? fs = some (guards, goal) ∧
      ((scope types fs).crossed t).map (·.finalizer) = guards.map (·.finalBlock?) := by
  induction fs with
  | nil => exact nomatch h
  | cons frame fs ih =>
    cases frame with
    | target labels kind breakTo =>
      have hscope : (scope types (.target labels kind breakTo :: fs)).targets =
        ⟨labels, kind, breakTo, (scope types fs).handlers.length⟩ :: (scope types fs).targets := rfl
      rw [hscope, List.findSome?_cons] at h
      have hgoal := htarget labels kind breakTo (scope types fs).handlers.length
      rw [upTo]
      -- The innermost frame is the goal, or the search goes on outside it.
      cases hg : goalOf ⟨labels, kind, breakTo, (scope types fs).handlers.length⟩ with
      | some goal' =>
        rw [hg] at h hgoal
        obtain ⟨rfl, rfl⟩ := Prod.mk.inj (Option.some.inj h)
        rw [hgoal]
        exact ⟨[], rfl, congrArg (List.map _) (Scope.crossed_self ..)⟩
      | none =>
        rw [hg] at h hgoal
        obtain ⟨guards, hup, hcrossed⟩ := ih h
        rw [hgoal, hup]
        exact ⟨guards, rfl, hcrossed⟩
    -- Frames of `try` statements are no goals, but their `finally` clauses are crossed.
    | tryBlock guard =>
      obtain ⟨guards, hup, hcrossed⟩ := ih h
      rw [upTo, hguard _ guard rfl, hup]
      refine ⟨guard :: guards, rfl, ?_⟩
      have hc :=
        Scope.crossed_guarded (depth_le_scope types fs t (mem_of_findSome? h)) guard.handler
      exact (congrArg (List.map _) hc).trans (congrArg (guard.finalBlock? :: ·) hcrossed)
    | catchClause guard =>
      obtain ⟨guards, hup, hcrossed⟩ := ih h
      rw [upTo, hguard _ guard rfl, hup]
      refine ⟨guard :: guards, rfl, ?_⟩
      have hc :=
        Scope.crossed_guarded (depth_le_scope types fs t (mem_of_findSome? h))
          ⟨[], guard.finalBlock?⟩
      exact (congrArg (List.map _) hc).trans (congrArg (guard.finalBlock? :: ·) hcrossed)

/-- A `break` finds one goal by its scope and by its frames, past the same `finally` clauses. -/
theorem upTo_break {label : Option String} {line : UInt32} {t : Target}
    (h : (scope types fs).breakTarget label line = .ok t) :
    ∃ guards, upTo (breakTo? label) fs = some (guards, t.breakTo) ∧
      ((scope types fs).crossed t).map (·.finalizer) = guards.map (·.finalBlock?) := by
  have hguard : ∀ frame g, frame.guard? = some g → breakTo? label frame = none := by
    intro frame g hg
    cases frame with
    | target => cases hg
    | _ => cases label <;> rfl
  cases label with
  | none =>
    simp only [Scope.breakTarget] at h
    split at h
    · rename_i hfind
      cases h
      refine upTo_of_findSome? (fun t => if t.isBreakable then some t.breakTo else none)
        (fun labels kind _ _ => by cases kind <;> rfl) hguard
        (findSome?_of_find? hfind ?_ fun t ht => ?_)
      · exact if_pos (List.find?_some hfind)
      · exact if_neg (Bool.eq_false_iff.mp ht)
    · cases h
  | some label =>
    simp only [Scope.breakTarget, Scope.labelTarget] at h
    split at h
    · rename_i hfind
      cases h
      refine upTo_of_findSome? (fun t => if t.hasLabel label then some t.breakTo else none)
        (fun labels kind _ _ => rfl) hguard (findSome?_of_find? hfind ?_ fun t ht => ?_)
      · exact if_pos (List.find?_some hfind)
      · exact if_neg (Bool.eq_false_iff.mp ht)
    · cases h

theorem upTo_continue {label : Option String} {line : UInt32} {t : Target} {continueTo : BlockId}
    (h : (scope types fs).continueTarget label line = .ok (t, continueTo)) :
    ∃ guards, upTo (continueTo? label) fs = some (guards, continueTo) ∧
      ((scope types fs).crossed t).map (·.finalizer) = guards.map (·.finalBlock?) := by
  have hguard : ∀ frame g, frame.guard? = some g → Frame.continueTo? label frame = none := by
    intro frame g hg
    cases frame with
    | target => cases hg
    | _ => cases label <;> rfl
  cases label with
  | none =>
    simp only [Scope.continueTarget] at h
    split at h
    · rename_i hfind
      cases h
      exact upTo_of_findSome? Target.continueTo? (fun labels kind _ _ => by cases kind <;> rfl)
        hguard hfind
    · cases h
  | some label =>
    simp only [Scope.continueTarget, Scope.labelTarget] at h
    -- The label decides the target first; only then is it asked for its next round.
    obtain ⟨t', ht', h⟩ := Except.of_bind_ok h
    split at ht'
    · rename_i hfind
      cases ht'
      split at h
      · rename_i hc
        cases h
        refine upTo_of_findSome? (fun t => if t.hasLabel label then t.continueTo? else none)
          (fun labels kind _ _ => by
            cases kind <;> simp [Frame.continueTo?, Target.hasLabel, Target.continueTo?])
          hguard (findSome?_of_find? hfind ?_ fun t ht => ?_)
        · exact (if_pos (List.find?_some hfind)).trans hc
        · exact if_neg (Bool.eq_false_iff.mp ht)
      · cases h
    · cases ht'

theorem upTo_subset {goal? : Frame → Option BlockId} {guards : List Guard} {goal : BlockId}
    (h : upTo goal? fs = some (guards, goal)) : guards ⊆ fs.filterMap guard? := by
  induction fs generalizing guards with
  | nil => exact nomatch h
  | cons frame fs ih =>
    rw [upTo] at h
    split at h
    · cases h
      exact List.nil_subset _
    · obtain ⟨⟨guards', _⟩, hup, hp⟩ := Option.map_eq_some_iff.mp h
      obtain ⟨rfl, rfl⟩ := Prod.mk.inj hp
      rw [List.filterMap_cons]
      intro g hg
      cases hframe : frame.guard? with
      | none =>
        rw [hframe] at hg
        exact ih hup hg
      | some g' =>
        rw [hframe] at hg
        rcases List.mem_cons.mp hg with rfl | hg
        · exact List.mem_cons_self
        · exact List.mem_cons_of_mem _ (ih hup hg)

/-- Every handler of the scope is that of a `try` statement among the frames, and the other way
round. -/
theorem finalizers_scope (types : Subtyping) (fs : List Frame) :
    (scope types fs).handlers.map (·.finalizer) = (fs.filterMap guard?).map (·.finalBlock?) := by
  induction fs with
  | nil => rfl
  | cons frame fs ih =>
    cases frame with
    | target labels kind breakTo => exact ih
    | tryBlock guard | catchClause guard => exact congrArg (guard.finalBlock? :: ·) ih

end Frame

/-! ## Routes -/

namespace Departure

variable {hs : List Handler} {guards : List Guard} {final : Edge}

/-- A jump goes to the first `finally` clause that it crosses. -/
theorem edge_through (h : hs.map (·.finalizer) = guards.map (·.finalBlock?)) :
    (JumpRoute.through final hs).edge = next guards final := by
  induction hs generalizing guards with
  | nil =>
    obtain rfl : guards = [] := List.map_eq_nil_iff.mp h.symm
    rfl
  | cons handler hs ih =>
    cases guards with
    | nil => exact nomatch h
    | cons g guards =>
      obtain ⟨hf, h⟩ := List.cons.inj h
      cases hg : g.finalBlock? with
      | none => rw [JumpRoute.through_cons_none (hf.trans hg), next_cons_none hg, ih h]
      | some entry => rw [JumpRoute.through_cons_some (hf.trans hg), next_cons_some hg]

/-- A `finally` clause that a jump crosses goes on to the next one, and there is nothing else that a
jump registers. -/
theorem mem_resumptions (h : hs.map (·.finalizer) = guards.map (·.finalBlock?))
    {p : BlockId × Edge} :
    p ∈ (JumpRoute.through final hs).resumptions ↔
      ∃ pre g post, guards = pre ++ g :: post ∧ g.finalBlock? = some p.1 ∧
        p.2 = next post final := by
  induction hs generalizing guards with
  | nil =>
    obtain rfl : guards = [] := List.map_eq_nil_iff.mp h.symm
    refine ⟨nofun, ?_⟩
    rintro ⟨pre, g, post, hsplit, _⟩
    exact nomatch (List.append_eq_nil_iff.mp hsplit.symm).2
  | cons handler hs ih =>
    cases guards with
    | nil => exact nomatch h
    | cons g guards =>
      obtain ⟨hf, h⟩ := List.cons.inj h
      -- The split is at the first statement or behind it.
      have hsplits : (∃ pre g' post, g :: guards = pre ++ g' :: post ∧ g'.finalBlock? = some p.1 ∧
          p.2 = next post final) ↔ (g.finalBlock? = some p.1 ∧ p.2 = next guards final) ∨
          ∃ pre g' post, guards = pre ++ g' :: post ∧ g'.finalBlock? = some p.1 ∧
            p.2 = next post final := by
        constructor
        · rintro ⟨pre, g', post, hsplit, hp⟩
          cases pre with
          | nil =>
            obtain ⟨rfl, rfl⟩ := List.cons.inj hsplit
            exact Or.inl hp
          | cons _ pre =>
            obtain ⟨_, rfl⟩ := List.cons.inj hsplit
            exact Or.inr ⟨pre, g', post, rfl, hp⟩
        · rintro (hp | ⟨pre, g', post, rfl, hp⟩)
          · exact ⟨[], g, guards, rfl, hp⟩
          · exact ⟨g :: pre, g', post, rfl, hp⟩
      rw [hsplits, ← ih h]
      cases hg : g.finalBlock? with
      | none =>
        rw [JumpRoute.through_cons_none (hf.trans hg)]
        exact ⟨Or.inr, fun hp => hp.resolve_left fun hp => nomatch hp.1⟩
      | some entry =>
        rw [JumpRoute.through_cons_some (hf.trans hg), edge_through h, List.mem_cons]
        refine or_congr ⟨?_, ?_⟩ Iff.rfl
        · rintro rfl
          exact ⟨rfl, rfl⟩
        · rintro ⟨he, hp⟩
          exact Prod.ext (Option.some.inj he).symm hp

/-- The route goes through the `finally` clauses that the jump crosses: first to the innermost one,
and from each to the next. -/
structure Routes (dep : Departure) (route : JumpRoute) : Prop where
  edge : route.edge = next dep.guards dep.final
  resumptions : ∀ p, p ∈ route.resumptions ↔
    ∃ pre g post, dep.guards = pre ++ g :: post ∧ g.finalBlock? = some p.1 ∧
      p.2 = next post dep.final

/-- A route through handlers departs through the guards with the same `finally` clauses. -/
theorem routes_through (h : hs.map (·.finalizer) = guards.map (·.finalBlock?)) :
    Routes ⟨guards, final⟩ (.through final hs) :=
  ⟨edge_through h, fun _ => mem_resumptions h⟩

end Departure

/-- A jump with a route departs, and its route goes through the `finally` clauses that it
crosses. -/
theorem Site.exists_departure {types : Subtyping} {s : Site} {route : JumpRoute}
    (h : s.route? types = some route) :
    ∃ dep, s.departure? = some dep ∧ dep.guards ⊆ s.guards ∧ dep.Routes route := by
  obtain ⟨stmt, fs, labels, d⟩ := s
  cases stmt with
  | breakStmt label span =>
    obtain ⟨t, ht, rfl⟩ := Option.map_eq_some_iff.mp h
    obtain ⟨guards, hup, hcrossed⟩ := Frame.upTo_break (Except.eq_ok_of_toOption ht)
    exact ⟨_, Option.map_eq_some_iff.mpr ⟨_, hup, rfl⟩, Frame.upTo_subset hup,
      Departure.routes_through hcrossed⟩
  | continueStmt label span =>
    obtain ⟨⟨t, continueTo⟩, ht, rfl⟩ := Option.map_eq_some_iff.mp h
    obtain ⟨guards, hup, hcrossed⟩ := Frame.upTo_continue (Except.eq_ok_of_toOption ht)
    exact ⟨_, Option.map_eq_some_iff.mpr ⟨_, hup, rfl⟩, Frame.upTo_subset hup,
      Departure.routes_through hcrossed⟩
  | returnStmt arg span =>
    cases h
    exact ⟨_, rfl, List.Subset.refl _, Departure.routes_through (Frame.finalizers_scope types fs)⟩
  | _ => exact nomatch h

end MethodFlow
