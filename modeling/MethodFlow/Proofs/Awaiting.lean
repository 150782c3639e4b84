import MethodFlow.Proofs.Induction
import MethodFlow.Proofs.Segments

/-!
# Something always waits for a `finally` clause

Code that a `finally` clause protects either comes to its end in an open block, or it ends by
leaving the protected region. In both cases the clause gets a place to go on at: every jump and
exception out of the region registers one, since the clause is the innermost handler, and every
other statement opens a block at its end.

Main results: `Stmt.hasResumption_all` for the statements of a region, and
`hasResumption_leaveRegion`.
-/

namespace MethodFlow

/-- Every target counts only handlers of the scope. -/
def Scope.Level (scope : Scope) : Prop := ∀ target ∈ scope.targets,
    target.depth ≤ scope.handlers.length

namespace Scope.Level

variable {scope : Scope}

theorem inside (h : scope.Level) (labels : List String) (kind : TargetKind) (after : BlockId) :
    (scope.inside labels kind after).Level := by
  intro target ht
  rcases List.mem_cons.mp ht with rfl | ht
  · exact Nat.le_refl _
  · exact h target ht

theorem guarded (h : scope.Level) (handler : Handler) : (scope.guarded handler).Level :=
    fun target ht =>
  Nat.le_succ_of_le (h target ht)

end Scope.Level

namespace Draft

/-- Some way out of the `finally` clause with the given entry is known. -/
def HasResumption (d : Draft) (entry : BlockId) : Prop := ∃ e, (entry, e) ∈ d.resumptions

theorem hasResumption_resumeAt {d : Draft} {entry : BlockId} {e : Edge}
    {resumptions : List (BlockId × Edge)} (h : (entry, e) ∈ resumptions) :
    (d.resumeAt resumptions).HasResumption entry :=
  ⟨e, mem_appendAllNew.mpr (Or.inr h)⟩

/-- Code that comes to its end registers where to go on after the statement. -/
theorem hasResumption_leaveRegion {d : Draft} {entry after : BlockId}
    (h : d.current = none → d.HasResumption entry) :
    (d.leaveRegion (some entry) after).HasResumption entry := by
  unfold HasResumption leaveRegion
  simp only [resumptions_resolveDangling]
  cases hc : d.current with
  | none => exact h hc
  | some id => exact hasResumption_resumeAt List.mem_cons_self

/-- A jump through a `finally` clause leaves a resumption for that clause. -/
theorem hasResumption_jumpVia {d : Draft} {entry : BlockId} (t : Terminator) {final : Edge}
    {outer : List Handler} {route : JumpRoute}
    (hroute : route = .through final (⟨[], some entry⟩ :: outer)) (span : Span) :
    (d.jumpVia t route span).HasResumption entry := by
  subst hroute
  exact hasResumption_resumeAt List.mem_cons_self

end Draft

namespace Scope

variable {scope : Scope}

theorem breakRoute_protected (hscope : scope.Level) {target : Target} (ht : target ∈ scope.targets)
    (handler : Handler) :
    (scope.guarded handler).breakRoute target =
      .through (.sequential target.breakTo) (handler :: scope.crossed target) :=
  congrArg _ (crossed_guarded (hscope target ht) handler)

theorem continueRoute_protected (hscope : scope.Level) {target : Target}
    (ht : target ∈ scope.targets) (continueTo : BlockId) (handler : Handler) :
    (scope.guarded handler).continueRoute target continueTo =
      .through (.loopBack continueTo) (handler :: scope.crossed target) :=
  congrArg _ (crossed_guarded (hscope target ht) handler)

/-- An exception that no clause receives is held up by the `finally` clause, and goes on from
there. -/
theorem exists_resumption_throwRoute (scope : Scope) (entry : BlockId) (thrown : TypeName) :
    ∃ e, (entry, e) ∈ ((scope.guarded ⟨[], some entry⟩).throwRoute thrown).resumptions := by
  have hgoal : (ThrowRoute.through scope.types true scope.handlers [thrown] []).targets ≠ [] :=
    ThrowRoute.targets_ne_nil scope.handlers (Or.inl (List.cons_ne_nil _ _))
  obtain ⟨target, htarget⟩ := List.exists_mem_of_ne_nil _ hgoal
  refine ⟨.exceptional target, ?_⟩
  exact List.mem_append_right _ (List.mem_map.mpr ⟨target, htarget, rfl⟩)

end Scope

/-! ## Code that leaves no block open -/

@[simp] theorem Draft.current_raise (d : Draft) (scope : Scope) (declared : List TypeName) :
    (d.raise scope declared).current = d.current :=
  rfl

/-- Drawing an expression leaves a block open. -/
theorem Expr.exists_current_draw (scope : Scope) (e : Expr) (d : Draft) :
    ∃ id, (e.draw scope d).current = some id := by
  induction e using Expr.induct generalizing d with
  | binary op left right span ihl ihr | assign op target value span iht ihv =>
    rw [Expr.draw]
    split <;> simp only [Draft.current_raise, Draft.current_emit, Option.some.injEq, exists_eq']
  | cond test cons alt span iht ihc iha =>
    rw [Expr.draw_cond]
    exact ⟨_, Draft.current_continueAt _ _⟩
  | paren inner span ih =>
    rw [Expr.draw]
    exact ih d
  | _ =>
    simp only [Expr.draw, Draft.current_raise, Draft.current_emit, Option.some.injEq, exists_eq']

section Statements

variable {scope : Scope} {entry : BlockId} {d d₁ : Draft}

/-- The statement, in a region whose `finally` clause begins at `entry`, leaves a block open, does
nothing, or gives the clause a place to go on at. -/
def Stmt.Answers (s : Stmt) : Prop :=
  ∀ {scope : Scope} {entry : BlockId} {labels : List String} {d d₁ : Draft}, scope.Level →
    s.draw (scope.guarded ⟨[], some entry⟩) labels d = .ok d₁ → d₁.current = none →
    d₁ = d ∨ d₁.HasResumption entry

/-- Statements that leave no block open drew nothing or left a resumption for the clause. -/
theorem Stmt.answers_all {stmts : List Stmt} (ih : ∀ s ∈ stmts, s.Answers) (hscope : scope.Level)
    (h : Stmt.drawAll stmts (scope.guarded ⟨[], some entry⟩) d = .ok d₁) (hc : d₁.current = none) :
    d₁ = d ∨ d₁.HasResumption entry := by
  induction stmts generalizing d with
  | nil =>
    rw [Stmt.drawAll] at h
    cases h
    exact Or.inl rfl
  | cons s stmts ihs =>
    rw [Stmt.drawAll] at h
    obtain ⟨d₂, hs, h⟩ := Except.of_bind_ok h
    rcases ihs (fun s hs => ih s (List.mem_cons_of_mem _ hs)) h with rfl | hr
    · exact ih s List.mem_cons_self hscope hs hc
    · exact Or.inr hr

theorem Stmt.answers (s : Stmt) : s.Answers := by
  -- Only jumps, and statements made of others alone, can end without an open block.
  induction s using Stmt.induct with
  | block b ih =>
    intro scope entry labels d d₁ hscope h hc
    cases b
    rw [Stmt.draw] at h
    exact Stmt.answers_all ih hscope h hc
  | synchronized lock body span ih =>
    intro scope entry labels d d₁ hscope h hc
    cases body
    rw [Stmt.draw] at h
    rcases Stmt.answers_all ih hscope h hc with rfl | hr
    · cases (Draft.current_emit ..).symm.trans hc
    · exact Or.inr hr
  | labeled label body span ih =>
    intro scope entry labels d d₁ hscope h hc
    rw [Stmt.draw_labeled] at h
    split at h
    · cases h
    split at h
    · exact ih hscope h hc
    · obtain ⟨_, _, h⟩ := Except.of_bind_ok h
      cases h
      cases (Draft.current_continueAt ..).symm.trans hc
  | breakStmt label span =>
    intro scope entry labels d d₁ hscope h hc
    rw [Stmt.draw] at h
    obtain ⟨target, ht, h⟩ := Except.of_bind_ok h
    cases h
    exact Or.inr (Draft.hasResumption_jumpVia _ (Scope.breakRoute_protected hscope
      (Scope.breakTarget_mem ht) _) span)
  | continueStmt label span =>
    intro scope entry labels d d₁ hscope h hc
    rw [Stmt.draw] at h
    obtain ⟨⟨target, next⟩, ht, h⟩ := Except.of_bind_ok h
    cases h
    exact Or.inr (Draft.hasResumption_jumpVia _ (Scope.continueRoute_protected hscope
      (Scope.continueTarget_mem ht).1 next _) span)
  | returnStmt arg span =>
    intro scope entry labels d d₁ hscope h hc
    rw [Stmt.draw] at h
    cases h
    exact Or.inr (Draft.hasResumption_jumpVia _ rfl span)
  | throwStmt arg span =>
    intro scope entry labels d d₁ hscope h hc
    rw [Stmt.draw] at h
    cases h
    obtain ⟨e, he⟩ := scope.exists_resumption_throwRoute entry (arg.newClass?.getD Throwable.root)
    exact Or.inr (Draft.hasResumption_resumeAt he)
  | assertStmt test message span | empty span =>
    intro scope entry labels d d₁ hscope h hc
    rw [Stmt.draw] at h
    cases h
    exact Or.inl rfl
  | missing span =>
    intro scope entry labels d d₁ hscope h hc
    rw [Stmt.draw] at h
    cases h
  | expr e span =>
    intro scope entry labels d d₁ hscope h hc
    rw [Stmt.draw] at h
    cases h
    obtain ⟨id, hopen⟩ := e.exists_current_draw _ d
    cases hopen.symm.trans hc
  | localVar decl | localClass ident span =>
    intro scope entry labels d d₁ hscope h hc
    rw [Stmt.draw] at h
    cases h
    cases (Draft.current_emit ..).symm.trans hc
  | ifStmt test cons alt span ihc iha =>
    intro scope entry labels d d₁ hscope h hc
    rw [Stmt.draw_if] at h
    obtain ⟨_, _, h⟩ := Except.of_bind_ok h
    obtain ⟨_, _, h⟩ := Except.of_bind_ok h
    cases h
    cases (Draft.current_continueAt ..).symm.trans hc
  | whileStmt test body span ih =>
    intro scope entry labels d d₁ hscope h hc
    rw [Stmt.draw_while] at h
    obtain ⟨_, _, h⟩ := Except.of_bind_ok h
    cases h
    cases (Draft.current_turn ..).symm.trans hc
  | doWhile body test span ih =>
    intro scope entry labels d d₁ hscope h hc
    rw [Stmt.draw_doWhile] at h
    obtain ⟨_, _, h⟩ := Except.of_bind_ok h
    cases h
    cases (Draft.current_start ..).symm.trans hc
  | forStmt init test update body span ihi ih =>
    intro scope entry labels d d₁ hscope h hc
    rw [Stmt.draw_for] at h
    obtain ⟨_, _, h⟩ := Except.of_bind_ok h
    obtain ⟨_, _, h⟩ := Except.of_bind_ok h
    cases h
    cases (Draft.current_turn ..).symm.trans hc
  | forEach var iterable body span ih =>
    intro scope entry labels d d₁ hscope h hc
    rw [Stmt.draw_forEach] at h
    obtain ⟨_, _, h⟩ := Except.of_bind_ok h
    cases h
    cases (Draft.current_turn ..).symm.trans hc
  | switch selector groups span ih =>
    intro scope entry labels d d₁ hscope h hc
    rw [Stmt.draw_switch] at h
    obtain ⟨_, _, h⟩ := Except.of_bind_ok h
    cases h
    cases (Draft.current_continueAt ..).symm.trans hc
  | tryStmt resources block catches finalizer span ihb ihc ihf =>
    intro scope entry labels d d₁ hscope h hc
    obtain ⟨stmts, blockSpan⟩ := block
    rw [Stmt.draw_try] at h
    obtain ⟨_, _, h⟩ := Except.of_bind_ok h
    obtain ⟨_, _, h⟩ := Except.of_bind_ok h
    obtain ⟨_, _, h⟩ := Except.of_bind_ok h
    cases h
    cases (Draft.current_continueAt ..).symm.trans hc

/-- A region that begins in an open block has a place to go on at when it has been left. -/
theorem Stmt.hasResumption_all {stmts : List Stmt} {id : BlockId} (after : BlockId)
    (hscope : scope.Level) (h : Stmt.drawAll stmts (scope.guarded ⟨[], some entry⟩) d = .ok d₁)
    (hopen : d.current = some id) :
    (d₁.leaveRegion (some entry) after).HasResumption entry := by
  refine Draft.hasResumption_leaveRegion fun hc => ?_
  rcases Stmt.answers_all (fun s _ => s.answers) hscope h hc with rfl | hr
  · exact nomatch hopen.symm.trans hc
  · exact hr

end Statements

end MethodFlow
