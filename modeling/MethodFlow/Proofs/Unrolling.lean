import MethodFlow.Proofs.Unfolding

/-!
# Reading branches and loops off a way through the graph

Where the way goes on when code has been left is said by `Reaches`: at the open block after the code
if it was completed, and else where the jump, the `return` or the `throw` leads. A way that is
inside a loop goes round by round; a `break` or `continue` that is for the loop stays with it, and
all others leave the scope around it.
-/

namespace MethodFlow

open Behaviour (Splits)

namespace Draft

variable {D d d' d₁ d₂ dt : Draft} {scope : Scope} {labels : List String} {n m : Nat}
    {v : List Element}
  {x : Exit} {a b : Behaviour} {kind : TargetKind} {c after : BlockId}

/-! ## Where the way goes on -/

/-- Code is left by a jump or for good, and the way goes on where that leads. -/
def Departs (D : Draft) (scope : Scope) (n : Nat) (v : List Element) : Exit → Prop
  | .breaking label =>
    ∃ line target, scope.breakTarget label line = .ok target ∧ D.graph.Finishes n target.breakTo v
  | .continuing label =>
    ∃ line target next, scope.continueTarget label line = .ok (target, next) ∧
      D.graph.Finishes n next v
  | .returning | .threw _ => D.graph.Finishes n Graph.exit v
  | .completed | .stopped | .raised _ => False

/-- The way goes on after the code, or where the exit leads. A statement with labels is also left at
its end by a `break` with one of them. -/
def Reaches (D : Draft) (scope : Scope) (labels : List String) (d : Draft) (n : Nat)
    (v : List Element) (x : Exit) : Prop :=
  (x = .completed ∨ ∃ l ∈ labels, x = .breaking (some l)) ∧ Rest D d n v ∨ Departs D scope n v x

theorem Departs.ne_completed (h : Departs D scope n v x) : x ≠ .completed := by
  rintro rfl
  exact h

theorem Reaches.completed (h : Rest D d n v) : Reaches D scope labels d n v .completed :=
  Or.inl ⟨Or.inl rfl, h⟩

theorem Reaches.cases (h : Reaches D scope [] d n v x) :
    x = .completed ∧ Rest D d n v ∨ x ≠ .completed ∧ Departs D scope n v x := by
  rcases h with ⟨hx | ⟨_, hl, _⟩, h⟩ | h
  · exact Or.inl ⟨hx, h⟩
  · exact nomatch hl
  · exact Or.inr ⟨h.ne_completed, h⟩

/-- Only a way that goes on after the code moves with the open block. -/
theorem Reaches.advance (h : Reaches D scope [] d n v x)
    (hgo : Rest D d n v → ∃ k, k ≤ n ∧ Rest D d' k v) :
      ∃ k, k ≤ n ∧ Reaches D scope [] d' k v x := by
  rcases h.cases with ⟨rfl, hr⟩ | ⟨_, hdep⟩
  · obtain ⟨k, hk, hr⟩ := hgo hr
    exact ⟨k, hk, .completed hr⟩
  · exact ⟨n, Nat.le_refl n, Or.inr hdep⟩

/-- A piece of code with behaviour `b` was drawn from `d` to `d'` in a scope outside of all `try`
statements, and any way from there on spells an execution of it first. -/
structure Unfolded (scope : Scope) (d d' : Draft) (b : Behaviour) : Prop where
  draws : Draws scope d d'
  splits : ∀ {D : Draft} {n : Nat} {v : List Element}, d'.Extends D → scope.Fits d → Rest D d n v →
    b.Splits (Reaches D scope [] d') n v

/-- One piece after the other, where labels are meant for the second one. -/
theorem splits_andThen (ha : a.Splits (Reaches D scope [] d₁) n v)
    (hb : ∀ {m u}, Rest D d₁ m u → b.Splits (Reaches D scope labels d₂) m u) :
    (a.andThen b).Splits (Reaches D scope labels d₂) n v := by
  refine .andThen (ha.mono fun m u x _ hx => ?_)
  rcases hx.cases with ⟨rfl, hr⟩ | ⟨hne, hdep⟩
  · exact Or.inl ⟨rfl, hb hr⟩
  · exact Or.inr ⟨hne, Or.inr hdep⟩

/-- After an evaluation a way goes on from where it ended. -/
theorem Evaluated.reaches (h : Evaluated scope d d₁ a) (hext : d₁.Extends D) (hr : Rest D d n v) :
    a.Splits (Reaches D scope [] d₁) n v :=
  (h.splits hext hr).mono fun _ _ _ _ ⟨hx, hr⟩ => hx ▸ .completed hr

/-! ## Leaving a target -/

/-- Exits other than jumps are the same inside a target and around it. -/
theorem Departs.of_plain (h : Departs D (scope.inside labels kind after) n v x)
    (hx : x.isJump = false) :
    Departs D scope n v x := by
  cases x with
  | breaking label => exact nomatch hx
  | continuing label => exact nomatch hx
  | _ => exact h

/-- Leaving a loop or a `switch`: `break` goes on after it, and all else leaves the scope around
it. -/
theorem Departs.of_inside (h : Departs D (scope.inside labels kind after) n v x)
    (hkind : kind ≠ .labeled) (hround : ∀ c, kind = .loop c → x.afterContinue labels = x)
    (hafter : D.graph.Finishes n after v → Rest D d n v) :
      Reaches D scope labels d n v x.afterBreak := by
  cases x with
  | breaking label =>
    obtain ⟨line, target, ht, hf⟩ := h
    rcases Scope.breakTarget_inside ht with ⟨hlabel, rfl⟩ | ⟨hnone, hlabel, ht⟩
    · rcases hlabel with ⟨rfl, _⟩ | ⟨l, hl, rfl⟩
      · exact .completed (hafter hf)
      · exact Or.inl ⟨Or.inr ⟨l, hl, rfl⟩, hafter hf⟩
    · cases label with
      | none => exact absurd (hnone rfl) hkind
      | some l => exact Or.inr ⟨line, target, ht, hf⟩
  | continuing label =>
    obtain ⟨line, target, next, ht, hf⟩ := h
    rcases Scope.continueTarget_inside ht with ⟨hk, hlabel, rfl⟩ | ⟨_, ht⟩
    · -- The next round of the statement itself is no way to leave it.
      rcases hlabel with rfl | ⟨l, hl, rfl⟩
      · cases hround next hk
      · have hr := hround next hk
        rw [Exit.afterContinue, if_pos (List.contains_iff_mem.mpr hl)] at hr
        cases hr
    · exact Or.inr ⟨line, target, next, ht, hf⟩
  | _ => exact Or.inr (h.of_plain rfl)

/-- Leaving a labeled statement that is no loop and no `switch`. -/
theorem Departs.of_label {label : String}
    (h : Departs D (scope.inside [label] .labeled after) n v x)
    (hafter : D.graph.Finishes n after v → Rest D d n v) :
    Reaches D scope [] d n v (x.afterLabel label) := by
  cases x with
  | breaking target =>
    obtain ⟨line, t, ht, hf⟩ := h
    rcases Scope.breakTarget_inside ht with ⟨⟨_, hk⟩ | ⟨l, hl, rfl⟩, rfl⟩ | ⟨_, hlabel, ht⟩
    · exact absurd rfl hk
    · rw [List.mem_singleton.mp hl, Exit.afterLabel, if_pos rfl]
      exact .completed (hafter hf)
    · cases target with
      | none => exact Or.inr ⟨line, t, ht, hf⟩
      | some l =>
        rw [Exit.afterLabel, if_neg fun he => hlabel label List.mem_cons_self (congrArg some he)]
        exact Or.inr ⟨line, t, ht, hf⟩
  | continuing target =>
    obtain ⟨line, t, next, ht, hf⟩ := h
    rcases Scope.continueTarget_inside ht with ⟨hk, _⟩ | ⟨_, ht⟩
    · cases hk
    · exact Or.inr ⟨line, t, next, ht, hf⟩
  | _ => exact Or.inr (h.of_plain rfl)

/-- A label that was handed on to a loop or a `switch`. -/
theorem Reaches.of_carried {label : String} (h : Reaches D scope (labels ++ [label]) d n v x)
    (hnew : scope.hasLabel label = false) : Reaches D scope labels d n v (x.afterLabel label) := by
  rcases h with ⟨rfl | ⟨l, hl, rfl⟩, hr⟩ | hdep
  · exact .completed hr
  · by_cases he : l = label
    · rw [Exit.afterLabel, if_pos he]
      exact .completed hr
    · rw [Exit.afterLabel, if_neg he]
      refine Or.inl ⟨Or.inr ⟨l, (List.mem_append.mp hl).resolve_right fun hl => ?_, rfl⟩, hr⟩
      exact he (List.mem_singleton.mp hl)
  · cases x with
    | breaking target =>
      cases target with
      | none => exact Or.inr hdep
      | some l =>
        rw [Exit.afterLabel, if_neg]
        · exact Or.inr hdep
        · -- No target around the statement has its label.
          rintro rfl
          obtain ⟨line, t, ht, _⟩ := hdep
          have hnone : scope.targets.find? (·.hasLabel l) = none :=
            List.find?_eq_none.mpr (List.any_eq_false.mp hnew)
          rw [Scope.breakTarget, Scope.labelTarget, hnone] at ht
          cases ht
    | _ => exact Or.inr hdep

/-! ## Branches -/

theorem Rest.openIf (h : Rest D d n v) {cons : Stmt} {alt : Option Stmt} {test : Span}
    {W : BlockId → Prop} (hnew : Drawn scope d (d.openIf cons alt test) W)
    (hext : (d.openIf cons alt test).Extends D) :
    ∃ m, n = m + 1 ∧ (Rest D (d.openIf cons alt test) m v ∨
      D.graph.Finishes m (alt.elim (d.fresh + 1) fun _ => d.fresh + 2) v) := by
  have hmade := ((Made.refl h.steady).create .normal (some cons.span)).create .join none
  have hr := (h.create .normal (some cons.span)).create .join none
  cases alt with
  | none => exact hr.fork hmade (Nat.le_refl _) (by grind [fresh_create]) hnew h.steady h.tidy hext
  | some alt =>
    exact (hr.create _ _).fork (hmade.create _ _) (Nat.le_refl _) (by grind [fresh_create])
      hnew h.steady
      h.tidy hext

theorem Rest.openBody (h : Rest D d n v) {body test : Span} {W : BlockId → Prop}
    (hnew : Drawn scope d (d.openBody body test) W) (hext : (d.openBody body test).Extends D) :
    ∃ m, n = m + 1 ∧ (Rest D (d.openBody body test) m v ∨ D.graph.Finishes m (d.fresh + 1) v) :=
  ((h.create _ _).create _ _).fork (((Made.refl h.steady).create _ _).create _ _) (Nat.le_refl _)
    (by grind [fresh_create]) hnew h.steady h.tidy hext

/-- A way through an `if` is one through its body or past it. -/
theorem IfDrawn.splits {cons : Stmt} {test : Span} (h : IfDrawn scope d d₁ cons test)
    (hb : Unfolded scope (d.openIf cons none test) d₁ b)
    (hext : (d₁.continueAt (d.fresh + 1)).Extends D) (hr : Rest D d n v) :
    (b.either (.leave .completed)).Splits (Reaches D scope [] (d₁.continueAt (d.fresh + 1)))
      n v := by
  have hpart := hb.draws h.opened.steady h.fits
  have hext_b := extends_continueAt h.after_cons.steady (d.fresh + 1)
  have hblank :=
    (blank_openIf hr.steady cons none test).part h.opened.steady hpart (d.fresh + 1) (by grind)
    ((h.after_cons.waiting _).mpr (Or.inr rfl))
  obtain ⟨m, rfl, hin | hpast⟩ :=
    hr.openIf h.opened ((hpart.run.extends h.opened.steady).trans (hext_b.trans hext))
  · refine .left
      (.of_le (.advance (hb.splits (hext_b.trans hext) h.fits hin) fun k u x _ hx =>
        hx.advance fun hr' => ?_) (Nat.le_succ m))
    obtain ⟨k, rfl, hjoin⟩ := hr'.run_on hr.steady hr.tidy h.after_cons (Or.inr rfl) hblank hext
    exact ⟨k, Nat.le_succ k, hjoin⟩
  · refine .right (.of_le (.leave (.completed ?_)) (Nat.le_succ m))
    exact .continueAt hpast hr.steady hr.tidy h.after_cons (Or.inr rfl) hblank

/-- A way through an `if` with `else` is one through either body. -/
theorem IfElseDrawn.splits {cons alt : Stmt} {test : Span}
    (h : IfElseDrawn scope d d₁ d₂ cons alt test)
    (ha : Unfolded scope (d.openIf cons (some alt) test) d₁ a)
    (hb : Unfolded scope (d₁.turn .sequential (d.fresh + 1) (d.fresh + 2)) d₂ b)
    (hext : (d₂.continueAt (d.fresh + 1)).Extends D) (hr : Rest D d n v) :
    (a.either b).Splits (Reaches D scope [] (d₂.continueAt (d.fresh + 1))) n v := by
  have hparta := ha.draws h.opened.steady h.fits_cons
  have hpartb := hb.draws h.turned.steady h.fits_alt
  have hext_b := extends_continueAt h.after_alt.steady (d.fresh + 1)
  have hext_t := (hpartb.run.extends h.turned.steady).trans hext_b
  have hext_a :=
    (extends_turn h.after_cons.steady .sequential (d.fresh + 1) (d.fresh + 2)).trans hext_t
  have hblank := (blank_openIf hr.steady cons (some alt) test).part h.opened.steady hparta
  have hjoin_blank :=
    (hblank.turn h.after_cons.steady _ _ _).part h.turned.steady hpartb (d.fresh + 1)
    (by grind) ((h.after_alt.waiting _).mpr (Or.inr rfl))
  obtain ⟨m, rfl, hin | hpast⟩ :=
    hr.openIf h.opened ((hparta.run.extends h.opened.steady).trans (hext_a.trans hext))
  · refine .left (.of_le (.advance (ha.splits (hext_a.trans hext) h.fits_cons hin) fun k u x _ hx =>
      hx.advance fun hr' => ?_) (Nat.le_succ m))
    obtain ⟨k, rfl, hf⟩ := hr'.turn (hext_t.trans hext)
    exact ⟨k, Nat.le_succ k, .continueAt hf hr.steady hr.tidy h.after_alt (Or.inr rfl) hjoin_blank⟩
  · have hother : Rest D (d₁.turn .sequential (d.fresh + 1) (d.fresh + 2)) m v :=
      .turn_start hpast hr.steady hr.tidy h.after_cons (Or.inr (Or.inr rfl))
        (hblank _ (by grind) ((h.after_cons.waiting _).mpr (Or.inr (Or.inr rfl)))) h.turned
    refine .right
      (.of_le (.advance (hb.splits (hext_b.trans hext) h.fits_alt hother) fun k u x _ hx =>
      hx.advance fun hr' => ?_) (Nat.le_succ m))
    obtain ⟨k, rfl, hjoin⟩ := hr'.run_on hr.steady hr.tidy h.after_alt (Or.inr rfl) hjoin_blank hext
    exact ⟨k, Nat.le_succ k, hjoin⟩

/-! ## Loops -/

/-- The way has come to the end of a loop or leaves its code, not for the next round. -/
def Leaves (D : Draft) (inner : Scope) (labels : List String) (after : BlockId) (n : Nat)
    (v : List Element) (x : Exit) : Prop :=
  x = .completed ∧ D.graph.Finishes n after v ∨ x.afterContinue labels = x ∧ Departs D inner n v x

/-- The body of a loop has come to its end, goes on with the next round, or the loop is left. -/
theorem Reaches.round (h : Reaches D (scope.inside labels (.loop c) after) [] d n v x) :
    x.afterContinue labels = .completed ∧ (Rest D d n v ∨ D.graph.Finishes n c v) ∨
      x.afterContinue labels ≠ .completed ∧
        Leaves D (scope.inside labels (.loop c) after) labels after n v
          (x.afterContinue labels) := by
  rcases h.cases with ⟨rfl, hr⟩ | ⟨hne, hdep⟩
  · exact Or.inl ⟨rfl, Or.inl hr⟩
  · cases x with
    | continuing label =>
      obtain ⟨line, target, next, ht, hf⟩ := id hdep
      rcases Scope.continueTarget_inside ht with ⟨hk, hlabel, rfl⟩ | ⟨hlabel, _⟩
      · cases hk
        refine Or.inl ⟨?_, Or.inr hf⟩
        rcases hlabel with rfl | ⟨l, hl, rfl⟩
        · rfl
        · rw [Exit.afterContinue, if_pos (List.contains_iff_mem.mpr hl)]
      · have hsame : (Exit.continuing label).afterContinue labels = .continuing label := by
          cases label with
          | none => exact absurd rfl (hlabel c rfl).1
          | some l =>
            rw [Exit.afterContinue, if_neg]
            exact fun hl => (hlabel c rfl).2 l (List.contains_iff_mem.mp hl) rfl
        rw [hsame]
        exact Or.inr ⟨by rintro ⟨⟩, Or.inr ⟨hsame, hdep⟩⟩
    | _ => exact Or.inr ⟨hne, Or.inr ⟨rfl, hdep⟩⟩

/-- A loop with a header: from there on the way spells a round, which comes back to the header or
leaves the loop, or else what comes in place of a round. -/
theorem splits_loop (header c after : BlockId) {round last : Behaviour}
    (step : ∀ n v, D.graph.Finishes n header v →
      last.Splits (Leaves D (scope.inside labels (.loop c) after) labels after) n v ∨
      round.Splits (fun m u x => x = .completed ∧ m < n ∧ D.graph.Finishes m header u ∨
        x ≠ .completed ∧ Leaves D (scope.inside labels (.loop c) after) labels after m u x) n v)
    (hafter : ∀ {m u}, D.graph.Finishes m after u → Rest D d m u)
    (h : D.graph.Finishes n header v) :
    (Behaviour.catching .afterBreak (.Rounds round last)).Splits
    (Reaches D scope labels d) n v := by
  refine .catching ((Splits.rounds step h).mono fun m u x _ hx => ?_)
  rcases hx with ⟨rfl, hf⟩ | ⟨hsame, hdep⟩
  · exact .completed (hafter hf)
  · exact hdep.of_inside nofun (fun _ _ => hsame) hafter

theorem Rest.openHeader (h : Rest D d n v) {span : Option Span}
    (hext : (d.openHeader span).Extends D) :
    ∃ m, n = m + 1 ∧ D.graph.Finishes m d.fresh v := by
  refine (h.create .loopHeader span).fallInto
    ((extends_start (current_fallInto ..) d.fresh).trans ?_)
  rw [fallInto_start]
  exact hext

/-- Each round of a loop begins at its header. -/
theorem Rest.at_header (scope : Scope) (hf : D.graph.Finishes n d.fresh v) (hd : d.Steady)
    (ht : d.Tidy) (span : Option Span) : Rest D (d.openHeader span) n v := by
  have hmade : Drawn scope d (d.create .loopHeader span) _ :=
    (Drawn.refl hd).create .loopHeader span
  exact .continueAt hf hd ht hmade (Or.inr rfl) (contains_add ..)

/-- A loop with its test in front of the body. -/
theorem WhileDrawn.splits {header body test : Span}
    (h : WhileDrawn scope labels d dt d₁ header body test)
    (ha : Evaluated scope (d.openHeader (some header)) dt a)
    (hb : Unfolded (scope.inside labels (.loop d.fresh) (dt.fresh + 1))
      (dt.openBody body test) d₁ b)
    (hext : (d₁.turn .loopBack d.fresh (dt.fresh + 1)).Extends D) (hr : Rest D d n v) :
    (Behaviour.catching .afterBreak
      (.Rounds (a.andThen (b.catching (.afterContinue labels))) a)).Splits
      (Reaches D scope labels (d₁.turn .loopBack d.fresh (dt.fresh + 1))) n v := by
  have hpart := hb.draws h.entered.steady h.fits_body
  have hext_b := extends_turn h.after_body.steady .loopBack d.fresh (dt.fresh + 1)
  have hext_o := (hpart.run.extends h.entered.steady).trans (hext_b.trans hext)
  have hext_t := (extends_openBody h.after_test.steady body test).trans hext_o
  obtain ⟨m, rfl, hf⟩ := hr.openHeader ((ha.drawn.run.extends h.opened.steady).trans hext_t)
  refine .of_le (splits_loop d.fresh d.fresh (dt.fresh + 1) (fun n v hf => ?_) (fun hf => ?_) hf)
    (Nat.le_succ m)
  · have hin : Rest D (d.openHeader (some header)) n v := .at_header scope hf hr.steady hr.tidy _
    obtain ⟨t, u, _, k, rfl, hk, ht, rfl, hr'⟩ := ha.splits hext_t hin
    have hopen : Drawn scope dt (dt.openBody body test) _ :=
      (Drawn.refl h.after_test.steady).openBody body test
    -- After the test the path enters the body or goes past the loop.
    obtain ⟨k, rfl, hin | hpast⟩ := hr'.openBody hopen hext_o
    · refine Or.inr
        (.andThen ⟨t, u, .completed, k, rfl, Nat.le_of_succ_le hk, ht, Or.inl ⟨rfl, .catching ?_⟩⟩)
      refine .advance (hb.splits (hext_b.trans hext) h.fits_body hin) fun i u x hi hx => ?_
      rcases hx.round with ⟨hround, hend | hf⟩ | hleft
      · obtain ⟨i, rfl, hf⟩ := hend.turn hext
        exact ⟨i, Nat.le_succ i, Or.inl ⟨hround, by omega, hf⟩⟩
      · exact ⟨i, Nat.le_refl i, Or.inl ⟨hround, by omega, hf⟩⟩
      · exact ⟨i, Nat.le_refl i, Or.inr hleft⟩
    · exact Or.inl ⟨t, u, .completed, k, rfl, Nat.le_of_succ_le hk, ht, Or.inl ⟨rfl, hpast⟩⟩
  · refine .turn_start hf hr.steady hr.tidy h.after_body (Or.inr rfl) ?_ h.whole
    exact (blank_openBody h.after_test.steady _ _).part h.entered.steady hpart _ (Nat.le_succ _)
      ((h.after_body.waiting _).mpr (Or.inr rfl))

/-- A loop with its test after the body. -/
theorem DoDrawn.splits {body test : Span} (h : DoDrawn scope labels d d₁ dt body test)
    (hb : Unfolded (scope.inside labels (.loop (d.fresh + 1)) (d.fresh + 2))
      (d.openDo body test) d₁ b)
    (ha : Evaluated scope (d₁.continueAt (d.fresh + 1)) dt a)
    (hext : (dt.closeDo d.fresh (d.fresh + 2) test).Extends D) (hr : Rest D d n v) :
    (Behaviour.catching .afterBreak (.Rounds ((b.catching (.afterContinue labels)).andThen a)
        ((b.catching (.afterContinue labels)).andThen a))).Splits
      (Reaches D scope labels (dt.closeDo d.fresh (d.fresh + 2) test)) n v := by
  have hpart := hb.draws h.opened.steady h.fits_body
  have hext_t := extends_branch_start h.after_test.steady d.fresh (d.fresh + 2) (d.fresh + 2) test
  have hext_c := (ha.drawn.run.extends h.turned.steady).trans (hext_t.trans hext)
  have hext_b := (extends_continueAt h.after_body.steady (d.fresh + 1)).trans hext_c
  have hblank := (blank_openDo hr.steady body test).part h.opened.steady hpart
  have hcond := hblank (d.fresh + 1) (by grind) ((h.after_body.waiting _).mpr (Or.inr (Or.inl rfl)))
  have hmade : Made d _ :=
    ((((Made.refl hr.steady).create .loopHeader (some body)).create .condition
    (some test)).create .normal none)
  have hmade_r :=
    ((hr.create .loopHeader (some body)).create .condition (some test)).create .normal none
  have hmade_d : Drawn scope d _ _ :=
    (((Drawn.refl hr.steady).create .loopHeader (some body)).create .condition
    (some test)).create .normal none
  obtain ⟨m, rfl, hf⟩ : ∃ m, n = m + 1 ∧ D.graph.Finishes m d.fresh v := by
    refine hmade_r.fallInto ((extends_start (current_fallInto ..) d.fresh).trans ?_)
    rw [fallInto_start]
    exact (hpart.run.extends h.opened.steady).trans hext_b
  -- Every round ends with the choice between the header and the block after the loop.
  have hround : ∀ n v, D.graph.Finishes n d.fresh v →
    ((b.catching (.afterContinue labels)).andThen a).Splits
      (fun m u x => x = .completed ∧ m < n ∧
        (D.graph.Finishes m d.fresh u ∨ D.graph.Finishes m (d.fresh + 2) u) ∨
        x ≠ .completed ∧ Leaves D (scope.inside labels (.loop (d.fresh + 1)) (d.fresh + 2)) labels
          (d.fresh + 2) m u x) n v := by
    intro n v hf
    have hin : Rest D (d.openDo body test) n v :=
      .continueAt hf hr.steady hr.tidy hmade_d (by grind [fresh_create])
        (hmade.blank _ (Nat.le_refl _) (hmade.waiting _ (Nat.le_refl _) (by grind [fresh_create])))
    refine .andThen (.catching ((hb.splits hext_b h.fits_body hin).advance fun i u x hi hx => ?_))
    rcases hx.round with ⟨hround, hend⟩ | ⟨hne, hleft⟩
    · obtain ⟨j, hj, hr'⟩ : ∃ j, j ≤ i ∧ Rest D (d₁.continueAt (d.fresh + 1)) j u := by
        rcases hend with hend | hf
        · obtain ⟨j, rfl, hr'⟩ :=
            hend.run_on hr.steady hr.tidy h.after_body (Or.inr (Or.inl rfl)) hcond hext_c
          exact ⟨j, Nat.le_succ j, hr'⟩
        · exact ⟨i, Nat.le_refl i,
            .continueAt hf hr.steady hr.tidy h.after_body (Or.inr (Or.inl rfl)) hcond⟩
      refine ⟨j, hj,
        Or.inl ⟨hround, (ha.splits (hext_t.trans hext) hr').advance fun k u x hk hx => ?_⟩⟩
      obtain ⟨k, rfl, hf⟩ := hx.2.branch hext
      exact ⟨k, Nat.le_succ k, Or.inl ⟨hx.1, by omega, hf⟩⟩
    · exact ⟨i, Nat.le_refl i, Or.inr ⟨hne, Or.inr ⟨hne, hleft⟩⟩⟩
  refine .of_le
    (splits_loop d.fresh (d.fresh + 1) (d.fresh + 2) (fun n v hf => ?_) (fun hf => ?_) hf)
    (Nat.le_succ m)
  · obtain ⟨t, u, x, m, hv, hm, hx, ⟨hc, hlt, hf | hf⟩ | hleft⟩ := hround n v hf
    · exact Or.inr ⟨t, u, x, m, hv, hm, hx, Or.inl ⟨hc, hlt, hf⟩⟩
    · exact Or.inl ⟨t, u, x, m, hv, hm, hx, Or.inl ⟨hc, hf⟩⟩
    · exact Or.inr ⟨t, u, x, m, hv, hm, hx, Or.inr hleft⟩
  · refine .branch_start hf hr.steady hr.tidy h.after_test (Or.inr rfl) ?_ h.whole
    exact (hblank.continueAt h.after_body.steady _).part h.turned.steady ha.drawn
      (d.fresh + 2) (by grind) ((h.after_test.waiting _).mpr (Or.inr rfl))

/-- A loop over the elements of something. -/
theorem EachDrawn.splits {header body iterable : Span} {kind : ElementKind} {span : Span}
    (h : EachDrawn scope labels d d₁ header body iterable kind span)
    (hb : Unfolded (scope.inside labels (.loop d.fresh) (d.fresh + 2))
      (((d.openHeader (some header)).openBody body iterable).emit kind span) d₁ b)
    (hext : (d₁.turn .loopBack d.fresh (d.fresh + 2)).Extends D) (hr : Rest D d n v) :
    (Behaviour.catching .afterBreak (.Rounds ((Behaviour.emit kind span).andThen
        (b.catching (.afterContinue labels))) (.leave .completed))).Splits
      (Reaches D scope labels (d₁.turn .loopBack d.fresh (d.fresh + 2))) n v := by
  have hfresh := d.fresh_openHeader (some header)
  have hpart := hb.draws h.entered.steady h.fits_body
  have hopen : Drawn scope (d.openHeader (some header)) _ _ :=
    (Drawn.refl h.opened.steady).openBody body iterable
  have hemit : Drawn scope _ _ _ := (Drawn.refl hopen.steady).emit kind span
  have hext_b := extends_turn h.after_body.steady .loopBack d.fresh (d.fresh + 2)
  have hext_e := (hpart.run.extends h.entered.steady).trans (hext_b.trans hext)
  have hext_o := (hemit.run.extends hopen.steady).trans hext_e
  obtain ⟨m, rfl, hf⟩ :=
    hr.openHeader ((extends_openBody h.opened.steady body iterable).trans hext_o)
  refine .of_le (splits_loop d.fresh d.fresh (d.fresh + 2) (fun n v hf => ?_) (fun hf => ?_) hf)
    (Nat.le_succ m)
  · have hin : Rest D (d.openHeader (some header)) n v := .at_header scope hf hr.steady hr.tidy _
    obtain ⟨k, rfl, hin | hpast⟩ := hin.openBody hopen hext_o
    · obtain ⟨u, rfl, hbody⟩ := hin.emit hext_e
      refine Or.inr (.andThen ⟨[_], u, .completed, k, rfl, Nat.le_succ k, ⟨rfl, Or.inl rfl⟩,
        Or.inl ⟨rfl, .catching ?_⟩⟩)
      refine .advance (hb.splits (hext_b.trans hext) h.fits_body hbody) fun i u x hi hx => ?_
      -- A round ends, by `continue` or by itself, or it leaves the loop.
      rcases hx.round with ⟨hround, hend | hf⟩ | hleft
      · obtain ⟨i, rfl, hf⟩ := hend.turn hext
        exact ⟨i, Nat.le_succ i, Or.inl ⟨hround, by omega, hf⟩⟩
      · exact ⟨i, Nat.le_refl i, Or.inl ⟨hround, by omega, hf⟩⟩
      · exact ⟨i, Nat.le_refl i, Or.inr hleft⟩
    · rw [hfresh] at hpast
      exact Or.inl (.of_le (.leave (Or.inl ⟨rfl, hpast⟩)) (Nat.le_succ k))
  · have hblank := ((blank_openBody h.opened.steady body iterable).part hopen.steady hemit).part
      h.entered.steady hpart
    exact .turn_start hf hr.steady hr.tidy h.after_body (Or.inr rfl)
      (hblank _ (by grind) ((h.after_body.waiting _).mpr (Or.inr rfl))) h.whole

theorem Rest.makeFor (h : Rest D d n v) (updates : Bool) (body : Span) :
    Rest D (d.makeFor updates body) n v := by
  have hmade := (h.create .normal (some body)).create .normal none
  cases updates with
  | false => exact hmade
  | true => exact hmade.create .normal none

/-- From the test of a `for` loop the way goes on in the body, or past the loop if there is a
test. -/
theorem Rest.testFor (h : Rest D d n v) (hs : scope.handlers = []) (hfit : scope.Fits d)
    (test : Option Expr) {inner after : BlockId} (hinner : d.Waiting inner)
    (hafter : d.Waiting after) (hblank : d.Contains inner [])
    (hext : (d.testFor scope test inner after).Extends D) :
    (Expr.behaviourOption (!scope.handlers.isEmpty) test).Splits
      (fun m u x => x = .completed ∧ m < n ∧ Rest D (d.testFor scope test inner after) m u) n v ∨
    (test.elim .never (·.behaviour (!scope.handlers.isEmpty))).Splits
      (fun m u x => x = .completed ∧ D.graph.Finishes m after u) n v := by
  have hnew := Drawn.testFor h.steady hfit test hinner hafter
  cases test with
  | none =>
    rw [Expr.behaviourOption]
    obtain ⟨m, e, rfl, he, hf⟩ :=
      h.terminate ((extends_start (current_terminate ..) inner).trans hext)
    cases List.mem_singleton.mp he
    refine Or.inl (.of_le (.leave ⟨rfl, Nat.lt_succ_self m, ?_⟩) (Nat.le_succ m))
    exact .start hf h.tidy hinner hblank (extends_terminate h.steady _ _ _)
      ((waiting_terminate h.steady _ _ _ inner).mpr hinner) (current_terminate ..) hnew.steady
      (hnew.run.tidy h.steady h.tidy)
  | some test =>
    rw [Expr.behaviourOption]
    have ht := test.evaluated hs h.steady hfit
    have hext_t := extends_branch_start ht.drawn.steady inner after inner test.span
    obtain ⟨t, u, _, m, rfl, hm, hx, rfl, hr⟩ := ht.splits (hext_t.trans hext) h
    obtain ⟨m, rfl, hf | hf⟩ := hr.branch hext
    · refine Or.inl ⟨t, u, .completed, m, rfl, Nat.le_of_succ_le hm, hx, rfl, hm, ?_⟩
      refine .branch_start hf h.steady h.tidy ht.drawn hinner ?_ hnew
      exact hblank.of_waiting (ht.drawn.run.extends h.steady) ((ht.drawn.waiting inner).mpr hinner)
    · exact Or.inr ⟨t, u, .completed, m, rfl, Nat.le_of_succ_le hm, hx, rfl, hf⟩

/-- The updates of a `for` loop lead from the end of a round back to the header. -/
theorem splits_updateFor {header next : BlockId} {W : BlockId → Prop} (hs : scope.handlers = [])
    (hd : d.Steady) (ht : d.Tidy) (h : Drawn scope d d₁ W) (hfit : scope.Fits d₁)
    (update : List Expr)
    (hnext : update.isEmpty = false → d₁.Waiting next ∧ ∀ id, scope.Names id → id ≠ next)
    (hblank : update.isEmpty = false → d₁.Contains next [])
    (hheader : update.isEmpty = true → next = header)
    (hext : ((d₁.updateFor scope update next).turn .loopBack header after).Extends D)
    (hend : Rest D d₁ n v ∨ D.graph.Finishes n next v) :
    (Expr.behaviourAll (!scope.handlers.isEmpty) update).Splits
      (fun m u x => x = .completed ∧ D.graph.Finishes m header u) n v := by
  cases update with
  | nil =>
    rw [Expr.behaviourAll]
    rcases hend with hr | hf
    · obtain ⟨m, rfl, hf⟩ := hr.turn hext
      exact .of_le (.leave ⟨rfl, hf⟩) (Nat.le_succ m)
    · exact .leave ⟨rfl, hheader rfl ▸ hf⟩
  | cons e es =>
    obtain ⟨hw, hnew⟩ := hnext rfl
    have hw' := (h.waiting next).mp hw
    have hturn := h.turn (Or.inr rfl) (Or.inr (Or.inl hw)) hw'
    have hu := Expr.evaluated_all hs (e :: es) hturn.steady (hfit.turn h.steady hw hnew).2
    have hext_u := extends_turn hu.drawn.steady .loopBack header after
    have hext_n := (hu.drawn.run.extends hturn.steady).trans (hext_u.trans hext)
    -- The body ends at the updates, or `continue` has led there.
    obtain ⟨k, hk, hf⟩ : ∃ k, k ≤ n ∧ D.graph.Finishes k next v := by
      rcases hend with hr | hf
      · obtain ⟨k, rfl, hf⟩ := hr.turn hext_n
        exact ⟨k, Nat.le_succ k, hf⟩
      · exact ⟨n, Nat.le_refl n, hf⟩
    have hr : Rest D (d₁.turn .loopBack next next) k v :=
      .turn_start hf hd ht h hw' (hblank rfl) hturn
    refine .of_le ((hu.splits (hext_u.trans hext) hr).advance fun i u x _ hx => ?_) hk
    obtain ⟨i, rfl, hf⟩ := hx.2.turn hext
    exact ⟨i, Nat.le_succ i, hx.1, hf⟩

/-- A loop with a test in front of the body and updates after it. -/
theorem ForDrawn.splits {header body : Span} {test : Option Expr} {update : List Expr}
    (hs : scope.handlers = [])
    (h : ForDrawn scope labels d ((d.openHeader (some header)).makeFor (!update.isEmpty) body)
      d₁ header test update)
    (hb : Unfolded (scope.inside labels (.loop (forNext d.fresh update)) (d.fresh + 2))
      (((d.openHeader (some header)).makeFor (!update.isEmpty) body).testFor scope test
        (d.fresh + 1) (d.fresh + 2)) d₁ b)
    (hext :
      ((d₁.updateFor scope update (forNext d.fresh update)).turn .loopBack d.fresh
        (d.fresh + 2)).Extends D)
    (hr : Rest D d n v) :
    (Behaviour.catching .afterBreak
      (.Rounds ((Expr.behaviourOption (!scope.handlers.isEmpty) test).andThen
        ((b.catching (.afterContinue labels)).andThen
          (Expr.behaviourAll (!scope.handlers.isEmpty) update)))
        (test.elim .never (·.behaviour (!scope.handlers.isEmpty))))).Splits
      (Reaches D scope labels
        ((d₁.updateFor scope update (forNext d.fresh update)).turn .loopBack d.fresh (d.fresh + 2)))
          n v := by
  have hinner := (h.made.waiting (d.fresh + 1)).mpr (Or.inr (Or.inl rfl))
  have hpast := (h.made.waiting (d.fresh + 2)).mpr (Or.inr (Or.inr (Or.inl rfl)))
  have hpart := hb.draws h.entered.steady h.fits_body
  have kt := Drawn.testFor h.made.steady h.fits_test test hinner hpast
  have ku :=
    Drawn.updateFor h.after_body.steady h.fits_update update (forNext d.fresh update) h.next
  have hext_t := extends_turn h.updated.steady .loopBack d.fresh (d.fresh + 2)
  have hext_u := (ku.run.extends h.after_body.steady).trans (hext_t.trans hext)
  have hext_b := (hpart.run.extends h.entered.steady).trans hext_u
  have hmade := made_makeFor h.opened.steady (!update.isEmpty) body
  have hext_m := (hmade.grows.trans (kt.run.extends h.made.steady)).trans hext_b
  -- The blocks made for the loop stay blank until the path gets to them.
  have hblank := hmade.blank
  rw [fresh_openHeader] at hblank
  have hblank_b := (hblank.of_extends (kt.run.extends h.made.steady) fun id h =>
    ((kt.waiting id).mp h).1).part h.entered.steady hpart
  have hnext_blank : update.isEmpty = false → d₁.Contains (forNext d.fresh update) [] :=
    fun he => by
    refine hblank_b _ ?_ (h.next he).1
    rw [forNext_of_updates he]
    exact Nat.add_le_add_left (by decide) _
  -- From the header the path goes round, and each round uses up some of its length.
  obtain ⟨m, rfl, hf⟩ := hr.openHeader hext_m
  refine .of_le
    (splits_loop d.fresh (forNext d.fresh update) (d.fresh + 2) (fun n v hf => ?_)
      (fun hf => ?_) hf)
    (Nat.le_succ m)
  · have hin :=
      (Rest.at_header scope hf hr.steady hr.tidy (some header)).makeFor (!update.isEmpty) body
    rcases hin.testFor hs h.fits_test test hinner hpast (hblank _ (Nat.le_refl _) hinner) hext_b
      with hin | hlast
    · refine Or.inr
        (.andThen (hin.mono fun m u x _ ⟨hx, hlt, hr'⟩ => Or.inl ⟨hx, .andThen (.catching ?_)⟩))
      refine (hb.splits hext_u h.fits_body hr').advance fun i u x hi hx => ⟨i, Nat.le_refl i, ?_⟩
      rcases hx.round with ⟨hround, hend⟩ | ⟨hne, hleft⟩
      · refine Or.inl
          ⟨hround, (splits_updateFor hs hr.steady hr.tidy h.after_body h.fits_update update h.next
          hnext_blank (fun he => ?_) hext hend).mono fun k u x hk ⟨hx, hf⟩ =>
            Or.inl ⟨hx, by omega, hf⟩⟩
        rw [forNext, if_pos he]
      · exact Or.inr ⟨hne, Or.inr ⟨hne, hleft⟩⟩
    · exact Or.inl (hlast.mono fun _ _ _ _ hx => Or.inl hx)
  · have hblank_u := hblank_b.of_extends (ku.run.extends h.after_body.steady) fun id h =>
      ((ku.waiting id).mp h).1
    exact .turn_start hf hr.steady hr.tidy h.updated (Or.inr rfl)
      (hblank_u _ (Nat.le_succ _) ((h.updated.waiting _).mpr (Or.inr rfl))) h.whole

end Draft

end MethodFlow
