import MethodFlow.Proofs.Parts

/-!
# Leaving a target

An execution that leaves the code inside a loop, a `switch` or a labeled statement by a jump either
goes to this very statement, and then it stands at the block after it or at its next round, or it is
a jump of the scope around the statement. What every kind of loop has in common comes on top of
that: `Follows.loop` follows any number of rounds, given what one round does.
-/

namespace MethodFlow

namespace Scope

variable {scope : Scope} {labels : List String} {kind : TargetKind} {after : BlockId}
  {label : Option String} {line : UInt32} {target : Target}

/-- A `break` inside a target leaves this target or goes further out. -/
theorem breakTarget_inside
    (h : (scope.inside labels kind after).breakTarget label line = .ok target) :
    (label = none ∧ kind ≠ .labeled ∨ ∃ l ∈ labels, label = some l) ∧
        target = ⟨labels, kind, after, scope.handlers.length⟩ ∨
      (label = none → kind = .labeled) ∧ (∀ l ∈ labels, label ≠ some l) ∧
        scope.breakTarget label line = .ok target := by
  cases label with
  | none =>
    cases kind with
    | labeled => exact Or.inr ⟨fun _ => rfl, fun _ _ => nofun, h⟩
    | loop c | switch => exact Or.inl ⟨Or.inl ⟨rfl, nofun⟩, (Except.ok.inj h).symm⟩
  | some l =>
    simp only [breakTarget, labelTarget, inside, List.find?_cons, Target.hasLabel] at h ⊢
    cases hl : labels.contains l with
    | true =>
      rw [hl] at h
      exact Or.inl ⟨Or.inr ⟨l, List.contains_iff_mem.mp hl, rfl⟩, (Except.ok.inj h).symm⟩
    | false =>
      rw [hl] at h
      refine Or.inr ⟨by rintro ⟨⟩, fun l' hm he => ?_, h⟩
      cases he
      rw [List.contains_iff_mem.mpr hm] at hl
      cases hl

/-- A `continue` inside a target begins its next round, if it is a loop, or goes further out. -/
theorem continueTarget_inside {next : BlockId}
    (h : (scope.inside labels kind after).continueTarget label line = .ok (target, next)) :
    kind = .loop next ∧ (label = none ∨ ∃ l ∈ labels, label = some l) ∧
        target = ⟨labels, kind, after, scope.handlers.length⟩ ∨
      (∀ c, kind = .loop c → label ≠ none ∧ ∀ l ∈ labels, label ≠ some l) ∧
        scope.continueTarget label line = .ok (target, next) := by
  cases label with
  | none =>
    cases kind with
    | labeled => exact Or.inr ⟨nofun, h⟩
    | loop c =>
      cases h
      exact Or.inl ⟨rfl, Or.inl rfl, rfl⟩
    | switch => exact Or.inr ⟨nofun, h⟩
  | some l =>
    simp only [continueTarget, labelTarget, inside, List.find?_cons, Target.hasLabel] at h ⊢
    cases hl : labels.contains l with
    | true =>
      rw [hl] at h
      cases kind with
      | labeled => exact nomatch h
      | loop c =>
        cases h
        exact Or.inl ⟨rfl, Or.inr ⟨l, List.contains_iff_mem.mp hl, rfl⟩, rfl⟩
      | switch => exact nomatch h
    | false =>
      rw [hl] at h
      refine Or.inr ⟨fun _ _ => ⟨nofun, fun l' hm he => ?_⟩, h⟩
      cases he
      rw [List.contains_iff_mem.mpr hm] at hl
      exact nomatch hl

/-- A jump to a target crosses no handlers of the scope around it. -/
theorem crossed_self (scope : Scope) (labels : List String) (kind : TargetKind) (after : BlockId) :
    (scope.inside labels kind after).crossed ⟨labels, kind, after, scope.handlers.length⟩ = [] := by
  unfold crossed inside
  rw [Nat.sub_self, List.take_zero]

end Scope

/-- Whether code is left by a jump to a target. -/
def Exit.isJump : Exit → Bool
  | breaking _ | continuing _ => true
  | _ => false

/-- No execution is left by a jump. -/
def Behaviour.Plain (b : Behaviour) : Prop := ∀ w x, b w x → x.isJump = false

namespace Behaviour.Plain

variable {a b : Behaviour}

theorem completed : Plain (leave .completed) := by
  rintro w x ⟨_, rfl⟩
  rfl

theorem emit (kind : ElementKind) (span : Span) : Plain (.emit kind span) := by
  rintro w x ⟨_, rfl | rfl⟩ <;> rfl

/-- What may throw leaves by exceptions only. -/
theorem mayRaise (guarded : Bool) (declared : List TypeName) :
    Plain (.mayRaise guarded declared) := by
  rintro w x ⟨_, rfl | ⟨_, _, _, rfl⟩⟩ <;> rfl

theorem andThen (ha : a.Plain) (hb : b.Plain) : (a.andThen b).Plain := by
  rintro w x (⟨h, _⟩ | ⟨_, _, _, _, h⟩)
  · exact ha _ _ h
  · exact hb _ _ h

theorem either (ha : a.Plain) (hb : b.Plain) : (a.either b).Plain := by
  rintro w x (h | h)
  · exact ha _ _ h
  · exact hb _ _ h

end Behaviour.Plain

namespace Draft

variable {D d d₁ d' : Draft} {w : List Element} {scope : Scope} {labels : List String}
  {kind : TargetKind} {after c : BlockId}

namespace Lands

/-- A `break` inside a target leaves it here or goes on to leave one further out. -/
theorem breaking_inside {label : Option String}
    (h : Lands D (scope.inside labels kind after) [] d w (.breaking label)) :
    (label = none ∧ kind ≠ .labeled ∨ ∃ l ∈ labels, label = some l) ∧
        D.Leads w after ∨
      (label = none → kind = .labeled) ∧ (∀ l ∈ labels, label ≠ some l) ∧
        Lands D scope [] d w (.breaking label) := by
  rcases h with ⟨⟨l, hl, _⟩, _⟩ | ⟨hl, line, target, ht, hr⟩
  · exact nomatch hl
  rcases Scope.breakTarget_inside ht with ⟨hlabel, rfl⟩ | ⟨hnone, hlabel, ht⟩
  · rw [Scope.breakRoute, Scope.crossed_self] at hr
    exact Or.inl ⟨hlabel, hr.1⟩
  · exact Or.inr ⟨hnone, hlabel, Or.inr ⟨hl, line, target, ht, hr⟩⟩

/-- A `continue` inside a target goes round here or in a loop further out. -/
theorem continuing_inside {label : Option String}
    (h : Lands D (scope.inside labels kind after) [] d w (.continuing label)) :
    (∃ c, kind = .loop c ∧ (label = none ∨ ∃ l ∈ labels, label = some l) ∧
        D.Leads w c) ∨
      (∀ c, kind = .loop c → label ≠ none ∧ ∀ l ∈ labels, label ≠ some l) ∧
        Lands D scope [] d w (.continuing label) := by
  obtain ⟨line, target, next, ht, hr⟩ := h
  rcases Scope.continueTarget_inside ht with ⟨hk, hlabel, rfl⟩ | ⟨hlabel, ht⟩
  · rw [Scope.continueRoute, Scope.crossed_self] at hr
    exact Or.inl ⟨next, hk, hlabel, hr.1⟩
  · exact Or.inr ⟨hlabel, line, target, next, ht, hr⟩

/-- Exits other than jumps are the same inside a target and around it. -/
theorem of_plain {x : Exit} (h : Lands D (scope.inside labels kind after) [] d w x)
    (hx : x.isJump = false) : Lands D scope [] d w x := by
  cases x with
  | breaking label => exact nomatch hx
  | continuing label => exact nomatch hx
  | _ => exact h

/-- Leaving a loop or a `switch`: `break` goes on after it, and all else leaves the scope around
it. -/
theorem of_inside {x : Exit} (h : Lands D (scope.inside labels kind after) [] d w x)
    (hkind : kind ≠ .labeled) (hx : x ≠ .completed)
    (hround : ∀ c, kind = .loop c → x.afterContinue labels = x) (hext : d.Extends d')
    (hafter : D.Leads w after → At D d' w) : Lands D scope labels d' w x.afterBreak := by
  cases x with
  | breaking label =>
    rcases h.breaking_inside with ⟨hlabel, hp⟩ | ⟨hnone, hlabel, h⟩
    · rcases hlabel with ⟨rfl, _⟩ | ⟨l, hl, rfl⟩
      · exact hafter hp
      · exact Or.inl ⟨⟨l, hl, rfl⟩, hafter hp⟩
    · cases label with
      | none => exact absurd (hnone rfl) hkind
      | some l =>
        exact with_labels (h.of_extends hext nofun) fun l' hl he =>
          hlabel l' hl (Exit.breaking.inj he)
  | continuing label =>
    rcases h.continuing_inside with ⟨c, hk, hlabel, _⟩ | ⟨_, h⟩
    · -- The next round of the statement itself is no way to leave it.
      rcases hlabel with rfl | ⟨l, hl, rfl⟩
      · exact nomatch hround c hk
      · have hr := hround c hk
        rw [Exit.afterContinue, if_pos (List.contains_iff_mem.mpr hl)] at hr
        exact nomatch hr
    · exact with_labels (h.of_extends hext nofun) nofun
  | _ => exact with_labels ((h.of_plain rfl).of_extends hext hx) nofun

/-- Leaving a labeled statement that is no loop and no `switch`. -/
theorem of_label {label : String} {x : Exit}
    (h : Lands D (scope.inside [label] .labeled after) [] d w x) (hx : x ≠ .completed)
    (hext : d.Extends d') (hafter : D.Leads w after → At D d' w) :
    Lands D scope [] d' w (x.afterLabel label) := by
  cases x with
  | breaking target =>
    rcases h.breaking_inside with ⟨⟨_, hk⟩ | ⟨l, hl, rfl⟩, hp⟩ | ⟨_, hlabel, h⟩
    · exact absurd rfl hk
    · rw [List.mem_singleton.mp hl, Exit.afterLabel, if_pos rfl]
      exact hafter hp
    · cases target with
      | none => exact h.of_extends hext nofun
      | some l =>
        rw [Exit.afterLabel, if_neg fun he => hlabel label List.mem_cons_self (congrArg some he)]
        exact h.of_extends hext nofun
  | continuing target =>
    rcases h.continuing_inside with ⟨c, hk, _⟩ | ⟨_, h⟩
    · exact nomatch hk
    · exact h.of_extends hext nofun
  | _ => exact (h.of_plain rfl).of_extends hext hx

end Lands

/-! ## Loops -/

/-- The code of a loop is left, neither at its end nor for the next round. -/
def Escapes (D : Draft) (inner : Scope) (labels : List String) (d : Draft) (w : List Element)
    (x : Exit) : Prop :=
  x ≠ .completed ∧ x.afterContinue labels = x ∧ Lands D inner [] d w x

/-- The body of a loop has come to its end, goes on with the next round, or the loop is left. -/
theorem Lands.round {x : Exit} (h : Lands D (scope.inside labels (.loop c) after) [] d w x) :
    x.afterContinue labels = .completed ∧ (At D d w ∨ D.Leads w c) ∨
      Escapes D (scope.inside labels (.loop c) after) labels d w (x.afterContinue labels) := by
  cases x with
  | completed => exact Or.inl ⟨rfl, Or.inl h⟩
  | continuing label =>
    rcases h.continuing_inside with ⟨_, ⟨⟩, hlabel, hp⟩ | ⟨hlabel, _⟩
    · refine Or.inl ⟨?_, Or.inr hp⟩
      rcases hlabel with rfl | ⟨l, hl, rfl⟩
      · rfl
      · rw [Exit.afterContinue, if_pos (List.contains_iff_mem.mpr hl)]
    · have hsame : (Exit.continuing label).afterContinue labels = .continuing label := by
        cases label with
        | none => exact absurd rfl (hlabel c rfl).1
        | some l =>
          rw [Exit.afterContinue, if_neg]
          exact fun hl => (hlabel c rfl).2 l (List.contains_iff_mem.mp hl) rfl
      rw [hsame]
      exact Or.inr ⟨nofun, hsame, h⟩
  | _ => exact Or.inr ⟨nofun, rfl, h⟩

/-- The test of a loop, or another expression, is left by an exception. -/
theorem Lands.escapes {x : Exit} (h : Lands D scope [] d w x) (hx : x ≠ .completed)
    (plain : x.isJump = false) (hext : d.Extends d') :
    Escapes D (scope.inside labels kind after) labels d' w x := by
  have h := h.of_extends hext hx
  cases x with
  | breaking label => exact nomatch plain
  | continuing label => exact nomatch plain
  | _ => exact ⟨hx, rfl, h⟩

theorem Escapes.of_extends {inner : Scope} {x : Exit} (h : Escapes D inner labels d w x)
    (hext : d.Extends d') : Escapes D inner labels d' w x :=
  ⟨h.1, h.2.1, h.2.2.of_extends hext h.1⟩

/-- The body of a loop comes to its end, goes on with the next round or leaves the loop. -/
theorem Follows.round {t : List Element} {x : Exit} {b : Behaviour}
    (hf : Follows D (scope.inside labels (.loop c) after) [] d d₁ b) (hat : At D d w)
    (h : b.catching (.afterContinue labels) t x) :
    x = .completed ∧ (At D d₁ (w ++ t) ∨ D.Leads (w ++ t) c) ∨
      Escapes D (scope.inside labels (.loop c) after) labels d₁ (w ++ t) x := by
  obtain ⟨y, h, rfl⟩ := h
  exact (hf w hat t y h).round

/-- An expression in a loop comes to its end or leaves the loop. -/
theorem Follows.plain {t : List Element} {x : Exit} {b : Behaviour} (hf : Follows D scope [] d d₁ b)
    (hb : b.Plain) (hat : At D d w) (h : b t x) (hext : d₁.Extends d') :
    x = .completed ∧ At D d₁ (w ++ t) ∨
      Escapes D (scope.inside labels kind after) labels d' (w ++ t) x := by
  have hl := hf w hat t x h
  by_cases hx : x = .completed
  · subst hx
    exact Or.inl ⟨rfl, hl⟩
  · exact Or.inr (hl.escapes hx (hb t x h) hext)

/-- Following a loop with a header: each round leads back to the header or leaves the loop, and what
comes in place of a round leads past the loop or leaves it too. -/
theorem Follows.loop (header c after : BlockId) {round last : Behaviour}
    (enter : ∀ w, At D d w → D.Leads w header)
    (hround : ∀ w t x, D.Leads w header → round t x →
      x = .completed ∧ D.Leads (w ++ t) header ∨
        Escapes D (scope.inside labels (.loop c) after) labels d₁ (w ++ t) x)
    (hlast : ∀ w t x, D.Leads w header → last t x →
      x = .completed ∧ D.Leads (w ++ t) after ∨
        Escapes D (scope.inside labels (.loop c) after) labels d₁ (w ++ t) x)
    (hext : d₁.Extends d') (hafter : ∀ w, D.Leads w after → At D d' w) :
    Follows D scope labels d d' (.catching .afterBreak (.Rounds round last)) := by
  -- Induction on the rounds, from any path to the header on.
  have rounds : ∀ {t x}, Behaviour.Rounds round last t x → ∀ w, D.Leads w header →
      x = .completed ∧ D.Leads (w ++ t) after ∨
        Escapes D (scope.inside labels (.loop c) after) labels d₁ (w ++ t) x := by
    intro t x h
    induction h with
    | last h => exact fun w hp => hlast w _ _ hp h
    | next h _ ih =>
      intro w hp
      rcases hround w _ _ hp h with ⟨_, hp⟩ | ⟨hx, _⟩
      · rw [← List.append_assoc]
        exact ih _ hp
      · exact absurd rfl hx
    | left h hx =>
      intro w hp
      rcases hround w _ _ hp h with ⟨rfl, _⟩ | hesc
      · exact absurd rfl hx
      · exact Or.inr hesc
  rintro w hat t _ ⟨x, h, rfl⟩
  rcases rounds h w (enter w hat) with ⟨rfl, hp⟩ | ⟨hx, hsame, hl⟩
  · exact hafter _ hp
  · exact hl.of_inside nofun hx (fun _ _ => hsame) hext (hafter _)

end Draft

/-! ## Expressions leave by exceptions only -/

section Expressions

variable {guarded : Bool}

theorem Expr.plain_option {e : Option Expr}
    (ih : ∀ e', e = some e' → (e'.behaviour guarded).Plain) :
    (Expr.behaviourOption guarded e).Plain := by
  cases e with
  | none =>
    rw [Expr.behaviourOption]
    exact .completed
  | some e =>
    rw [Expr.behaviourOption]
    exact ih e rfl

/-- Expressions drawn one after another leave by exceptions only. -/
theorem Expr.plain_all {es : List Expr} (ih : ∀ e ∈ es, (e.behaviour guarded).Plain) :
    (Expr.behaviourAll guarded es).Plain := by
  induction es with
  | nil =>
    rw [Expr.behaviourAll]
    exact .completed
  | cons e es ihs =>
    rw [Expr.behaviourAll]
    exact .andThen (ih e List.mem_cons_self) (ihs fun e' hm => ih e' (List.mem_cons_of_mem _ hm))

private theorem plain_operator (kind : ElementKind) (span : Span) (mayThrow : Bool) :
    ((Behaviour.emit kind span).andThen
      (if mayThrow then .mayRaise guarded [] else .leave .completed)).Plain := by
  refine .andThen (.emit kind span) ?_
  split
  · exact .mayRaise _ _
  · exact .completed

/-- No expression is left by a jump. -/
theorem Expr.plain (e : Expr) : (e.behaviour guarded).Plain := by
  induction e using Expr.induct with
  | binary op left right span ihl ihr =>
    rw [Expr.behaviour]
    exact .andThen (.andThen ihl ihr) (plain_operator _ _ _)
  | unary op arg span ih =>
    rw [Expr.behaviour]
    exact .andThen ih (.emit _ _)
  | assign op target value span iht ihv =>
    rw [Expr.behaviour]
    refine .andThen (.andThen ?_ ihv) (plain_operator _ _ _)
    split
    · exact .completed
    · exact iht
  | cond test cons alt span iht ihc iha =>
    rw [Expr.behaviour]
    exact .andThen iht (.either ihc iha)
  | call receiver method args throws span ihr iha =>
    rw [Expr.behaviour]
    exact .andThen (.andThen (Expr.plain_option ihr) (Expr.plain_all iha))
      (.andThen (.emit _ _) (.mayRaise _ _))
  | new cls args throws span ih =>
    rw [Expr.behaviour]
    exact .andThen (Expr.plain_all ih) (.andThen (.emit _ _) (.mayRaise _ _))
  | newArray elem dims init span ihd ihi =>
    rw [Expr.behaviour]
    exact .andThen (.andThen (Expr.plain_all ihd) (Expr.plain_all ihi))
      (.andThen (.emit _ _) (.mayRaise _ _))
  | index array offset span iha iho =>
    rw [Expr.behaviour]
    exact .andThen (.andThen iha iho) (.andThen (.emit _ _) (.mayRaise _ _))
  | instanceOf inner ty span ih =>
    rw [Expr.behaviour]
    exact .andThen ih (.emit _ _)
  | member object field span ih | cast ty inner span ih =>
    rw [Expr.behaviour]
    exact .andThen ih (.andThen (.emit _ _) (.mayRaise _ _))
  | paren inner span ih =>
    rw [Expr.behaviour]
    exact ih
  | _ =>
    rw [Expr.behaviour]
    exact .emit _ _

end Expressions

end MethodFlow
