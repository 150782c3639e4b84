import MethodFlow.Proofs.Induction
import MethodFlow.Proofs.Passage

/-!
# Expressions are drawn faithfully

`Part scope labels d d' b` says all there is to say about a piece of code with behaviour `b` that is
drawn from `d` to `d'`. First, drawing it is a run that leaves the waiting blocks as they were: a
construct opens every block that it makes. Secondly, every execution of `b` can be followed in the
drawing. Parts that come one after the other are put together by `Part.andThen`, and so the proof
for an expression follows its definition; only the conditional operator has blocks of its own.

Main result: `Expr.faithful`.
-/

namespace MethodFlow

namespace Draft

/-- Code with behaviour `b`, and with labels in front of it, was drawn from `d` to `d'`. -/
structure Part (scope : Scope) (labels : List String) (d d' : Draft) (b : Behaviour) : Prop where
  drawn : Drawn scope d d' d.Waiting
  follows : ∀ {D : Draft}, d'.Extends D → Follows D scope labels d d' b

variable {scope : Scope} {labels : List String} {d d₁ d₂ : Draft} {a b : Behaviour}

theorem Part.extends (h : Part scope labels d d₁ b) (hd : d.Steady) : d.Extends d₁ :=
  h.drawn.run.extends hd

namespace Part

theorem fits (h : Part scope labels d d₁ b) (hd : d.Steady) (hfit : scope.Fits d) : scope.Fits d₁ :=
  h.drawn.fits hd hfit fun _ _ hid => hid

theorem skip (hd : d.Steady) : Part scope [] d d (.leave .completed) :=
  ⟨.refl hd, fun _ => .skip _ _ _⟩

/-- Labels go to the last of the parts that follow one another. -/
theorem andThen_labeled (ha : Part scope [] d d₁ a) (hd : d.Steady) (hfit : scope.Fits d)
    (hl : ∀ l ∈ labels, scope.hasLabel l = false)
    (hb : d₁.Steady → scope.Fits d₁ → Part scope labels d₁ d₂ b) :
    Part scope labels d d₂ (a.andThen b) := by
  have hb := hb ha.drawn.steady (ha.fits hd hfit)
  have hext := hb.extends ha.drawn.steady
  exact ⟨ha.drawn.part hd hb.drawn fun _ hp => Or.inl hp,
    fun h => (ha.follows (hext.trans h)).andThen (hb.follows h) hl hext⟩

theorem andThen (ha : Part scope [] d d₁ a) (hd : d.Steady) (hfit : scope.Fits d)
    (hb : d₁.Steady → scope.Fits d₁ → Part scope [] d₁ d₂ b) : Part scope [] d d₂ (a.andThen b) :=
  ha.andThen_labeled hd hfit nofun hb

theorem emit (hd : d.Steady) (kind : ElementKind) (span : Span) :
    Part scope [] d (d.emit kind span) (.emit kind span) :=
  ⟨(Drawn.refl hd).emit kind span, .emit kind span⟩

/-- Raising is a part that may leave by an exception. -/
theorem raise (hd : d.Steady) (hfit : scope.Fits d) {id : BlockId} (isOpen : d.current = some id)
    (declared : List TypeName) :
    Part scope [] d (d.raise scope declared) (.mayRaise (!scope.handlers.isEmpty) declared) :=
  ⟨.raise hd isOpen hfit declared, .raise declared⟩

end Part

end Draft

open Draft (Drawn Part)

/-! ## How expressions are put together -/

/-- The expressions drawn in a scope are in a relation `P` with their behaviour. -/
def Expr.Obeys (scope : Scope) (P : Draft → Draft → Behaviour → Prop) (e : Expr) : Prop :=
  ∀ {d : Draft}, d.Steady → scope.Fits d →
    P d (e.draw scope d) (e.behaviour (!scope.handlers.isEmpty))

/-- The relation is kept by all the ways in which expressions are put together. -/
structure Expr.Compositional (scope : Scope) (P : Draft → Draft → Behaviour → Prop) : Prop where
  skip : ∀ {d : Draft}, d.Steady → P d d (.leave .completed)
  andThen : ∀ {d d₁ d₂ : Draft} {a b : Behaviour}, P d d₁ a → d.Steady → scope.Fits d →
    (d₁.Steady → scope.Fits d₁ → P d₁ d₂ b) → P d d₂ (a.andThen b)
  emit : ∀ {d : Draft}, d.Steady → ∀ kind span, P d (d.emit kind span) (.emit kind span)
  raise : ∀ {d : Draft} {id : BlockId}, d.Steady → scope.Fits d → d.current = some id →
    ∀ declared, P d (d.raise scope declared) (.mayRaise (!scope.handlers.isEmpty) declared)
  cond : ∀ {test cons alt : Expr} (span : Span), test.Obeys scope P → cons.Obeys scope P →
    alt.Obeys scope P → (Expr.cond test cons alt span).Obeys scope P

section Composition

variable {scope : Scope} {P : Draft → Draft → Behaviour → Prop} {d : Draft}

theorem Expr.Compositional.emit_raise (h : Expr.Compositional scope P) (hd : d.Steady)
    (hfit : scope.Fits d) (kind : ElementKind) (span : Span) (declared : List TypeName) :
    P d ((d.emit kind span).raise scope declared)
      ((Behaviour.emit kind span).andThen (.mayRaise (!scope.handlers.isEmpty) declared)) :=
  h.andThen (h.emit hd kind span) hd hfit fun hd hfit =>
    h.raise hd hfit (d.current_emit kind span) declared

/-- An operator that may raise an unchecked exception, or not. -/
theorem Expr.Compositional.emit_operator (h : Expr.Compositional scope P) (hd : d.Steady)
    (hfit : scope.Fits d) (kind : ElementKind) (span : Span) (mayThrow : Bool) :
    P d (if mayThrow then (d.emit kind span).raise scope [] else d.emit kind span)
      ((Behaviour.emit kind span).andThen
        (if mayThrow then .mayRaise (!scope.handlers.isEmpty) [] else .leave .completed)) := by
  cases mayThrow with
  | false => exact h.andThen (h.emit hd kind span) hd hfit fun hd _ => h.skip hd
  | true => exact h.emit_raise hd hfit kind span []

theorem Expr.compose_option (h : Expr.Compositional scope P) {e : Option Expr}
    (ih : ∀ e', e = some e' → e'.Obeys scope P) (hd : d.Steady) (hfit : scope.Fits d) :
    P d (Expr.drawOption scope e d) (Expr.behaviourOption (!scope.handlers.isEmpty) e) := by
  cases e with
  | none =>
    rw [Expr.drawOption, Expr.behaviourOption]
    exact h.skip hd
  | some e =>
    rw [Expr.drawOption, Expr.behaviourOption]
    exact ih e rfl hd hfit

/-- A property of drawing that composes holds of expressions drawn one after another. -/
theorem Expr.compose_all (h : Expr.Compositional scope P) {es : List Expr}
    (ih : ∀ e ∈ es, e.Obeys scope P) (hd : d.Steady) (hfit : scope.Fits d) :
    P d (Expr.drawAll scope es d) (Expr.behaviourAll (!scope.handlers.isEmpty) es) := by
  induction es generalizing d with
  | nil =>
    rw [Expr.drawAll, Expr.behaviourAll]
    exact h.skip hd
  | cons e es ihs =>
    rw [Expr.drawAll, Expr.behaviourAll]
    exact h.andThen (ih e List.mem_cons_self hd hfit) hd hfit
      (ihs fun e' hm => ih e' (List.mem_cons_of_mem _ hm))

/-- Every expression obeys a relation that is kept by the ways to put expressions together. -/
theorem Expr.compose (h : Expr.Compositional scope P) (e : Expr) : e.Obeys scope P := by
  induction e using Expr.induct with
  | name ident span | this span | literal value span | lambda span =>
    intro d hd hfit
    rw [Expr.draw, Expr.behaviour]
    exact h.emit hd _ span
  | binary op left right span ihl ihr =>
    intro d hd hfit
    rw [Expr.draw, Expr.behaviour]
    exact h.andThen (h.andThen (ihl hd hfit) hd hfit ihr) hd hfit
      fun hd hfit => h.emit_operator hd hfit _ span _
  | assign op target value span iht ihv =>
    intro d hd hfit
    rw [Expr.draw, Expr.behaviour]
    -- An assigned plain name is not evaluated.
    have ht : P d (if target.plainName?.isSome then d else target.draw scope d)
        (if target.plainName?.isSome then .leave .completed
          else target.behaviour (!scope.handlers.isEmpty)) := by
      split
      · exact h.skip hd
      · exact iht hd hfit
    exact h.andThen (h.andThen ht hd hfit ihv) hd hfit fun hd hfit =>
      h.emit_operator hd hfit _ span _
  | cond test cons alt span iht ihc iha => exact h.cond span iht ihc iha
  | call receiver method args throws span ihr iha =>
    intro d hd hfit
    rw [Expr.draw, Expr.behaviour]
    exact h.andThen
      (h.andThen (Expr.compose_option h ihr hd hfit) hd hfit (Expr.compose_all h iha)) hd hfit
      fun hd hfit => h.emit_raise hd hfit _ span throws
  | new cls args throws span ih =>
    intro d hd hfit
    rw [Expr.draw, Expr.behaviour]
    exact h.andThen (Expr.compose_all h ih hd hfit) hd hfit fun hd hfit =>
      h.emit_raise hd hfit _ span throws
  | newArray elem dims init span ihd ihi =>
    intro d hd hfit
    rw [Expr.draw, Expr.behaviour]
    exact h.andThen
      (h.andThen (Expr.compose_all h ihd hd hfit) hd hfit (Expr.compose_all h ihi)) hd hfit
      fun hd hfit => h.emit_raise hd hfit _ span []
  | index array offset span iha iho =>
    intro d hd hfit
    rw [Expr.draw, Expr.behaviour]
    exact h.andThen (h.andThen (iha hd hfit) hd hfit iho) hd hfit
      fun hd hfit => h.emit_raise hd hfit _ span []
  | member _ _ span ih | cast _ _ span ih =>
    intro d hd hfit
    rw [Expr.draw, Expr.behaviour]
    exact h.andThen (ih hd hfit) hd hfit fun hd hfit => h.emit_raise hd hfit _ span []
  | unary _ _ span ih | instanceOf _ _ span ih =>
    intro d hd hfit
    rw [Expr.draw, Expr.behaviour]
    exact h.andThen (ih hd hfit) hd hfit fun hd _ => h.emit hd _ span
  | paren inner span ih =>
    intro d hd hfit
    rw [Expr.draw, Expr.behaviour]
    exact ih hd hfit

theorem LocalVar.compose (h : Expr.Compositional scope P) (decl : LocalVar) (hd : d.Steady)
    (hfit : scope.Fits d) : P d (decl.draw scope d) (decl.behaviour (!scope.handlers.isEmpty)) :=
  h.andThen (Expr.compose_option h (fun e _ => e.compose h) hd hfit) hd hfit fun hd _ =>
    h.emit hd _ decl.span

/-- Resources are drawn as declarations that may throw. -/
theorem LocalVar.compose_resources (h : Expr.Compositional scope P) (decls : List LocalVar)
    (hg : (!scope.handlers.isEmpty) = true) (hd : d.Steady) (hfit : scope.Fits d) :
    P d (LocalVar.drawResources scope decls d) (LocalVar.behaviourResources decls) := by
  induction decls generalizing d with
  | nil => exact h.skip hd
  | cons decl decls ih =>
    rw [LocalVar.behaviourResources, ← hg]
    exact h.andThen (h.andThen (decl.compose h hd hfit) hd hfit fun hd hfit =>
      h.raise hd hfit (Draft.current_emit ..) _) hd hfit ih

end Composition

/-! ## Expressions and declarations as parts -/

namespace Draft

/-- A part drawn in a scope leaves the waiting blocks as they were. -/
def Draws (scope : Scope) (d d' : Draft) : Prop :=
  d.Steady → scope.Fits d → Drawn scope d d' d.Waiting

/-- The branches of a conditional operator, after its test. -/
structure CondDrawn (scope : Scope) (d d₁ d₂ : Draft) (cons alt test : Span) : Prop where
  opened : Drawn scope d (d.openCond cons alt test)
    fun id => d.Waiting id ∨ id = d.fresh + 1 ∨ id = d.fresh + 2
  fits_cons : scope.Fits (d.openCond cons alt test)
  after_cons : Drawn scope d d₁ fun id => d.Waiting id ∨ id = d.fresh + 1 ∨ id = d.fresh + 2
  turned : Drawn scope d ((d₁.fallInto (d.fresh + 2)).start (d.fresh + 1))
    fun id => d.Waiting id ∨ id = d.fresh + 2
  fits_alt : scope.Fits ((d₁.fallInto (d.fresh + 2)).start (d.fresh + 1))
  after_alt : Drawn scope d d₂ fun id => d.Waiting id ∨ id = d.fresh + 2
  whole : Drawn scope d (d₂.continueAt (d.fresh + 2)) d.Waiting

/-- The blocks of a conditional expression wait where its parts expect them. -/
theorem CondDrawn.of_parts {cons alt test : Span} (hd : d.Steady) (hfit : scope.Fits d)
    (hcons : Draws scope (d.openCond cons alt test) d₁)
    (halt : Draws scope ((d₁.fallInto (d.fresh + 2)).start (d.fresh + 1)) d₂) :
    CondDrawn scope d d₁ d₂ cons alt test := by
  have hlt : ∀ id, d.Waiting id → id < d.fresh := fun id hid => hid.lt
  have keep : ∀ p, scope.Registers p → scope.Registers p ∨ d.fresh ≤ p.1 := fun _ hp => Or.inl hp
  have hc₀ : Drawn scope d _ _ := (Drawn.refl hd).openCond cons alt test
  have hfitc := hc₀.fits hd hfit fun _ _ hid => Or.inl hid
  have hc := hc₀.part hd (hcons hc₀.steady hfitc) keep
  have ha₀ : Drawn scope d ((d₁.fallInto (d.fresh + 2)).start (d.fresh + 1))
      fun id => d.Waiting id ∨ id = d.fresh + 2 :=
    ((hc.fallInto (d.fresh + 2) (by grind)).start (d.fresh + 1) (by simp) (by grind)).congr
    (by grind)
  have hfita := ha₀.fits hd hfit fun _ _ hid => Or.inl hid
  have ha := ha₀.part hd (halt ha₀.steady hfita) keep
  exact ⟨hc₀, hfitc, hc, ha₀, hfita, ha,
    (ha.continueAt (d.fresh + 2) (Or.inr rfl)).congr (by grind)⟩

end Draft

section Expressions

variable {scope : Scope} {d : Draft}

/-- The conditional operator evaluates its test and then one of its branches. -/
theorem Expr.part_cond {test cons alt : Expr} (span : Span) (iht : test.Obeys scope (Part scope []))
    (ihc : cons.Obeys scope (Part scope [])) (iha : alt.Obeys scope (Part scope [])) :
    (Expr.cond test cons alt span).Obeys scope (Part scope []) := by
  intro d hd hfit
  rw [Expr.draw_cond, Expr.behaviour]
  refine (iht hd hfit).andThen hd hfit ?_
  generalize test.draw scope d = d
  intro hd hfit
  have h : Draft.CondDrawn scope d _ _ cons.span alt.span test.span :=
    .of_parts hd hfit (fun hd hfit => (ihc hd hfit).drawn) fun hd hfit => (iha hd hfit).drawn
  have hpc := ihc h.opened.steady h.fits_cons
  have hpa := iha h.turned.steady h.fits_alt
  generalize hdc : cons.draw scope (d.openCond cons.span alt.span test.span) = dc at *
  generalize hda : alt.draw scope ((dc.fallInto (d.fresh + 2)).start (d.fresh + 1)) = da at *
  simp only [hdc, hda]
  refine ⟨h.whole, fun {D} hext w hat t x hx => ?_⟩
  have idle := dc.current_fallInto (d.fresh + 2)
  have hext_a := Draft.extends_continueAt h.after_alt.steady (d.fresh + 2)
  have hext_f :=
    ((Draft.extends_start idle (d.fresh + 1)).trans (hpa.extends h.turned.steady)).trans hext_a
  have hext_c := (Draft.extends_fallInto h.after_cons.steady (d.fresh + 2)).trans hext_f
  obtain ⟨hin, hpast⟩ := hat.openCond hd ((hpc.extends h.opened.steady).trans (hext_c.trans hext))
  have hblank := ((Draft.blank_openCond hd cons.span alt.span test.span).part h.opened.steady
    hpc.drawn).fallInto h.after_cons.steady (d.fresh + 2)
  have hjoin := (h.after_alt.waiting (d.fresh + 2)).mpr (Or.inr rfl)
  have hjoin_blank := (hblank.start idle (d.fresh + 1)).part h.turned.steady hpa.drawn (d.fresh + 2)
    (Nat.le_add_right _ _) hjoin
  rcases hx with hx | hx
  · refine (hpc.follows (hext_c.trans hext) w hin t x hx).mono hext_c fun hat => ?_
    exact .continueAt_of_path (hat.fallInto h.after_cons.steady (hext_f.trans hext))
      h.after_alt.steady hjoin
      hjoin_blank
  · have hother := (Draft.waiting_fallInto h.after_cons.steady (d.fresh + 2) (d.fresh + 1)).mpr
      ((h.after_cons.waiting _).mpr (Or.inr (Or.inl rfl)))
    have hat := Draft.At.start_nil hpast (hblank _ (Nat.le_succ _) hother) idle
    refine (hpa.follows (hext_a.trans hext) w hat t x hx).mono hext_a fun hat => ?_
    exact hat.continueAt h.after_alt.steady hjoin hjoin_blank hext

/-- Being a faithful part composes. -/
theorem Expr.compositional_part (scope : Scope) : Expr.Compositional scope (Part scope []) where
  skip := .skip
  andThen := .andThen
  emit := .emit
  raise := fun hd hfit isOpen declared => .raise hd hfit isOpen declared
  cond := Expr.part_cond

/-- Every expression is drawn faithfully. -/
theorem Expr.faithful (e : Expr) : e.Obeys scope (Part scope []) :=
  e.compose (Expr.compositional_part scope)

theorem Expr.faithful_option (e : Option Expr) (hd : d.Steady) (hfit : scope.Fits d) :
    Part scope [] d (Expr.drawOption scope e d)
      (Expr.behaviourOption (!scope.handlers.isEmpty) e) :=
  Expr.compose_option (Expr.compositional_part scope) (fun e _ => e.faithful) hd hfit

theorem Expr.faithful_all (es : List Expr) (hd : d.Steady) (hfit : scope.Fits d) :
    Part scope [] d (Expr.drawAll scope es d) (Expr.behaviourAll (!scope.handlers.isEmpty) es) :=
  Expr.compose_all (Expr.compositional_part scope) (fun e _ => e.faithful) hd hfit

theorem LocalVar.part (decl : LocalVar) (hd : d.Steady) (hfit : scope.Fits d) :
    Part scope [] d (decl.draw scope d) (decl.behaviour (!scope.handlers.isEmpty)) :=
  decl.compose (Expr.compositional_part scope) hd hfit

theorem LocalVar.part_resources (decls : List LocalVar) (hg : (!scope.handlers.isEmpty) = true)
    (hd : d.Steady) (hfit : scope.Fits d) :
    Part scope [] d (LocalVar.drawResources scope decls d) (LocalVar.behaviourResources decls) :=
  LocalVar.compose_resources (Expr.compositional_part scope) decls hg hd hfit

end Expressions

end MethodFlow
