import MethodFlow.Proofs.Contents

/-!
# What the blocks of a graph hold

Each construct adds its own elements to the text of the draft, whatever blocks it is spread over:
the parts do so by induction, and the pieces between them add nothing. At the end every block has
been opened, so the text of the whole drawing is what the blocks hold, in the order in which they
were opened.

Main result: `Graph.build_elements`, that the blocks of a graph can be put in an order in which they
read as the body does.
-/

namespace MethodFlow

/-! ## Expressions -/

open Draft (Drawn)

/-- Drawing an expression adds its elements to the text. -/
def Expr.Writes (e : Expr) : Prop :=
  ∀ {scope : Scope} {d : Draft}, d.Steady → scope.Fits d →
    (e.draw scope d).text = d.text ++ e.elements

section Expressions

variable {scope : Scope} {d : Draft}

theorem Expr.settled (e : Expr) (hd : d.Steady) (hfit : scope.Fits d) :
    (e.draw scope d).Steady ∧ scope.Fits (e.draw scope d) :=
  ⟨(e.faithful hd hfit).drawn.steady, (e.faithful hd hfit).fits hd hfit⟩

theorem Expr.settled_option (e : Option Expr) (hd : d.Steady) (hfit : scope.Fits d) :
    (Expr.drawOption scope e d).Steady ∧ scope.Fits (Expr.drawOption scope e d) :=
  ⟨(Expr.faithful_option e hd hfit).drawn.steady, (Expr.faithful_option e hd hfit).fits hd hfit⟩

theorem Expr.settled_all (es : List Expr) (hd : d.Steady) (hfit : scope.Fits d) :
    (Expr.drawAll scope es d).Steady ∧ scope.Fits (Expr.drawAll scope es d) :=
  ⟨(Expr.faithful_all es hd hfit).drawn.steady, (Expr.faithful_all es hd hfit).fits hd hfit⟩

theorem Expr.text_option_of {e : Option Expr} (ih : ∀ e', e = some e' → e'.Writes) (hd : d.Steady)
    (hfit : scope.Fits d) : (Expr.drawOption scope e d).text = d.text ++ Expr.elementsOption e := by
  cases e with
  | none => rw [Expr.drawOption, Expr.elementsOption, List.append_nil]
  | some e =>
    rw [Expr.drawOption, Expr.elementsOption]
    exact ih e rfl hd hfit

theorem Expr.text_all_of {es : List Expr} (ih : ∀ e ∈ es, e.Writes) (hd : d.Steady)
    (hfit : scope.Fits d) : (Expr.drawAll scope es d).text = d.text ++ Expr.elementsAll es := by
  induction es generalizing d with
  | nil => rw [Expr.drawAll, Expr.elementsAll, List.append_nil]
  | cons e es ihs =>
    obtain ⟨hd₁, hfit₁⟩ := e.settled hd hfit
    rw [Expr.drawAll, Expr.elementsAll,
      ihs (fun e' hm => ih e' (List.mem_cons_of_mem _ hm)) hd₁ hfit₁,
        ih e List.mem_cons_self hd hfit, List.append_assoc]

/-- The element of an operator, which may raise an exception or not. -/
theorem Draft.text_operator (hd : d.Steady) (kind : ElementKind) (span : Span) (scope : Scope)
    (mayThrow : Bool) :
    (if mayThrow then (d.emit kind span).raise scope [] else d.emit kind span).text =
      d.text ++ [⟨kind, span⟩] := by
  split
  · exact text_emit_raise hd kind span scope []
  · exact text_emit hd kind span

/-- The branches of a conditional operator stand in blocks of their own, one after the other. -/
theorem Expr.writes_cond {test cons alt : Expr} (span : Span) (iht : test.Writes)
    (ihc : cons.Writes) (iha : alt.Writes) : (Expr.cond test cons alt span).Writes := by
  intro scope d hd hfit
  rw [Expr.draw_cond, Expr.elements]
  obtain ⟨hdt, hfitt⟩ := test.settled hd hfit
  have ht := iht hd hfit
  generalize test.draw scope d = dt at *
  have h : Draft.CondDrawn scope dt _ _ cons.span alt.span test.span :=
    .of_parts hdt hfitt (fun hd hfit => (cons.faithful hd hfit).drawn)
      fun hd hfit => (alt.faithful hd hfit).drawn
  have hpc := (cons.faithful h.opened.steady h.fits_cons).drawn
  have hpa := (alt.faithful h.turned.steady h.fits_alt).drawn
  have hc := ihc h.opened.steady h.fits_cons
  have ha := iha h.turned.steady h.fits_alt
  dsimp only
  generalize cons.draw scope (dt.openCond cons.span alt.span test.span) = dc at *
  generalize alt.draw scope ((dc.fallInto (dt.fresh + 2)).start (dt.fresh + 1)) = da at *
  have idle := dc.current_fallInto (dt.fresh + 2)
  have hblank :=
    ((Draft.blank_openCond hdt cons.span alt.span test.span).part h.opened.steady hpc).fallInto
    h.after_cons.steady (dt.fresh + 2)
  have hother := (Draft.waiting_fallInto h.after_cons.steady (dt.fresh + 2) (dt.fresh + 1)).mpr
    ((h.after_cons.waiting _).mpr (Or.inr (Or.inl rfl)))
  have hjoin := (h.after_alt.waiting (dt.fresh + 2)).mpr (Or.inr rfl)
  have hjoin_blank := (hblank.start idle (dt.fresh + 1)).part h.turned.steady hpa (dt.fresh + 2)
    (Nat.le_add_right _ _) hjoin
  calc (da.continueAt (dt.fresh + 2)).text
      = da.text := Draft.text_continueAt h.after_alt.steady hjoin hjoin_blank
    _ = dc.text ++ alt.elements := by
        rw [ha, Draft.text_start_nil idle (hblank _ (Nat.le_succ _) hother),
          Draft.text_fallInto h.after_cons.steady]
    _ = d.text ++ (test.elements ++ cons.elements ++ alt.elements) := by
        rw [hc, Draft.text_openCond hdt, ht, List.append_assoc, List.append_assoc,
          List.append_assoc]

/-- Every expression writes its elements. -/
theorem Expr.writes (e : Expr) : e.Writes := by
  induction e using Expr.induct with
  | name ident span | this span | literal value span | lambda span =>
    intro scope d hd hfit
    rw [Expr.draw, Expr.elements]
    exact Draft.text_emit hd _ span
  | binary op left right span ihl ihr =>
    intro scope d hd hfit
    obtain ⟨hd₁, hfit₁⟩ := left.settled hd hfit
    obtain ⟨hd₂, _⟩ := right.settled hd₁ hfit₁
    rw [Expr.draw, Expr.elements, ← List.append_assoc, ← List.append_assoc, ← ihl hd hfit,
      ← ihr hd₁ hfit₁]
    exact Draft.text_operator hd₂ _ span scope _
  | assign op target value span iht ihv =>
    intro scope d hd hfit
    rw [Expr.draw, Expr.elements]
    -- A plain name is not evaluated.
    have ht : ∃ d₁, (if target.plainName?.isSome then d else target.draw scope d) = d₁ ∧
        d₁.Steady ∧ scope.Fits d₁ ∧
        d₁.text = d.text ++ if target.plainName?.isSome then [] else target.elements := by
      refine ⟨_, rfl, ?_⟩
      split
      · exact ⟨hd, hfit, (List.append_nil _).symm⟩
      · obtain ⟨hd₁, hfit₁⟩ := target.settled hd hfit
        exact ⟨hd₁, hfit₁, iht hd hfit⟩
    obtain ⟨d₁, he, hd₁, hfit₁, htext⟩ := ht
    obtain ⟨hd₂, _⟩ := value.settled hd₁ hfit₁
    rw [he, ← List.append_assoc, ← List.append_assoc, ← htext, ← ihv hd₁ hfit₁]
    exact Draft.text_operator hd₂ _ span scope _
  | cond test cons alt span iht ihc iha => exact Expr.writes_cond span iht ihc iha
  | call receiver method args throws span ihr iha =>
    intro scope d hd hfit
    obtain ⟨hd₁, hfit₁⟩ := Expr.settled_option receiver hd hfit
    obtain ⟨hd₂, _⟩ := Expr.settled_all args hd₁ hfit₁
    rw [Expr.draw, Expr.elements, Draft.text_emit_raise hd₂, Expr.text_all_of iha hd₁ hfit₁,
      Expr.text_option_of ihr hd hfit, List.append_assoc, List.append_assoc, List.append_assoc]
  | new cls args throws span ih =>
    intro scope d hd hfit
    obtain ⟨hd₁, _⟩ := Expr.settled_all args hd hfit
    rw [Expr.draw, Expr.elements, Draft.text_emit_raise hd₁, Expr.text_all_of ih hd hfit,
      List.append_assoc]
  | newArray elem dims init span ihd ihi =>
    intro scope d hd hfit
    obtain ⟨hd₁, hfit₁⟩ := Expr.settled_all dims hd hfit
    obtain ⟨hd₂, _⟩ := Expr.settled_all init hd₁ hfit₁
    rw [Expr.draw, Expr.elements, Draft.text_emit_raise hd₂, Expr.text_all_of ihi hd₁ hfit₁,
      Expr.text_all_of ihd hd hfit, List.append_assoc, List.append_assoc, List.append_assoc]
  | index array offset span iha iho =>
    intro scope d hd hfit
    obtain ⟨hd₁, hfit₁⟩ := array.settled hd hfit
    obtain ⟨hd₂, _⟩ := offset.settled hd₁ hfit₁
    rw [Expr.draw, Expr.elements, Draft.text_emit_raise hd₂, iho hd₁ hfit₁, iha hd hfit,
      List.append_assoc, List.append_assoc, List.append_assoc]
  | member inner _ span ih | cast _ inner span ih =>
    intro scope d hd hfit
    obtain ⟨hd₁, _⟩ := inner.settled hd hfit
    rw [Expr.draw, Expr.elements, Draft.text_emit_raise hd₁, ih hd hfit, List.append_assoc]
  | unary _ inner span ih | instanceOf inner _ span ih =>
    intro scope d hd hfit
    obtain ⟨hd₁, _⟩ := inner.settled hd hfit
    rw [Expr.draw, Expr.elements, Draft.text_emit hd₁, ih hd hfit, List.append_assoc]
  | paren inner span ih =>
    intro scope d hd hfit
    rw [Expr.draw, Expr.elements]
    exact ih hd hfit

theorem Expr.text_option (e : Option Expr) (hd : d.Steady) (hfit : scope.Fits d) :
    (Expr.drawOption scope e d).text = d.text ++ Expr.elementsOption e :=
  Expr.text_option_of (fun e _ => e.writes) hd hfit

theorem Expr.text_all (es : List Expr) (hd : d.Steady) (hfit : scope.Fits d) :
    (Expr.drawAll scope es d).text = d.text ++ Expr.elementsAll es :=
  Expr.text_all_of (fun e _ => e.writes) hd hfit

theorem LocalVar.text_draw (decl : LocalVar) (hd : d.Steady) (hfit : scope.Fits d) :
    (decl.draw scope d).text = d.text ++ decl.elements := by
  obtain ⟨hd₁, _⟩ := Expr.settled_option decl.init hd hfit
  rw [LocalVar.draw, Draft.text_emit hd₁, Expr.text_option decl.init hd hfit, List.append_assoc,
    LocalVar.elements]

theorem LocalVar.text_resources (decls : List LocalVar) (hd : d.Steady) (hfit : scope.Fits d) :
    (LocalVar.drawResources scope decls d).text = d.text ++ decls.flatMap (·.elements) := by
  induction decls generalizing d with
  | nil => exact (List.append_nil _).symm
  | cons decl decls ih =>
    have hp := decl.part hd hfit
    have hraise := Draft.Part.raise hp.drawn.steady (hp.fits hd hfit) (Draft.current_emit ..)
      [Throwable.exception]
    rw [LocalVar.drawResources,
      ih hraise.drawn.steady (hraise.fits hp.drawn.steady (hp.fits hd hfit)),
      Draft.text_raise, decl.text_draw hd hfit, List.flatMap_cons, List.append_assoc]

end Expressions

/-! ## Statements -/

/-- Drawing a statement adds its elements to the text. -/
def Stmt.Writes (s : Stmt) : Prop :=
  ∀ {scope : Scope} {labels : List String} {d d' : Draft}, d.Steady → scope.Fits d →
    s.draw scope labels d = .ok d' → d'.text = d.text ++ s.elements

section Lists

variable {scope : Scope} {d d' : Draft}

/-- Statements drawn one after another write their elements in this order. -/
theorem Stmt.text_all_of {stmts : List Stmt} (ih : ∀ s ∈ stmts, s.Writes) (hd : d.Steady)
    (hfit : scope.Fits d) (h : Stmt.drawAll stmts scope d = .ok d') :
    d'.text = d.text ++ Stmt.elementsAll stmts := by
  induction stmts generalizing d with
  | nil =>
    rw [Stmt.drawAll] at h
    cases h
    rw [Stmt.elementsAll, List.append_nil]
  | cons s stmts ihs =>
    rw [Stmt.drawAll] at h
    obtain ⟨d₁, h₁, h⟩ := Except.of_bind_ok h
    have hp := s.draws h₁ hd hfit
    rw [Stmt.elementsAll, ← List.append_assoc, ← ih s List.mem_cons_self hd hfit h₁]
    exact ihs (fun s hm => ih s (List.mem_cons_of_mem _ hm)) hp.steady
      (hp.fits hd hfit fun _ _ hid => hid) h

/-- Case groups write their bodies in the order of the text. -/
theorem CaseGroup.text_all_of {groups : List CaseGroup} {block after : BlockId}
    (ih : ∀ group ∈ groups, ∀ s ∈ group.body, s.Writes)
    (hr : CaseGroup.Ready scope groups block after d)
    (h : CaseGroup.drawAll groups scope block after d = .ok d') :
    d'.text = d.text ++ CaseGroup.elementsAll groups := by
  induction groups generalizing d block with
  | nil =>
    rw [CaseGroup.drawAll] at h
    cases h
    rw [CaseGroup.elementsAll, List.append_nil]
  | cons group groups ihg =>
    rw [CaseGroup.drawAll_cons] at h
    obtain ⟨d₁, h₁, h⟩ := Except.of_bind_ok h
    obtain ⟨hs, hp, _, hr'⟩ := hr.step (fun s _ => s.faithful) h₁
    have hbody := Stmt.text_all_of (ih group List.mem_cons_self) hs hr.fits_opened h₁
    have hopen := Draft.text_continueAt hr.steady hr.waiting
      (hr.blank block (Nat.le_of_lt hr.past_lt) hr.waiting)
    rw [CaseGroup.elementsAll_cons, ← List.append_assoc, ← hopen, ← hbody,
      ← Draft.text_finishGroup hp.drawn.steady group after]
    exact ihg (fun g hm => ih g (List.mem_cons_of_mem _ hm)) hr' h

theorem CatchClause.text_all_of {clauses : List CatchClause} {d₀ : Draft}
    {finalizer : Option BlockId} {block after : BlockId} {W : BlockId → Prop}
    (ih : ∀ clause ∈ clauses, ∀ s ∈ clause.body.stmts, s.Writes)
    (hr : CatchClause.Ready scope d₀ finalizer after clauses block W d)
    (h : CatchClause.drawAll clauses (scope.guarded ⟨[], finalizer⟩) finalizer block after d =
      .ok d') :
    d'.text = d.text ++ CatchClause.elementsAll clauses := by
  induction clauses generalizing d block W with
  | nil =>
    rw [CatchClause.drawAll] at h
    cases h
    rw [CatchClause.elementsAll, List.append_nil]
  | cons clause clauses ihc =>
    rw [CatchClause.drawAll_cons] at h
    obtain ⟨d₁, h₁, h⟩ := Except.of_bind_ok h
    obtain ⟨hs, hp, hr'⟩ := hr.step (fun s _ => s.faithful) h₁
    have hbody := Stmt.text_all_of (ih clause List.mem_cons_self) hs hr.opened_clause.2 h₁
    have hopen := Draft.text_start hr.idle hr.parameters.1
    rw [CatchClause.elementsAll_cons, ← List.append_assoc, ← List.append_assoc, ← hopen,
      Block.elements, ← hbody, ← Draft.text_leaveRegion hp.drawn.steady finalizer after]
    exact ihc (fun c hm => ih c (List.mem_cons_of_mem _ hm)) hr' h

end Lists

/-- An `if` statement writes its test, then its branches. -/
theorem Stmt.writes_if (test : Expr) {cons : Stmt} {alt : Option Stmt} (span : Span)
    (ihc : cons.Writes) (iha : ∀ s, alt = some s → s.Writes) :
    (Stmt.ifStmt test cons alt span).Writes := by
  intro scope labels d d' hd hfit h
  rw [Stmt.draw_if] at h
  obtain ⟨d₁, h₁, h⟩ := Except.of_bind_ok h
  obtain ⟨d₂, h₂, h⟩ := Except.of_bind_ok h
  cases h
  obtain ⟨hdt, hfitt⟩ := test.settled hd hfit
  have ht := test.writes hd hfit
  generalize test.draw scope d = dt at *
  -- The blocks of the branches are blank when they are entered, so the text only grows.
  have hblank := Draft.blank_openIf hdt cons alt test.span
  rw [Stmt.elements, ← List.append_assoc, ← List.append_assoc, ← ht,
    ← Draft.text_openIf hdt cons alt test.span]
  cases alt with
  | none =>
    rw [Stmt.drawElse] at h₂
    cases h₂
    have hi := Draft.IfDrawn.of_parts hdt hfitt (cons.draws h₁)
    have hjoin := (hi.after_cons.waiting (dt.fresh + 1)).mpr (Or.inr rfl)
    have hblank₁ := hblank.part hi.opened.steady (cons.draws h₁ hi.opened.steady hi.fits)
    rw [Stmt.elementsOption, List.append_nil, ← ihc hi.opened.steady hi.fits h₁]
    exact Draft.text_continueAt hi.after_cons.steady hjoin (hblank₁ _ (Nat.le_succ _) hjoin)
  | some alt =>
    rw [Stmt.drawElse] at h₂
    have hi := Draft.IfElseDrawn.of_parts hdt hfitt (cons.draws h₁) (alt.draws h₂)
    have hblank₁ := hblank.part hi.opened.steady (cons.draws h₁ hi.opened.steady hi.fits_cons)
    have hother := (hi.after_cons.waiting (dt.fresh + 2)).mpr (Or.inr (Or.inr rfl))
    have hturn := Draft.text_turn hi.after_cons.steady .sequential (dt.fresh + 1) hother
      (hblank₁ _ (Nat.le_add_right _ _) hother)
    have hblank₂ :=
      (hblank₁.turn hi.after_cons.steady .sequential (dt.fresh + 1) (dt.fresh + 2)).part
      hi.turned.steady (alt.draws h₂ hi.turned.steady hi.fits_alt)
    have hjoin := (hi.after_alt.waiting (dt.fresh + 1)).mpr (Or.inr rfl)
    rw [Stmt.elementsOption, ← ihc hi.opened.steady hi.fits_cons h₁, ← hturn,
      ← iha alt rfl hi.turned.steady hi.fits_alt h₂]
    exact Draft.text_continueAt hi.after_alt.steady hjoin (hblank₂ _ (Nat.le_succ _) hjoin)

/-- A `while` loop writes its test, then its body. -/
theorem Stmt.writes_while (test : Expr) {body : Stmt} (span : Span) (ih : body.Writes) :
    (Stmt.whileStmt test body span).Writes := by
  intro scope labels d d' hd hfit h
  obtain ⟨d₁, h₁, rfl, hw⟩ := Stmt.drawn_while hd hfit h
  have ht := test.writes hw.opened.steady hw.fits_test
  generalize test.draw scope (d.openHeader (some test.span)) = dt at *
  have hblank :=
    (Draft.blank_openBody hw.after_test.steady body.span test.span).part hw.entered.steady
    (body.draws h₁ hw.entered.steady hw.fits_body)
  have hafter := (hw.after_body.waiting (dt.fresh + 1)).mpr (Or.inr rfl)
  rw [Stmt.elements, ← List.append_assoc, ← Draft.text_openHeader hd (some test.span), ← ht,
    ← Draft.text_openBody hw.after_test.steady body.span test.span,
      ← ih hw.entered.steady hw.fits_body h₁]
  exact Draft.text_turn hw.after_body.steady .loopBack d.fresh hafter
    (hblank _ (Nat.le_succ _) hafter)

theorem Stmt.writes_doWhile {body : Stmt} (test : Expr) (span : Span) (ih : body.Writes) :
    (Stmt.doWhile body test span).Writes := by
  intro scope labels d d' hd hfit h
  obtain ⟨d₁, h₁, rfl, hw⟩ := Stmt.drawn_doWhile hd hfit h
  have hblank₁ := (Draft.blank_openDo hd body.span test.span).part hw.opened.steady
    (body.draws h₁ hw.opened.steady hw.fits_body)
  have hcond := (hw.after_body.waiting (d.fresh + 1)).mpr (Or.inr (Or.inl rfl))
  have hturn := Draft.text_continueAt hw.after_body.steady hcond (hblank₁ _ (Nat.le_succ _) hcond)
  have hblank := (hblank₁.continueAt hw.after_body.steady (d.fresh + 1)).part hw.turned.steady
    (test.faithful hw.turned.steady hw.fits_test).drawn
  have hafter := (hw.after_test.waiting (d.fresh + 2)).mpr (Or.inr rfl)
  rw [Stmt.elements, ← List.append_assoc, ← Draft.text_openDo hd body.span test.span,
    ← ih hw.opened.steady hw.fits_body h₁, ← hturn, ← test.writes hw.turned.steady hw.fits_test]
  exact Draft.text_terminate_start hw.after_test.steady _ _ _ hafter
    (hblank _ (Nat.le_add_right _ _) hafter)

/-- The test of a `for` loop, if it has one. -/
theorem Draft.text_testFor {scope : Scope} {d : Draft} (hd : d.Steady) (hfit : scope.Fits d)
    (test : Option Expr) {inner : BlockId} (after : BlockId) (hw : d.Waiting inner)
    (hc : d.Contains inner []) :
    (d.testFor scope test inner after).text = d.text ++ Expr.elementsOption test := by
  unfold Draft.testFor
  cases test with
  | none =>
    rw [Expr.elementsOption, List.append_nil]
    exact text_terminate_start hd _ _ _ hw hc
  | some test =>
    have hp := (test.faithful hd hfit).drawn
    have hw' := (hp.waiting inner).mpr hw
    rw [Expr.elementsOption, ← test.writes hd hfit]
    exact text_terminate_start hp.steady _ _ _ hw' (hc.of_waiting (hp.run.extends hd) hw')

/-- The updates of a `for` loop have a block of their own, if there are any. -/
theorem Draft.text_updateFor {scope : Scope} {d : Draft} (hd : d.Steady) (hfit : scope.Fits d)
    (update : List Expr) {next : BlockId}
    (hnext : update.isEmpty = false →
      d.Waiting next ∧ (∀ id, scope.Names id → id ≠ next) ∧ d.Contains next []) :
    (d.updateFor scope update next).text = d.text ++ Expr.elementsAll update := by
  unfold Draft.updateFor
  split
  · rename_i hempty
    rw [List.isEmpty_iff.mp hempty, Expr.elementsAll, List.append_nil]
  · rename_i hempty
    obtain ⟨hw, hnew, hc⟩ := hnext (Bool.eq_false_iff.mpr hempty)
    obtain ⟨hd₁, hfit₁⟩ := hfit.turn hd hw hnew
    rw [Expr.text_all update hd₁ hfit₁, text_turn hd .loopBack next hw hc]

/-- A `for` loop writes its updates after its body. -/
theorem Stmt.writes_for {init : List Stmt} (test : Option Expr) (update : List Expr) {body : Stmt}
    (span : Span) (ihi : ∀ s ∈ init, s.Writes) (ih : body.Writes) :
    (Stmt.forStmt init test update body span).Writes := by
  intro scope labels d d' hd hfit h
  obtain ⟨d₀, d₁, h₀, hinit, h₁, rfl, hw⟩ := Stmt.drawn_for hd hfit h
  rw [Stmt.elements, ← List.append_assoc, ← List.append_assoc, ← List.append_assoc,
    ← Stmt.text_all_of ihi hd hfit h₀]
  have hheader := Draft.text_openHeader hinit.steady (some (test.elim span (·.span)))
  have hmake := Draft.text_makeFor hw.opened.steady (!update.isEmpty) body.span
  have hmade := Draft.made_makeFor hw.opened.steady (!update.isEmpty) body.span
  have hblank := hmade.blank
  rw [Draft.fresh_openHeader] at hblank
  generalize (d₀.openHeader (some (test.elim span (·.span)))).makeFor (!update.isEmpty)
    body.span = dm at *
  have hinner := (hw.made.waiting (d₀.fresh + 1)).mpr (Or.inr (Or.inl rfl))
  have hafter := (hw.made.waiting (d₀.fresh + 2)).mpr (Or.inr (Or.inr (Or.inl rfl)))
  have htest := Draft.text_testFor hw.made.steady hw.fits_test test (d₀.fresh + 2) hinner
    (hblank _ (Nat.le_refl _) hinner)
  -- From here on the blocks that still wait stay blank.
  have kt := Drawn.testFor hw.made.steady hw.fits_test test hinner hafter
  have hblank_t := hblank.of_extends (kt.run.extends hw.made.steady) fun id hid =>
    ((kt.waiting id).mp hid).1
  have hblank_b := hblank_t.part hw.entered.steady (body.draws h₁ hw.entered.steady hw.fits_body)
  have hnext : update.isEmpty = false → d₁.Waiting (Draft.forNext d₀.fresh update) ∧
      (∀ id, scope.Names id → id ≠ Draft.forNext d₀.fresh update) ∧
      d₁.Contains (Draft.forNext d₀.fresh update) [] := by
    intro he
    obtain ⟨hwait, hnew⟩ := hw.next he
    refine ⟨hwait, hnew, hblank_b _ ?_ hwait⟩
    rw [Draft.forNext_of_updates he]
    exact Nat.add_le_add_left (by decide) _
  have hupdate := Draft.text_updateFor hw.after_body.steady hw.fits_update update hnext
  have ku := Drawn.updateFor hw.after_body.steady hw.fits_update update _ hw.next
  have hblank_u := hblank_b.of_extends (ku.run.extends hw.after_body.steady) fun id hid =>
    ((ku.waiting id).mp hid).1
  have hpast := (hw.updated.waiting (d₀.fresh + 2)).mpr (Or.inr rfl)
  rw [← hheader, ← hmake, ← htest, ← ih hw.entered.steady hw.fits_body h₁, ← hupdate]
  exact Draft.text_turn hw.updated.steady .loopBack d₀.fresh hpast
    (hblank_u _ (Nat.le_succ _) hpast)

theorem Stmt.writes_forEach (var : String) (iterable : Expr) {body : Stmt} (span : Span)
    (ih : body.Writes) : (Stmt.forEach var iterable body span).Writes := by
  intro scope labels d d' hd hfit h
  obtain ⟨d₁, h₁, rfl, hw⟩ := Stmt.drawn_forEach hd hfit h
  obtain ⟨hdi, _⟩ := iterable.settled hd hfit
  have hi := iterable.writes hd hfit
  generalize iterable.draw scope d = di at *
  have hopen : Drawn scope (di.openHeader (some span)) _ _ :=
    (Drawn.refl hw.opened.steady).openBody body.span iterable.span
  have hblank_o := Draft.blank_openBody hw.opened.steady body.span iterable.span
  have kemit : Drawn scope ((di.openHeader (some span)).openBody body.span iterable.span) _ _ :=
    (Drawn.refl hopen.steady).emit (.declaration var) span
  have hblank := (hblank_o.part hopen.steady kemit).part hw.entered.steady
    (body.draws h₁ hw.entered.steady hw.fits_body)
  have hafter := (hw.after_body.waiting (di.fresh + 2)).mpr (Or.inr rfl)
  rw [Draft.fresh_openHeader] at hblank
  rw [Stmt.elements, ← List.append_assoc, ← List.append_assoc, ← hi,
    ← Draft.text_openHeader hdi (some span),
    ← Draft.text_openBody hw.opened.steady body.span iterable.span, ← Draft.text_emit hopen.steady,
    ← ih hw.entered.steady hw.fits_body h₁]
  exact Draft.text_turn hw.after_body.steady .loopBack di.fresh hafter
    (hblank _ (Nat.le_succ _) hafter)

/-- A switch writes its selector, then its groups. -/
theorem Stmt.writes_switch (selector : Expr) {groups : List CaseGroup} (span : Span)
    (ih : ∀ group ∈ groups, ∀ s ∈ group.body, s.Writes) :
    (Stmt.switch selector groups span).Writes := by
  intro scope labels d d' hd hfit h
  rw [Stmt.draw_switch] at h
  obtain ⟨d₁, h₁, h⟩ := Except.of_bind_ok h
  cases h
  obtain ⟨hds, hfits⟩ := selector.settled hd hfit
  have hs := selector.writes hd hfit
  generalize selector.draw scope d = ds at *
  have hready := CaseGroup.ready_openSwitch hds hfits labels groups selector.span
  have hall := CaseGroup.drawn_all hready (fun _ _ s _ => s.faithful) h₁
  have hafter := (hall.waiting ds.fresh).mpr ⟨hready.past, by grind⟩
  have hblank := (hready.blank.of_extends (hall.run.extends hready.steady) fun id hid =>
    ((hall.waiting id).mp hid).1) ds.fresh (Nat.le_refl _) hafter
  rw [Stmt.elements, ← List.append_assoc, ← hs, ← Draft.text_openSwitch hds groups selector.span,
    ← CaseGroup.text_all_of ih hready h₁]
  exact Draft.text_continueAt hall.steady hafter hblank

/-- The `finally` clause comes after the catch clauses. -/
theorem Block.text_finalizer_of {scope : Scope} {d₀ d d' : Draft} {finalizer : Option Block}
    {after block : BlockId} {W : BlockId → Prop}
    (hr : CatchClause.Ready scope d₀ (finalizer.map fun _ => after + 1) after [] block W d)
    (ih : ∀ final, finalizer = some final → ∀ s ∈ final.stmts, s.Writes)
    (h : Block.drawFinalizer finalizer scope after d = .ok d') :
    d'.text = d.text ++ Block.elementsOption finalizer := by
  cases finalizer with
  | none =>
    rw [Block.drawFinalizer] at h
    cases h
    rw [Block.elementsOption, List.append_nil]
  | some final =>
    rw [Block.drawFinalizer_some] at h
    obtain ⟨d₁, h₁, h⟩ := Except.of_bind_ok h
    cases h
    obtain ⟨hs, hfit⟩ := hr.opened_finally
    obtain ⟨_, hp, _⟩ := hr.finally (fun s _ => s.faithful) h₁
    rw [Draft.text_leaveFinalizer hp.drawn.steady,
      Stmt.text_all_of (ih final rfl) hs.steady hfit h₁,
        Draft.text_start_nil hr.idle (hr.entry_blank _ rfl), Block.elementsOption_some,
          Block.elements]

/-- A `try` statement writes its parts in the order of the text. -/
theorem Stmt.writes_try (resources : List LocalVar) {block : Block} {catches : List CatchClause}
    {finalizer : Option Block} (span : Span) (ihb : ∀ s ∈ block.stmts, s.Writes)
    (ihc : ∀ clause ∈ catches, ∀ s ∈ clause.body.stmts, s.Writes)
    (ihf : ∀ final, finalizer = some final → ∀ s ∈ final.stmts, s.Writes) :
    (Stmt.tryStmt resources block catches finalizer span).Writes := by
  intro scope labels d d' hd hfit h
  obtain ⟨stmts, blockSpan⟩ := block
  rw [Stmt.draw_try] at h
  obtain ⟨d₁, h₁, h⟩ := Except.of_bind_ok h
  obtain ⟨d₂, h₂, h⟩ := Except.of_bind_ok h
  obtain ⟨d₃, h₃, h⟩ := Except.of_bind_ok h
  cases h
  obtain ⟨hdo, hbody, hready⟩ := CatchClause.Ready.body hd hfit resources (fun s _ => s.faithful) h₁
  have hfito := Draft.fits_openTry hd hfit catches finalizer blockSpan
  have hres := LocalVar.part_resources resources rfl hdo hfito
  obtain ⟨hdone, _⟩ := hready.all (fun _ _ s _ => s.faithful) h₂
  obtain ⟨hended, hgrows⟩ := hdone.drawFinalizer (fun _ _ s _ => s.faithful) h₃
  have hafter : d₃.Waiting d.fresh :=
    (hended.waiting d.fresh).mpr ⟨hdone.past.1, fun _ => Nat.ne_of_lt (Nat.lt_succ_self _)⟩
  rw [Stmt.elements, ← List.append_assoc, ← List.append_assoc, ← List.append_assoc,
    ← Draft.text_openTry hd scope.types catches finalizer blockSpan,
      ← LocalVar.text_resources resources hdo hfito,
    ← Stmt.text_all_of ihb hres.drawn.steady (hres.fits hdo hfito) h₁,
    ← Draft.text_leaveRegion hbody.drawn.steady (finalizer.map fun _ => d.fresh + 1) d.fresh,
    ← CatchClause.text_all_of ihc hready h₂, ← Block.text_finalizer_of hdone ihf h₃]
  exact Draft.text_continueAt hended.steady hafter (hdone.past_blank.of_waiting hgrows hafter)

theorem Stmt.writes_labeled (label : String) {body : Stmt} (span : Span) (ih : body.Writes) :
    (Stmt.labeled label body span).Writes := by
  intro scope labels d d' hd hfit h
  rw [Stmt.draw_labeled] at h
  rw [Stmt.elements]
  split at h
  · exact nomatch h
  split at h
  · exact ih hd hfit h
  · obtain ⟨d₁, h₁, h⟩ := Except.of_bind_ok h
    cases h
    have hw := Draft.LabelDrawn.of_parts hd hfit (body.draws h₁)
    have hafter := (hw.after_body.waiting d.fresh).mpr (Or.inr rfl)
    have hblank := (d.blank_fresh.create hd .normal none).part hw.made.steady
      (body.draws h₁ hw.made.steady hw.fits)
    rw [← Draft.text_create hd .normal none, ← ih hw.made.steady hw.fits h₁]
    exact Draft.text_continueAt hw.after_body.steady hafter (hblank _ (Nat.le_refl _) hafter)

/-- Every statement writes its elements. -/
theorem Stmt.writes (s : Stmt) : s.Writes := by
  -- Of the jumps only their arguments are written; they make no elements themselves.
  induction s using Stmt.induct with
  | block b ih =>
    intro scope labels d d' hd hfit h
    cases b
    rw [Stmt.draw] at h
    rw [Stmt.elements]
    exact Stmt.text_all_of ih hd hfit h
  | expr e span =>
    intro scope labels d d' hd hfit h
    rw [Stmt.draw] at h
    cases h
    rw [Stmt.elements]
    exact e.writes hd hfit
  | localVar decl =>
    intro scope labels d d' hd hfit h
    rw [Stmt.draw] at h
    cases h
    rw [Stmt.elements]
    exact decl.text_draw hd hfit
  | ifStmt test cons alt span ihc iha => exact Stmt.writes_if test span ihc iha
  | whileStmt test body span ih => exact Stmt.writes_while test span ih
  | doWhile body test span ih => exact Stmt.writes_doWhile test span ih
  | forStmt init test update body span ihi ih => exact Stmt.writes_for test update span ihi ih
  | forEach var iterable body span ih => exact Stmt.writes_forEach var iterable span ih
  | switch selector groups span ih => exact Stmt.writes_switch selector span ih
  | tryStmt resources block catches finalizer span ihb ihc ihf =>
    exact Stmt.writes_try resources span ihb ihc ihf
  | labeled label body span ih => exact Stmt.writes_labeled label span ih
  | breakStmt label span | continueStmt label span =>
    intro scope labels d d' hd hfit h
    rw [Stmt.draw] at h
    obtain ⟨target, _, h⟩ := Except.of_bind_ok h
    cases h
    rw [Stmt.elements, List.append_nil]
    exact Draft.text_jumpVia hd _ _ span
  | returnStmt arg span =>
    intro scope labels d d' hd hfit h
    rw [Stmt.draw] at h
    cases h
    rw [Stmt.elements, Draft.text_jumpVia (Expr.settled_option arg hd hfit).1]
    exact Expr.text_option arg hd hfit
  | throwStmt arg span =>
    intro scope labels d d' hd hfit h
    rw [Stmt.draw] at h
    cases h
    rw [Stmt.elements]
    exact (Draft.text_jump (arg.settled hd hfit).1 _ _ span).trans (arg.writes hd hfit)
  | synchronized lock body span ih =>
    intro scope labels d d' hd hfit h
    cases body
    rw [Stmt.draw] at h
    obtain ⟨hd₁, hfit₁⟩ := lock.settled hd hfit
    have hemit : Draft.Part scope [] _ _ _ := .emit hd₁ .synchronized span
    rw [Stmt.elements, ← List.append_assoc, ← List.append_assoc, ← lock.writes hd hfit,
      ← Draft.text_emit hd₁]
    exact Stmt.text_all_of ih hemit.drawn.steady (hemit.fits hd₁ hfit₁) h
  | assertStmt _ _ span | empty span =>
    intro scope labels d d' hd hfit h
    rw [Stmt.draw] at h
    cases h
    rw [Stmt.elements, List.append_nil]
  | localClass ident span =>
    intro scope labels d d' hd hfit h
    rw [Stmt.draw] at h
    cases h
    rw [Stmt.elements]
    exact Draft.text_emit hd _ span
  | missing span =>
    intro scope labels d d' hd hfit h
    rw [Stmt.draw] at h
    cases h

/-! ## Bodies -/

namespace Graph

variable {types : Subtyping} {body : Block}

/-- A finished draft has the text of its body. -/
theorem text_draft {d : Draft} (h : draft types body = .ok d) : d.text = body.elements := by
  obtain ⟨d₁, h₁, h⟩ := Except.of_bind_ok h
  cases h
  have hd := Draft.steady_begun body.span
  have hfit := Scope.fits_empty types (.begun body.span)
  have hp := Stmt.part_all (fun s _ => s.faithful) hd hfit h₁
  rw [Draft.text_fallInto hp.drawn.steady, Stmt.text_all_of (fun s _ => s.writes) hd hfit h₁]
  -- The entry and the exit start out empty.
  rfl

/-- In the end every block has been opened, and only once. -/
theorem opened_draft {d : Draft} (h : draft types body = .ok d) : d.opened.Perm d.graph.ids := by
  obtain ⟨_, idle, _⟩ := draft_settled h
  unfold Draft.opened
  rw [idle, Option.toList_none, List.append_nil]
  refine (List.reverse_perm d.closed).trans ?_
  refine (List.perm_ext_iff_of_nodup (draft_sound h).nodup List.nodup_range).mpr fun id => ?_
  rw [mem_closed_draft h]
  exact List.mem_range.symm

/-- No element is lost, doubled or moved: in some order the blocks of a graph read as the body does,
and so what stands in one block stands together in the body. -/
theorem build_elements {g : Graph} (hg : build types body = .ok g) :
    ∃ order : List BlockId, order.Perm g.ids ∧ order.flatMap g.elementsOf = body.elements ∧
      ∀ id b, g.block? id = some b → b.elements <:+: body.elements := by
  obtain ⟨d, hd, rfl⟩ := exists_draft hg
  have htext : d.opened.flatMap d.graph.elementsOf = body.elements := text_draft hd
  refine ⟨d.opened, opened_draft hd, htext, fun id b hb => ?_⟩
  have hid : id ∈ d.opened :=
    (opened_draft hd).mem_iff.mpr (List.mem_range.mpr (lt_size_of_block? hb))
  obtain ⟨before, past, hsplit⟩ := List.append_of_mem hid
  refine ⟨before.flatMap d.graph.elementsOf, past.flatMap d.graph.elementsOf, ?_⟩
  rw [← htext, hsplit, List.flatMap_append, List.flatMap_cons, List.append_assoc,
    show d.graph.elementsOf id = b.elements by rw [elementsOf, hb]; rfl]

/-- A conditional operator in a `try` block, a catch clause that does nothing, and a `finally`
clause. -/
def guardedChoice : Block where
  stmts :=
    [.tryStmt []
      ⟨[.expr
        (.assign .assign (.name "x" {}) (.cond (.name "c" {}) (.name "a" {}) (.name "b" {}) {}) {})
        {}],
        {}⟩
      [⟨"e", ["Exception"], ⟨[.empty {}], {}⟩, {}⟩]
      (some ⟨[.expr (.call none "f" [] [] {}) {}], {}⟩) {}]
  span := {}

/-- The guarded choice has the elements of its text in the order its blocks were opened. -/
theorem build_elements_guardedChoice :
    ∃ g, build ClassHierarchy.javaLang.subtyping guardedChoice = .ok g ∧
      ∃ order : List BlockId, order.Perm g.ids ∧
        (order.flatMap g.elementsOf).map (·.kind) =
          [.identifier "c", .identifier "a", .identifier "b", .assignment (some "x") .assign,
            .declaration "e", .invocation "f" []] := by
  obtain ⟨g, hg⟩ := Except.failure?_eq_none_iff.mp
    ((failure?_build ClassHierarchy.javaLang.subtyping guardedChoice).trans rfl)
  obtain ⟨order, hperm, htext, _⟩ := build_elements hg
  exact ⟨g, hg, order, hperm, by rw [htext]; rfl⟩

end Graph

end MethodFlow
