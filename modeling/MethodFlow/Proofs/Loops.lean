import MethodFlow.Proofs.Leaving
import MethodFlow.Proofs.Skeletons

/-!
# Branches and loops are drawn faithfully

A statement is faithful if it is drawn as a part with its behaviour. Here are the statements that
choose or repeat: each is faithful if the statements inside it are. For each of them one lemma,
`Follows.*`, follows an execution through the parts as they were drawn, and `Stmt.faithful_*`
follows the drawing itself and says which blocks wait after each part.
-/

namespace MethodFlow

namespace Draft

variable {D d d₁ d₂ dt : Draft} {scope : Scope} {labels : List String} {a b : Behaviour}

/-! ## Following branches -/

/-- An `if` without `else` follows its body or passes it by. -/
theorem Follows.ifThen {cons : Stmt} {test : Span} (hd : d.Steady)
    (hsteady : (d.openIf cons none test).Steady) (hb : Part scope [] (d.openIf cons none test) d₁ b)
    (hjoin : d₁.Waiting (d.fresh + 1)) (hext : (d₁.continueAt (d.fresh + 1)).Extends D) :
    Follows D scope [] d (d₁.continueAt (d.fresh + 1)) (.either b (.leave .completed)) := by
  intro w hat t x hx
  have hext_b := extends_continueAt hb.drawn.steady (d.fresh + 1)
  have hblank :=
    (blank_openIf hd cons none test).part hsteady hb.drawn (d.fresh + 1) (by grind) hjoin
  obtain ⟨hin, hpast⟩ := hat.openIf hd ((hb.extends hsteady).trans (hext_b.trans hext))
  rcases hx with hx | ⟨rfl, rfl⟩
  · refine (hb.follows (hext_b.trans hext) w hin t x hx).mono hext_b fun hat => ?_
    exact hat.continueAt hb.drawn.steady hjoin hblank hext
  · rw [List.append_nil]
    exact .continueAt_of_path hpast hb.drawn.steady hjoin hblank

theorem Follows.ifThenElse {cons alt : Stmt} {test : Span} (hd : d.Steady)
    (hsteady : (d.openIf cons (some alt) test).Steady)
    (ha : Part scope [] (d.openIf cons (some alt) test) d₁ a) (hother : d₁.Waiting (d.fresh + 2))
    (hsteady' : (d₁.turn .sequential (d.fresh + 1) (d.fresh + 2)).Steady)
    (hb : Part scope [] (d₁.turn .sequential (d.fresh + 1) (d.fresh + 2)) d₂ b)
    (hjoin : d₂.Waiting (d.fresh + 1)) (hext : (d₂.continueAt (d.fresh + 1)).Extends D) :
    Follows D scope [] d (d₂.continueAt (d.fresh + 1)) (.either a b) := by
  intro w hat t x hx
  have hext_b := extends_continueAt hb.drawn.steady (d.fresh + 1)
  have hext_t := (hb.extends hsteady').trans hext_b
  have hext_a := (extends_turn ha.drawn.steady .sequential (d.fresh + 1) (d.fresh + 2)).trans hext_t
  have hblank := (blank_openIf hd cons (some alt) test).part hsteady ha.drawn
  have hjoin_blank :=
    (hblank.turn ha.drawn.steady _ _ _).part hsteady' hb.drawn (d.fresh + 1) (by grind)
    hjoin
  obtain ⟨hin, hpast⟩ := hat.openIf hd ((ha.extends hsteady).trans (hext_a.trans hext))
  rcases hx with hx | hx
  · refine (ha.follows (hext_a.trans hext) w hin t x hx).mono hext_a fun hat => ?_
    exact .continueAt_of_path (hat.turn ha.drawn.steady (hext_t.trans hext)) hb.drawn.steady hjoin
      hjoin_blank
  · have hat : D.At (d₁.turn .sequential (d.fresh + 1) (d.fresh + 2)) w :=
      .turn_of_path hpast ha.drawn.steady hother (hblank _ (by grind) hother)
    refine (hb.follows (hext_b.trans hext) w hat t x hx).mono hext_b fun hat => ?_
    exact hat.continueAt hb.drawn.steady hjoin hjoin_blank hext

/-! ## Following loops -/

/-- A loop with its test in front of the body. -/
theorem Follows.whileLoop {header body test : Span} (hd : d.Steady)
    (hsteady : (d.openHeader (some header)).Steady)
    (ha : Part scope [] (d.openHeader (some header)) dt a) (plain : a.Plain)
    (hsteady' : (dt.openBody body test).Steady)
    (hb : Part (scope.inside labels (.loop d.fresh) (dt.fresh + 1)) [] (dt.openBody body test) d₁ b)
    (hafter : d₁.Waiting (dt.fresh + 1))
    (hext : (d₁.turn .loopBack d.fresh (dt.fresh + 1)).Extends D) :
    Follows D scope labels d (d₁.turn .loopBack d.fresh (dt.fresh + 1))
      (.catching .afterBreak (.Rounds (a.andThen (b.catching (.afterContinue labels))) a)) := by
  have hext_b := extends_turn hb.drawn.steady .loopBack d.fresh (dt.fresh + 1)
  have hext_o := (hb.extends hsteady').trans hext_b
  have hext_a := (extends_openBody ha.drawn.steady body test).trans (hb.extends hsteady')
  have hfork : ∀ w, D.At dt w → D.At (dt.openBody body test) w ∧ D.Leads w (dt.fresh + 1) :=
    fun w hat => hat.openBody ha.drawn.steady (hext_o.trans hext)
  have htest : ∀ w t x, D.Leads w d.fresh → a t x → x = .completed ∧ D.At dt (w ++ t) ∨
      D.Escapes (scope.inside labels (.loop d.fresh) (dt.fresh + 1)) labels d₁ (w ++ t) x :=
    fun w t x hp hx => (ha.follows (hext_a.trans (hext_b.trans hext))).plain plain
      (.openHeader_of_path hp hd (some header)) hx hext_a
  refine .loop d.fresh d.fresh (dt.fresh + 1) (fun w hat => ?_) (fun w t x hp hx => ?_)
    (fun w t x hp hx => ?_) hext_b fun w hp => ?_
  · exact hat.openHeader hd ((ha.extends hsteady).trans (hext_a.trans (hext_b.trans hext)))
  · rcases hx with ⟨hx, hne⟩ | ⟨u, v, rfl, hu, hv⟩
    · exact Or.inr ((htest w t x hp hx).resolve_left fun he => hne he.1)
    · have hat : D.At dt (w ++ u) := ((htest w u _ hp hu).resolve_right fun he => he.1 rfl).2
      rw [← List.append_assoc]
      rcases (hb.follows (hext_b.trans hext)).round (hfork _ hat).1 hv with ⟨he, hat | hp⟩ | hesc
      · exact Or.inl ⟨he, hat.turn hb.drawn.steady hext⟩
      · exact Or.inl ⟨he, hp⟩
      · exact Or.inr hesc
  · exact (htest w t x hp hx).imp_left fun ⟨he, hat⟩ => ⟨he, (hfork _ hat).2⟩
  · refine .turn_of_path hp hb.drawn.steady hafter ?_
    exact (blank_openBody ha.drawn.steady _ _).part hsteady' hb.drawn _ (Nat.le_succ _) hafter

/-- A loop with its test after the body. -/
theorem Follows.doLoop {body test : Span} (hd : d.Steady) (hsteady : (d.openDo body test).Steady)
    (hb : Part (scope.inside labels (.loop (d.fresh + 1)) (d.fresh + 2)) []
      (d.openDo body test) d₁ b)
    (hcond : d₁.Waiting (d.fresh + 1)) (hsteady' : (d₁.continueAt (d.fresh + 1)).Steady)
    (ha : Part scope [] (d₁.continueAt (d.fresh + 1)) dt a) (plain : a.Plain)
    (hafter : dt.Waiting (d.fresh + 2)) (hext : (dt.closeDo d.fresh (d.fresh + 2) test).Extends D) :
    Follows D scope labels d (dt.closeDo d.fresh (d.fresh + 2) test)
      (.catching .afterBreak (.Rounds ((b.catching (.afterContinue labels)).andThen a)
        ((b.catching (.afterContinue labels)).andThen a))) := by
  have hext_t := extends_branch_start ha.drawn.steady d.fresh (d.fresh + 2) (d.fresh + 2) test
  have hext_c := (extends_continueAt hb.drawn.steady (d.fresh + 1)).trans (ha.extends hsteady')
  have hext_b := hext_c.trans (hext_t.trans hext)
  have hblank := (blank_openDo hd body test).part hsteady hb.drawn
  have hcond_blank := hblank (d.fresh + 1) (by grind) hcond
  -- A round ends with the test, which leads both back to the body and past the loop.
  have hround : ∀ w t x, D.Leads w d.fresh → (b.catching (.afterContinue labels)).andThen a t x →
      x = .completed ∧ D.Leads (w ++ t) d.fresh ∧ D.Leads (w ++ t) (d.fresh + 2) ∨
        D.Escapes (scope.inside labels (.loop (d.fresh + 1)) (d.fresh + 2)) labels dt
          (w ++ t) x := by
    intro w t x hp hx
    have hat : D.At (d.openDo body test) w := .openDo_of_path hp hd body test
    rcases hx with ⟨hx, hne⟩ | ⟨u, v, rfl, hu, hv⟩
    · rcases (hb.follows hext_b).round hat hx with ⟨he, _⟩ | hesc
      · exact absurd he hne
      · exact Or.inr (hesc.of_extends hext_c)
    · have hat : D.At (d₁.continueAt (d.fresh + 1)) (w ++ u) := by
        rcases (hb.follows hext_b).round hat hu with ⟨_, hat | hp⟩ | hesc
        · exact hat.continueAt hb.drawn.steady hcond hcond_blank
            ((ha.extends hsteady').trans (hext_t.trans hext))
        · exact .continueAt_of_path hp hb.drawn.steady hcond hcond_blank
        · exact absurd rfl hesc.1
      rw [← List.append_assoc]
      refine ((ha.follows (hext_t.trans hext)).plain plain hat hv (.refl dt)).imp_left ?_
      exact fun ⟨he, hat⟩ => ⟨he, hat.branch ha.drawn.steady hext⟩
  refine .loop d.fresh (d.fresh + 1) (d.fresh + 2) (fun w hat => ?_)
    (fun w t x hp hx => (hround w t x hp hx).imp_left fun ⟨he, hb, _⟩ => ⟨he, hb⟩)
    (fun w t x hp hx => (hround w t x hp hx).imp_left fun ⟨he, _, ha⟩ => ⟨he, ha⟩) hext_t
      fun w hp => ?_
  · exact hat.openDo hd ((hb.extends hsteady).trans hext_b)
  · exact .branch_of_path hp ha.drawn.steady hafter
      ((hblank.continueAt hb.drawn.steady _).part hsteady' ha.drawn (d.fresh + 2) (by grind) hafter)

/-- A loop over the elements of something. -/
theorem Follows.eachLoop {header body iterable : Span} {kind : ElementKind} {span : Span}
    (hd : d.Steady) (hsteady : (d.openHeader (some header)).Steady)
    (hsteady' : ((d.openHeader (some header)).openBody body iterable).Steady)
    (hb : Part (scope.inside labels (.loop d.fresh) (d.fresh + 2)) []
      (((d.openHeader (some header)).openBody body iterable).emit kind span) d₁ b)
    (hafter : d₁.Waiting (d.fresh + 2))
    (hext : (d₁.turn .loopBack d.fresh (d.fresh + 2)).Extends D) :
    Follows D scope labels d (d₁.turn .loopBack d.fresh (d.fresh + 2))
      (.catching .afterBreak (.Rounds
        ((Behaviour.emit kind span).andThen (b.catching (.afterContinue labels)))
        (.leave .completed))) := by
  have hfresh := d.fresh_openHeader (some header)
  have he : Part scope [] _ _ _ := Part.emit hsteady' kind span
  have hext_b := extends_turn hb.drawn.steady .loopBack d.fresh (d.fresh + 2)
  have hext_e := (hb.extends he.drawn.steady).trans (hext_b.trans hext)
  have hext_o := (he.extends hsteady').trans hext_e
  -- The header leads into the body and past the loop.
  have hfork : ∀ w, D.Leads w d.fresh →
      D.At ((d.openHeader (some header)).openBody body iterable) w ∧ D.Leads w (d.fresh + 2) := by
    intro w hp
    have h := (At.openHeader_of_path hp hd (some header)).openBody hsteady hext_o
    rwa [hfresh] at h
  refine .loop d.fresh d.fresh (d.fresh + 2) (fun w hat => ?_) (fun w t x hp hx => ?_)
    (fun w t x hp hx => ?_) hext_b fun w hp => ?_
  · exact hat.openHeader hd ((extends_openBody hsteady body iterable).trans hext_o)
  · rcases hx with ⟨hx, hne⟩ | ⟨u, v, rfl, hu, hv⟩
    · refine Or.inr (((he.follows hext_e).plain (.emit kind span) (hfork w hp).1 hx
        (hb.extends he.drawn.steady)).resolve_left fun h => hne h.1)
    · have hat := he.follows hext_e w (hfork w hp).1 u _ hu
      rw [← List.append_assoc]
      rcases (hb.follows (hext_b.trans hext)).round hat hv with ⟨he, hat | hp⟩ | hesc
      · exact Or.inl ⟨he, hat.turn hb.drawn.steady hext⟩
      · exact Or.inl ⟨he, hp⟩
      · exact Or.inr hesc
  · obtain ⟨rfl, rfl⟩ := hx
    rw [List.append_nil]
    exact Or.inl ⟨rfl, (hfork w hp).2⟩
  · have hblank :=
      ((blank_openBody hsteady body iterable).part hsteady' he.drawn).part he.drawn.steady
      hb.drawn
    exact .turn_of_path hp hb.drawn.steady hafter (hblank _ (by grind) hafter)

/-- The test of a `for` loop leads into the body, and past the loop if there is a test. -/
theorem At.testFor {kind : TargetKind} {inner after after' : BlockId} {w : List Element}
    (hat : D.At d w) (hd : d.Steady) (hfit : scope.Fits d) (test : Option Expr)
    (hinner : d.Waiting inner) (hblank : d.Contains inner [])
    (hext : (d.testFor scope test inner after).Extends D)
    (hext₁ : (d.testFor scope test inner after).Extends d₁) :
    (∀ t x, Expr.behaviourOption (!scope.handlers.isEmpty) test t x →
      x = .completed ∧ D.At (d.testFor scope test inner after) (w ++ t) ∨
        D.Escapes (scope.inside labels kind after') labels d₁ (w ++ t) x) ∧
    ∀ t x, test.elim .never (·.behaviour (!scope.handlers.isEmpty)) t x →
      x = .completed ∧ D.Leads (w ++ t) after ∨
        D.Escapes (scope.inside labels kind after') labels d₁ (w ++ t) x := by
  -- Without a test the body is entered at once, and the loop is never passed here.
  cases test with
  | none =>
    refine ⟨fun t x hx => ?_, fun t x hx => hx.elim⟩
    rw [Expr.behaviourOption] at hx
    obtain ⟨rfl, rfl⟩ := hx
    rw [List.append_nil]
    have hext := (extends_start (current_terminate ..) inner).trans hext
    refine Or.inl
      ⟨rfl, .start_nil (hat.terminate hd hext List.mem_cons_self) ?_ (current_terminate ..)⟩
    exact hblank.of_waiting (extends_terminate hd _ _ _)
      ((waiting_terminate hd _ _ _ inner).mpr hinner)
  | some test =>
    have hpt := test.faithful hd hfit
    have hext_t := extends_branch_start hpt.drawn.steady inner after inner test.span
    have hinner' := (hpt.drawn.waiting inner).mpr hinner
    have htest : ∀ t x, test.behaviour (!scope.handlers.isEmpty) t x → x = .completed ∧
        D.At (test.draw scope d) (w ++ t) ∨
          D.Escapes (scope.inside labels kind after') labels d₁ (w ++ t) x :=
      fun t x hx => (hpt.follows (hext_t.trans hext)).plain test.plain hat hx (hext_t.trans hext₁)
    refine ⟨fun t x hx => ?_, fun t x hx => ?_⟩
    · rw [Expr.behaviourOption] at hx
      refine (htest t x hx).imp_left fun h => ⟨h.1, ?_⟩
      exact .branch_of_path (h.2.branch hpt.drawn.steady hext).1 hpt.drawn.steady hinner'
        (hblank.of_waiting (hpt.extends hd) hinner')
    · exact (htest t x hx).imp_left fun h => ⟨h.1, (h.2.branch hpt.drawn.steady hext).2⟩

/-- The updates of a `for` loop lead from the end of a round back to the header. -/
theorem leads_updateFor {kind : TargetKind} {header after after' next : BlockId}
    {w t : List Element} {x : Exit} (hd : d.Steady) (update : List Expr)
    (hnext : update.isEmpty = false → d.Waiting next ∧ d.Contains next [] ∧
      (d.turn .loopBack next next).Steady ∧ scope.Fits (d.turn .loopBack next next))
    (hheader : update.isEmpty = true → next = header)
    (hext : ((d.updateFor scope update next).turn .loopBack header after).Extends D)
    (hat : D.At d w ∨ D.Leads w next)
    (hx : Expr.behaviourAll (!scope.handlers.isEmpty) update t x) :
    x = .completed ∧ D.Leads (w ++ t) header ∨
      D.Escapes (scope.inside labels kind after') labels (d.updateFor scope update next)
        (w ++ t) x := by
  cases update with
  | nil =>
    rw [Expr.behaviourAll] at hx
    obtain ⟨rfl, rfl⟩ := hx
    rw [List.append_nil]
    refine Or.inl ⟨rfl, ?_⟩
    rcases hat with hat | hp
    · exact hat.turn hd hext
    · exact hheader rfl ▸ hp
  | cons e es =>
    obtain ⟨hw, hblank, hsteady, hfit⟩ := hnext rfl
    have hpu := Expr.faithful_all (e :: es) hsteady hfit
    have hext_u := extends_turn hpu.drawn.steady .loopBack header after
    have hat : D.At (d.turn .loopBack next next) w := by
      refine .turn_of_path ?_ hd hw hblank
      rcases hat with hat | hp
      · exact hat.turn hd ((hpu.extends hsteady).trans (hext_u.trans hext))
      · exact hp
    refine ((hpu.follows (hext_u.trans hext)).plain (Expr.plain_all fun e _ => e.plain) hat hx
      (.refl _)).imp_left ?_
    exact fun h => ⟨h.1, h.2.turn hpu.drawn.steady hext⟩

/-- A loop with a test in front of the body and updates after it. -/
theorem Follows.forLoop {db d' : Draft} (header next after : BlockId) {test last update : Behaviour}
    (enter : ∀ w, D.At d w → D.Leads w header)
    (htest : ∀ w, D.Leads w header →
      (∀ t x, test t x → x = .completed ∧ D.At db (w ++ t) ∨
        D.Escapes (scope.inside labels (.loop next) after) labels d₂ (w ++ t) x) ∧
      ∀ t x, last t x → x = .completed ∧ D.Leads (w ++ t) after ∨
        D.Escapes (scope.inside labels (.loop next) after) labels d₂ (w ++ t) x)
    (hb : Follows D (scope.inside labels (.loop next) after) [] db d₁ b) (hext₁ : d₁.Extends d₂)
    (hupdate : ∀ w t x, D.At d₁ w ∨ D.Leads w next → update t x →
      x = .completed ∧ D.Leads (w ++ t) header ∨
        D.Escapes (scope.inside labels (.loop next) after) labels d₂ (w ++ t) x)
    (hext : d₂.Extends d') (hafter : ∀ w, D.Leads w after → D.At d' w) :
    Follows D scope labels d d' (.catching .afterBreak (.Rounds
      (test.andThen ((b.catching (.afterContinue labels)).andThen update)) last)) := by
  refine .loop header next after enter (fun w t x hp hx => ?_)
    (fun w t x hp => (htest w hp).2 t x) hext
    hafter
  rcases hx with ⟨hx, hne⟩ | ⟨t₁, _, rfl, ht₁, hx⟩
  · exact Or.inr (((htest w hp).1 t x hx).resolve_left fun he => hne he.1)
  have hat := (((htest w hp).1 t₁ _ ht₁).resolve_right fun he => he.1 rfl).2
  rcases hx with ⟨hx, hne⟩ | ⟨t₂, t₃, rfl, ht₂, hx⟩
  · rw [← List.append_assoc]
    exact Or.inr (((hb.round hat hx).resolve_left fun he => hne he.1).of_extends hext₁)
  · have hend := ((hb.round hat ht₂).resolve_right fun he => he.1 rfl).2
    rw [← List.append_assoc, ← List.append_assoc]
    exact hupdate _ t₃ x hend hx

end Draft

open Draft (Drawn Part)

/-- The statement is drawn as a part with its behaviour. Labels are new, and are passed only to
statements that carry them. -/
def Stmt.Faithful (s : Stmt) : Prop :=
  ∀ {scope : Scope} {labels : List String} {d d' : Draft}, d.Steady → scope.Fits d →
    (∀ l ∈ labels, s.carriesLabels = true ∧ scope.hasLabel l = false) →
    s.draw scope labels d = .ok d' →
    Part scope labels d d' (s.behaviour scope.types (!scope.handlers.isEmpty) labels)

/-- Labels that a statement does not carry are none. -/
theorem Stmt.labels_eq_nil {s : Stmt} {labels : List String} {P : String → Prop}
    (hs : s.carriesLabels = false) (hl : ∀ l ∈ labels, s.carriesLabels = true ∧ P l) :
      labels = [] := by
  refine List.eq_nil_iff_forall_not_mem.mpr fun l hm => ?_
  rw [(hl l hm).1] at hs
  exact nomatch hs


/-- Statements drawn one after another are a part of their joint behaviour. -/
theorem Stmt.part_all {stmts : List Stmt} {scope : Scope} {d d' : Draft}
    (ih : ∀ s ∈ stmts, s.Faithful) (hd : d.Steady) (hfit : scope.Fits d)
    (h : Stmt.drawAll stmts scope d = .ok d') :
    Part scope [] d d' (Stmt.behaviourAll scope.types stmts (!scope.handlers.isEmpty)) := by
  induction stmts generalizing d with
  | nil =>
    rw [Stmt.drawAll] at h
    cases h
    rw [Stmt.behaviourAll]
    exact .skip hd
  | cons s stmts ihs =>
    rw [Stmt.drawAll] at h
    obtain ⟨d₁, h₁, h⟩ := Except.of_bind_ok h
    rw [Stmt.behaviourAll]
    exact (ih s List.mem_cons_self hd hfit (List.forall_mem_nil _) h₁).andThen hd hfit
      fun hd hfit =>
      ihs (fun s hm => ih s (List.mem_cons_of_mem _ hm)) hd hfit h

theorem Stmt.Faithful.draws {s : Stmt} (h : s.Faithful) {scope : Scope} {d d' : Draft}
    (hdraw : s.draw scope [] d = .ok d') : Draft.Draws scope d d' :=
  fun hd hfit => (h hd hfit (List.forall_mem_nil _) hdraw).drawn

/-- An `if` statement is drawn faithfully if its branches are. -/
theorem Stmt.faithful_if (test : Expr) {cons : Stmt} {alt : Option Stmt} (span : Span)
    (ihc : cons.Faithful) (iha : ∀ s, alt = some s → s.Faithful) :
    (Stmt.ifStmt test cons alt span).Faithful := by
  intro scope labels d d' hd hfit hl h
  obtain rfl := Stmt.labels_eq_nil rfl hl
  rw [Stmt.draw_if] at h
  obtain ⟨d₁, h₁, h⟩ := Except.of_bind_ok h
  obtain ⟨d₂, h₂, h⟩ := Except.of_bind_ok h
  cases h
  rw [Stmt.behaviour]
  refine (test.faithful hd hfit).andThen hd hfit ?_
  generalize test.draw scope d = d at *
  intro hd hfit
  cases alt with
  | none =>
    rw [Stmt.drawElse] at h₂
    cases h₂
    rw [Stmt.behaviourElse]
    have h := Draft.IfDrawn.of_parts hd hfit (ihc.draws h₁)
    refine ⟨h.whole, fun hext => ?_⟩
    exact .ifThen hd h.opened.steady (ihc h.opened.steady h.fits (List.forall_mem_nil _) h₁)
      ((h.after_cons.waiting _).mpr (Or.inr rfl)) hext
  | some alt =>
    rw [Stmt.drawElse] at h₂
    rw [Stmt.behaviourElse]
    have h :=
      Draft.IfElseDrawn.of_parts hd hfit (ihc.draws h₁) (Stmt.Faithful.draws (iha alt rfl) h₂)
    refine ⟨h.whole, fun hext => ?_⟩
    exact .ifThenElse hd h.opened.steady
      (ihc h.opened.steady h.fits_cons (List.forall_mem_nil _) h₁)
      ((h.after_cons.waiting _).mpr (Or.inr (Or.inr rfl))) h.turned.steady
      (iha alt rfl h.turned.steady h.fits_alt (List.forall_mem_nil _) h₂)
      ((h.after_alt.waiting _).mpr (Or.inr rfl)) hext

/-- A `while` loop is drawn faithfully if its body is. -/
theorem Stmt.faithful_while (test : Expr) {body : Stmt} (span : Span) (ih : body.Faithful) :
    (Stmt.whileStmt test body span).Faithful := by
  intro scope labels d d' hd hfit _ h
  rw [Stmt.draw_while] at h
  obtain ⟨d₁, h₁, h⟩ := Except.of_bind_ok h
  cases h
  have h : Draft.WhileDrawn scope labels d _ d₁ test.span body.span test.span :=
    .of_parts hd hfit (fun hd hfit => (test.faithful hd hfit).drawn) (ih.draws h₁)
  refine ⟨h.whole, fun {D} hext => ?_⟩
  rw [Stmt.behaviour]
  exact .whileLoop hd h.opened.steady (test.faithful h.opened.steady h.fits_test) test.plain
    h.entered.steady
    (ih h.entered.steady h.fits_body (List.forall_mem_nil _) h₁)
    ((h.after_body.waiting _).mpr (Or.inr rfl)) hext

theorem Stmt.faithful_doWhile {body : Stmt} (test : Expr) (span : Span) (ih : body.Faithful) :
    (Stmt.doWhile body test span).Faithful := by
  intro scope labels d d' hd hfit _ h
  rw [Stmt.draw_doWhile] at h
  obtain ⟨d₁, h₁, h⟩ := Except.of_bind_ok h
  cases h
  have h : Draft.DoDrawn scope labels d d₁ _ body.span test.span :=
    .of_parts hd hfit (ih.draws h₁) fun hd hfit => (test.faithful hd hfit).drawn
  refine ⟨h.whole, fun {D} hext => ?_⟩
  rw [Stmt.behaviour]
  exact .doLoop hd h.opened.steady (ih h.opened.steady h.fits_body (List.forall_mem_nil _) h₁)
    ((h.after_body.waiting _).mpr (Or.inr (Or.inl rfl))) h.turned.steady
    (test.faithful h.turned.steady h.fits_test) test.plain
    ((h.after_test.waiting _).mpr (Or.inr rfl)) hext

/-- A `for` loop is drawn faithfully if its parts are. -/
theorem Stmt.faithful_for {init : List Stmt} (test : Option Expr) (update : List Expr) {body : Stmt}
    (span : Span) (ihi : ∀ s ∈ init, s.Faithful) (ih : body.Faithful) :
    (Stmt.forStmt init test update body span).Faithful := by
  intro scope labels d d' hd hfit hl h
  rw [Stmt.draw_for] at h
  obtain ⟨d₀, h₀, h⟩ := Except.of_bind_ok h
  obtain ⟨d₁, h₁, h⟩ := Except.of_bind_ok h
  cases h
  rw [Stmt.behaviour]
  refine (Stmt.part_all ihi hd hfit h₀).andThen_labeled hd hfit (fun l hm => (hl l hm).2) ?_
  clear h₀ hd hfit
  intro hd hfit
  have h : Draft.ForDrawn scope labels d₀ _ d₁ (test.elim span (·.span)) test update :=
    .of_parts hd hfit (ih.draws h₁)
  have hpb := ih h.entered.steady h.fits_body (List.forall_mem_nil _) h₁
  refine ⟨h.whole, fun {D} hext => ?_⟩
  have hinner := (h.made.waiting (d₀.fresh + 1)).mpr (Or.inr (Or.inl rfl))
  have kt := Drawn.testFor h.made.steady h.fits_test test hinner
    ((h.made.waiting (d₀.fresh + 2)).mpr (Or.inr (Or.inr (Or.inl rfl))))
  have ku :=
    Drawn.updateFor h.after_body.steady h.fits_update update (Draft.forNext d₀.fresh update) h.next
  have hafter := (h.updated.waiting (d₀.fresh + 2)).mpr (Or.inr rfl)
  have hext_t := Draft.extends_turn h.updated.steady .loopBack d₀.fresh (d₀.fresh + 2)
  have hext_u := ku.run.extends h.after_body.steady
  have hext_b := (hpb.extends h.entered.steady).trans hext_u
  have hmade := Draft.made_makeFor h.opened.steady (!update.isEmpty) body.span
  have hblank := hmade.blank
  rw [Draft.fresh_openHeader] at hblank
  have hblank_b := (hblank.of_extends (kt.run.extends h.made.steady) fun id h =>
    ((kt.waiting id).mp h).1).part h.entered.steady hpb.drawn
  -- The obligations: into the header, through the test, round by the updates, and out.
  refine .forLoop d₀.fresh (Draft.forNext d₀.fresh update) (d₀.fresh + 2) (fun w hat => ?_)
    (fun w hp => ?_)
    (hpb.follows (hext_u.trans (hext_t.trans hext))) hext_u (fun w t x hat hx => ?_) hext_t
      fun w hp => ?_
  · have hext_m := (hmade.grows.trans (kt.run.extends h.made.steady)).trans hext_b
    exact hat.openHeader hd (hext_m.trans (hext_t.trans hext))
  · have hat := hmade.passes (.openHeader_of_path hp hd _)
    exact hat.testFor h.made.steady h.fits_test test hinner (hblank _ (Nat.le_refl _) hinner)
      (hext_b.trans (hext_t.trans hext)) hext_b
  · refine Draft.leads_updateFor h.after_body.steady update (fun he => ?_)
      (fun he => ?_) hext hat hx
    · obtain ⟨hw, hnew⟩ := h.next he
      refine ⟨hw, hblank_b _ ?_ hw, h.fits_update.turn h.after_body.steady hw hnew⟩
      rw [Draft.forNext_of_updates he]
      exact Nat.add_le_add_left (by decide) _
    · rw [Draft.forNext, if_pos he]
  · have hblank_u := hblank_b.of_extends hext_u fun id h => ((ku.waiting id).mp h).1
    exact .turn_of_path hp h.updated.steady hafter (hblank_u _ (Nat.le_succ _) hafter)

theorem Stmt.faithful_forEach (var : String) (iterable : Expr) {body : Stmt} (span : Span)
    (ih : body.Faithful) : (Stmt.forEach var iterable body span).Faithful := by
  intro scope labels d d' hd hfit hl h
  rw [Stmt.draw_forEach] at h
  obtain ⟨d₁, h₁, h⟩ := Except.of_bind_ok h
  cases h
  rw [Stmt.behaviour]
  refine (iterable.faithful hd hfit).andThen_labeled hd hfit (fun l hm => (hl l hm).2) ?_
  generalize iterable.draw scope d = d at *
  intro hd hfit
  have h : Draft.EachDrawn scope labels d d₁ span body.span iterable.span (.declaration var) span :=
    .of_parts hd hfit (ih.draws h₁)
  have ho : Drawn scope (d.openHeader (some span)) _ _ :=
    (Drawn.refl h.opened.steady).openBody body.span iterable.span
  refine ⟨h.whole, fun {D} hext => ?_⟩
  exact .eachLoop hd h.opened.steady ho.steady
    (ih h.entered.steady h.fits_body (List.forall_mem_nil _) h₁)
    ((h.after_body.waiting _).mpr (Or.inr rfl)) hext

end MethodFlow
