import MethodFlow.Proofs.Tails

/-!
# Pruned statements

Here are the constructs one by one: each is drawn as it is and pruned to the root, and the drafts
correspond at its end if they do at the ends of its parts. `Sited` collects what holds where a part
begins: the drafts correspond, the scopes do, and the first draft is one to which the scope fits.
`Draft.Corresponds` is what comes out, with new names for the blocks made on the way.

Main result: `Stmt.trims`.
-/

namespace MethodFlow

open Draft (Drawn Trimmed)

/-! ## Places where code begins -/

/-- A piece of code was drawn, and the drafts correspond again. The blocks of `d'` keep their
names. -/
def Draft.Corresponds (ρ : Renaming) (astray : Bool) (d' d₁ d₁' : Draft) : Prop :=
  ∃ ρ' : Renaming, ρ'.Agrees ρ d'.fresh ∧ Trimmed ρ' astray d₁ d₁'

/-- The drafts correspond at a place in scopes that do. Unless all lists are kept whole there, no
`finally` clause follows. -/
structure Draft.Sited (kept : Bool) (ρ : Renaming) (astray : Bool) (S scope : Scope)
    (d d' : Draft) : Prop where
  trimmed : Trimmed ρ astray d d'
  named : S = scope.rename ρ.name
  steady : d.Steady
  bounded : d.Bounded
  fits : S.Fits d
  unguarded : kept = false → ∀ handler ∈ S.handlers, handler.finalizer = none

namespace Draft.Sited

variable {kept astray astray₁ : Bool} {ρ ρ₁ : Renaming} {S scope : Scope} {d d' d₁ d₁' : Draft}
  {W : BlockId → Prop}

/-- The scope is the same under new names for blocks that come later. -/
theorem named_of_agrees (hs : Sited kept ρ astray S scope d d') (ha : ρ₁.Agrees ρ d'.fresh) :
    S = scope.rename ρ₁.name := by
  rw [hs.named]
  refine (Scope.rename_congr fun id hid => ha id ?_).symm
  rw [hs.trimmed.lt_iff id]
  exact hs.fits.lt (hs.named ▸ hid.rename ρ)

/-- The same scope, further on. -/
theorem after (hs : Sited kept ρ astray S scope d d') (ha : ρ₁.Agrees ρ d'.fresh)
    (ht : Trimmed ρ₁ astray₁ d₁ d₁') (hk : Drawn S d d₁ W)
    (hW : ∀ id, S.Names id → d.Waiting id → W id) : Sited kept ρ₁ astray₁ S scope d₁ d₁' where
  trimmed := ht
  named := hs.named_of_agrees ha
  steady := hk.steady
  bounded := hk.run.bounded hs.steady hs.bounded
  fits := hk.fits hs.steady hs.fits hW
  unguarded := hs.unguarded

/-- An expression is drawn alike at corresponding places. -/
theorem expr (hs : Sited kept ρ false S scope d d') (e : Expr) :
    Sited kept ρ false S scope (e.draw S d) (e.draw scope d') := by
  refine hs.after (.refl ρ _) ?_ (e.faithful hs.steady hs.fits).drawn fun _ _ hid => hid
  rw [hs.named]
  exact e.trimmed hs.trimmed

theorem emit (hs : Sited kept ρ false S scope d d') (kind : ElementKind) (span : Span) :
    Sited kept ρ false S scope (d.emit kind span) (d'.emit kind span) :=
  hs.after (.refl ρ _) (hs.trimmed.emit kind span) ((Drawn.refl hs.steady).emit kind span)
    fun _ _ hid => hid

/-- Inside one more target. -/
theorem inside {inner inner' : Draft} (hs : Sited kept ρ astray S scope d d')
    (ht : Trimmed ρ false inner inner') (hk : Drawn S d inner W) {labels : List String}
    {kind kind' : TargetKind} {after after' : BlockId} (hkind : kind'.rename ρ.name = kind)
    (hafter : ρ.name after' = after) (hfit : (S.inside labels kind after).Fits inner) :
    Sited kept ρ false (S.inside labels kind after) (scope.inside labels kind' after') inner
      inner' where
  trimmed := ht
  named := by rw [Scope.inside_rename, hkind, hafter, hs.named]
  steady := hk.steady
  bounded := hk.run.bounded hs.steady hs.bounded
  fits := hfit
  unguarded := hs.unguarded

/-- Inside a loop the places still correspond, with its targets renamed. -/
theorem inside_loop {inner inner' : Draft} (hs : Sited kept ρ astray S scope d d')
    (ht : Trimmed ρ false inner inner') (hk : Drawn S d inner W) {labels : List String}
    {next next' after after' : BlockId} (hnext : ρ.name next' = next)
    (hafter : ρ.name after' = after) (hfit : (S.inside labels (.loop next) after).Fits inner) :
    Sited kept ρ false (S.inside labels (.loop next) after)
      (scope.inside labels (.loop next') after') inner
      inner' := by
  have hkind : (TargetKind.loop next').rename ρ.name = .loop next := congrArg TargetKind.loop hnext
  exact hs.inside ht hk hkind hafter hfit

end Draft.Sited

/-- Drawing the statement and the pruned one leads from drafts that correspond to drafts that do. -/
def Stmt.Trims (s : Stmt) : Prop :=
  ∀ {kept : Bool} {ρ : Renaming} {S scope : Scope} {labels : List String} {d d' d₁ d₁' : Draft},
    Draft.Sited kept ρ false S scope d d' → s.draw S labels d = .ok d₁ →
    (s.prune .toTheRoot kept).draw scope labels d' = .ok d₁' →
    Draft.Corresponds ρ (!kept && s.breaksOff) d' d₁ d₁'

/-! ## Lists of statements -/

section Parts

variable {kept astray : Bool} {ρ : Renaming} {S scope : Scope} {d d' d₁ d₁' : Draft}

open Draft (Sited Corresponds)

/-- Statements correspond up to the one after which the tail is cut. -/
theorem Stmt.trims_all {stmts : List Stmt} (ih : ∀ s ∈ stmts, s.Trims)
    (hs : Sited kept ρ false S scope d d') (h : Stmt.drawAll stmts S d = .ok d₁)
    (h' : Stmt.drawAll (Stmt.pruneIn .toTheRoot kept stmts) scope d' = .ok d₁') :
    Corresponds ρ (!kept && Stmt.breaksOffIn stmts) d' d₁ d₁' := by
  induction stmts generalizing ρ d d' with
  | nil =>
    rw [Stmt.pruneIn, Stmt.drawAll] at h'
    rw [Stmt.drawAll] at h
    cases h
    cases h'
    rw [Stmt.breaksOffIn, Bool.and_false]
    exact ⟨ρ, .refl ρ _, hs.trimmed⟩
  | cons s stmts ihs =>
    rw [Stmt.drawAll] at h
    obtain ⟨e, he, h⟩ := Except.of_bind_ok h
    have hk := s.draws he hs.steady hs.fits
    have hle := hk.fresh_le hs.steady
    rw [Stmt.breaksOffIn]
    by_cases hends : (!kept && s.breaksOff) = true
    · -- The rest of the list is a tail.
      rw [Stmt.pruneIn_cons_of_ends hends, Stmt.drawAll] at h'
      obtain ⟨e', he', h'⟩ := Except.of_bind_ok h'
      rw [Stmt.drawAll] at h'
      cases h'
      obtain ⟨ρ₁, ha₁, ht₁⟩ := ih s List.mem_cons_self hs he he'
      obtain ⟨hkept, hbreak⟩ := Bool.and_eq_true_iff.mp hends
      rw [hends] at ht₁
      have hs₁ := hs.after ha₁ ht₁ hk fun _ _ hid => hid
      have htail := (Stmt.part_all (fun s _ => s.faithful) hs₁.steady hs₁.fits h).drawn
      obtain ⟨ρ₂, ha₂, ht₂⟩ := ht₁.tail hs₁.steady hs₁.bounded htail
        (hs.unguarded (by simpa using hkept))
      rw [hkept, hbreak, Bool.true_or, Bool.true_and]
      exact ⟨ρ₂, hs.trimmed.agrees_trans ha₁ ht₁ hle ha₂, ht₂⟩
    · -- Control may get past `s`, so the rest is kept and drawn in both.
      have hends := Bool.eq_false_iff.mpr hends
      rw [Stmt.pruneIn_cons_of_not hends, Stmt.drawAll] at h'
      obtain ⟨e', he', h'⟩ := Except.of_bind_ok h'
      obtain ⟨ρ₁, ha₁, ht₁⟩ := ih s List.mem_cons_self hs he he'
      rw [hends] at ht₁
      have hs₁ := hs.after ha₁ ht₁ hk fun _ _ hid => hid
      obtain ⟨ρ₂, ha₂, ht₂⟩ := ihs (fun s hm => ih s (List.mem_cons_of_mem _ hm)) hs₁ h h'
      rw [Bool.and_or_distrib_left, hends, Bool.false_or]
      exact ⟨ρ₂, hs.trimmed.agrees_trans ha₁ ht₁ hle ha₂, ht₂⟩

/-! ## Branches -/

/-- A pruned `if` statement is trimmed as its branches are. -/
theorem Stmt.trims_if (test : Expr) {cons : Stmt} {alt : Option Stmt} (span : Span)
    (ihc : cons.Trims) (iha : ∀ s, alt = some s → s.Trims) :
    (Stmt.ifStmt test cons alt span).Trims := by
  intro kept ρ S scope labels d d' d₁ d₁' hs h h'
  rw [Stmt.prune_if, Stmt.draw_if] at h'
  rw [Stmt.draw_if] at h
  simp only [Draft.openIf_map (Stmt.span_prune _ kept)] at h'
  simp only [Stmt.breaksOff, Bool.and_false]
  have hst := hs.expr test
  have hle := (test.faithful hs.steady hs.fits).drawn.fresh_le hs.steady
  generalize test.draw S d = dt at *
  generalize test.draw scope d' = dt' at *
  obtain ⟨e₁, e₁', he₁, he₁', h, h'⟩ := Except.of_bind_ok₂ h h'
  obtain ⟨e₂, e₂', he₂, he₂', h, h'⟩ := Except.of_bind_ok₂ h h'
  cases h
  cases h'
  -- Both drawings open the same blocks, whose names match one by one.
  have hopen := hst.trimmed.openIf cons alt test.span
  cases alt with
  | none =>
    rw [Option.map_none, Stmt.drawElse] at he₂'
    rw [Stmt.drawElse] at he₂
    cases he₂
    cases he₂'
    have hi := Draft.IfDrawn.of_parts hst.steady hst.fits (cons.draws he₁)
    have hso := hst.after (.refl ρ _) hopen hi.opened fun _ _ hid => Or.inl hid
    obtain ⟨ρ₁, ha₁, ht₁⟩ := ihc hso he₁ he₁'
    have hjoin := hso.trimmed.name_eq ha₁ (hst.trimmed.shift 1) (hi.opened.lt (Or.inr rfl))
    refine ⟨ρ₁, ?_, ht₁.continueAt hjoin⟩
    exact hs.trimmed.agrees_trans (.refl ρ _) hopen
      (Nat.le_trans hle (hi.opened.fresh_le hst.steady)) ha₁
  | some alt =>
    rw [Option.map_some, Stmt.drawElse] at he₂'
    rw [Stmt.drawElse] at he₂
    have hi := Draft.IfElseDrawn.of_parts hst.steady hst.fits (cons.draws he₁) (alt.draws he₂)
    have hso := hst.after (.refl ρ _) hopen hi.opened fun _ _ hid => Or.inl hid
    obtain ⟨ρ₁, ha₁, ht₁⟩ := ihc hso he₁ he₁'
    have hjoin₁ :=
      hso.trimmed.name_eq ha₁ (hst.trimmed.shift 1) (hi.opened.lt (Or.inr (Or.inl rfl)))
    have halt₁ := hso.trimmed.name_eq ha₁ (hst.trimmed.shift 2) (hi.opened.lt (Or.inr (Or.inr rfl)))
    have hag₁ := hst.trimmed.agrees_trans (.refl ρ _) hopen (hi.opened.fresh_le hst.steady) ha₁
    have hturn := ht₁.turn .sequential hjoin₁ halt₁
    have hsa := hst.after hag₁ hturn hi.turned fun _ _ hid => Or.inl hid
    obtain ⟨ρ₂, ha₂, ht₂⟩ := iha alt rfl hsa he₂ he₂'
    have hjoin₂ := hsa.trimmed.name_eq ha₂ hjoin₁ (hi.turned.lt (Or.inr rfl))
    refine ⟨ρ₂, ?_, ht₂.continueAt hjoin₂⟩
    have hag₂ := hst.trimmed.agrees_trans hag₁ hturn (hi.turned.fresh_le hst.steady) ha₂
    exact hs.trimmed.agrees_trans (.refl ρ _) hst.trimmed hle hag₂

/-! ## Loops

The blocks of a loop are made before its body is drawn, so they still have their names at its
end. -/

theorem Stmt.trims_while (test : Expr) {body : Stmt} (span : Span) (ih : body.Trims) :
    (Stmt.whileStmt test body span).Trims := by
  intro kept ρ S scope labels d d' d₁ d₁' hs h h'
  rw [Stmt.prune, Stmt.draw_while] at h'
  rw [Stmt.draw_while] at h
  simp only [Stmt.span_prune] at h'
  simp only [Stmt.breaksOff, Bool.and_false]
  obtain ⟨e, e', he, he', h, h'⟩ := Except.of_bind_ok₂ h h'
  cases h
  cases h'
  have hw : Draft.WhileDrawn S labels d _ e test.span body.span test.span :=
    .of_parts hs.steady hs.fits (fun hd hfit => (test.faithful hd hfit).drawn) (body.draws he)
  have hsh := hs.after (.refl ρ _) (hs.trimmed.openHeader (some test.span)) hw.opened
    fun _ _ hid => hid
  have ht := (hsh.expr test).trimmed
  generalize test.draw S (d.openHeader (some test.span)) = dt at *
  generalize test.draw scope (d'.openHeader (some test.span)) = dt' at *
  have hopen := ht.openBody body.span test.span
  have hheader : ρ.name d'.fresh = d.fresh := hs.trimmed.shift_fresh
  have hsb := hs.inside_loop hopen hw.entered hheader (ht.shift 1) hw.fits_body
  obtain ⟨ρ₁, ha₁, ht₁⟩ := ih hsb he he'
  have hpast : dt.fresh + 1 < (dt.openBody body.span test.span).fresh := hw.entered.lt (Or.inr rfl)
  have hafter₁ := hsb.trimmed.name_eq ha₁ (ht.shift 1) hpast
  have hheader₁ := hsb.trimmed.name_eq ha₁ hheader
    (Nat.lt_of_le_of_lt (hw.after_test.fresh_le hs.steady) (Nat.lt_of_succ_lt hpast))
  refine ⟨ρ₁, ?_, ht₁.turn .loopBack hheader₁ hafter₁⟩
  exact hs.trimmed.agrees_trans (.refl ρ _) hopen (hw.entered.fresh_le hs.steady) ha₁

theorem Stmt.trims_doWhile {body : Stmt} (test : Expr) (span : Span) (ih : body.Trims) :
    (Stmt.doWhile body test span).Trims := by
  intro kept ρ S scope labels d d' d₁ d₁' hs h h'
  rw [Stmt.prune, Stmt.draw_doWhile] at h'
  rw [Stmt.draw_doWhile] at h
  simp only [Stmt.span_prune] at h'
  simp only [Stmt.breaksOff, Bool.and_false]
  obtain ⟨e, e', he, he', h, h'⟩ := Except.of_bind_ok₂ h h'
  cases h
  cases h'
  have hw : Draft.DoDrawn S labels d e _ body.span test.span :=
    .of_parts hs.steady hs.fits (body.draws he) fun hd hfit => (test.faithful hd hfit).drawn
  have hopen := hs.trimmed.openDo body.span test.span
  have hsb := hs.inside_loop hopen hw.opened (hs.trimmed.shift 1) (hs.trimmed.shift 2)
    hw.fits_body
  obtain ⟨ρ₁, ha₁, ht₁⟩ := ih hsb he he'
  have hpast : d.fresh + 2 < (d.openDo body.span test.span).fresh :=
    hw.opened.lt (Or.inr (Or.inr rfl))
  have hname : ∀ n, n ≤ 2 → ρ₁.name (d'.fresh + n) = d.fresh + n := fun n hn =>
    hopen.name_eq ha₁ (hs.trimmed.shift n) (Nat.lt_of_le_of_lt (Nat.add_le_add_left hn _) hpast)
  have hag₁ := hs.trimmed.agrees_trans (.refl ρ _) hopen (hw.opened.fresh_le hs.steady) ha₁
  have hst := hs.after hag₁ (ht₁.continueAt (hname 1 (by decide))) hw.turned fun _ _ hid =>
    Or.inl hid
  refine ⟨ρ₁, hag₁, ?_⟩
  exact ((hst.expr test).trimmed.branch (hname 0 (by decide)) (hname 2 (Nat.le_refl _))
    test.span).start
    (hname 2 (Nat.le_refl _))

theorem Stmt.trims_for {init : List Stmt} (test : Option Expr) (update : List Expr) {body : Stmt}
    (span : Span) (ihi : ∀ s ∈ init, s.Trims) (ih : body.Trims) :
    (Stmt.forStmt init test update body span).Trims := by
  intro kept ρ S scope labels d d' d₁ d₁' hs h h'
  rw [Stmt.prune, Stmt.draw_for] at h'
  rw [Stmt.draw_for] at h
  simp only [Stmt.span_prune] at h'
  simp only [Stmt.breaksOff, Bool.and_false]
  obtain ⟨e₀, e₀', he₀, he₀', h, h'⟩ := Except.of_bind_ok₂ h h'
  obtain ⟨e, e', he, he', h, h'⟩ := Except.of_bind_ok₂ h h'
  cases h
  cases h'
  obtain ⟨ρ₁, ha₁, ht₁⟩ := Stmt.trims_all ihi hs he₀ he₀'
  have hinit := (Stmt.part_all (fun s _ => s.faithful) hs.steady hs.fits he₀).drawn
  have hsi := hs.after ha₁ ht₁ hinit fun _ _ hid => hid
  have hw : Draft.ForDrawn S labels e₀ _ e (test.elim span (·.span)) test update :=
    .of_parts hsi.steady hsi.fits (body.draws he)
  have hmade :=
    (ht₁.openHeader (some (test.elim span (·.span)))).makeFor (!update.isEmpty) body.span
  have hnext : ρ₁.name (Draft.forNext e₀'.fresh update) = Draft.forNext e₀.fresh update := by
    -- The next round begins at the header if there are no updates.
    unfold Draft.forNext
    split
    · exact ht₁.shift 0
    · exact ht₁.shift 3
  have hopen := hmade.testFor scope test (ht₁.shift 1) (ht₁.shift 2)
  rw [← hsi.named] at hopen
  have hsb := hsi.inside_loop hopen hw.entered hnext (ht₁.shift 2) hw.fits_body
  obtain ⟨ρ₂, ha₂, ht₂⟩ := ih hsb he he'
  have hpast : e₀.fresh + 2 < _ := hw.entered.lt (Or.inr (Or.inl rfl))
  have hafter₂ := hopen.name_eq ha₂ (ht₁.shift 2) hpast
  have hheader₂ := hopen.name_eq ha₂ (ht₁.shift 0) (Nat.lt_of_le_of_lt (Nat.le_add_right _ 2) hpast)
  have hnext₂ := hopen.name_eq ha₂ hnext (hw.fits_body.lt
    (Or.inr (Or.inr ⟨_, List.mem_cons_self, Or.inr rfl⟩)))
  have hag₂ := ht₁.agrees_trans (.refl ρ₁ _) hopen (hw.entered.fresh_le hsi.steady) ha₂
  refine ⟨ρ₂, hs.trimmed.agrees_trans ha₁ ht₁ (hinit.fresh_le hs.steady) hag₂, ?_⟩
  -- A tail of the body ends at the updates, or else at the turn.
  have hupdate := ht₂.updateFor scope update hnext₂
  rw [← hsi.named_of_agrees hag₂] at hupdate
  exact hupdate.turn .loopBack hheader₂ hafter₂

theorem Stmt.trims_forEach (var : String) (iterable : Expr) {body : Stmt} (span : Span)
    (ih : body.Trims) :
    (Stmt.forEach var iterable body span).Trims := by
  intro kept ρ S scope labels d d' d₁ d₁' hs h h'
  rw [Stmt.prune, Stmt.draw_forEach] at h'
  rw [Stmt.draw_forEach] at h
  simp only [Stmt.span_prune] at h'
  simp only [Stmt.breaksOff, Bool.and_false]
  obtain ⟨e, e', he, he', h, h'⟩ := Except.of_bind_ok₂ h h'
  cases h
  cases h'
  have hsi := hs.expr iterable
  have hle := (iterable.faithful hs.steady hs.fits).drawn.fresh_le hs.steady
  generalize iterable.draw S d = di at *
  generalize iterable.draw scope d' = di' at *
  have hw : Draft.EachDrawn S labels di e span body.span iterable.span (.declaration var) span :=
    .of_parts hsi.steady hsi.fits (body.draws he)
  have hopen :=
    ((hsi.trimmed.openHeader (some span)).openBody body.span iterable.span).emit
    (.declaration var) span
  have hsb := hsi.inside_loop hopen hw.entered hsi.trimmed.shift_fresh
    (hsi.trimmed.shift 2) hw.fits_body
  obtain ⟨ρ₁, ha₁, ht₁⟩ := ih hsb he he'
  have hpast : di.fresh + 2 < _ := hw.entered.lt (Or.inr rfl)
  have hafter₁ := hopen.name_eq ha₁ (hsi.trimmed.shift 2) hpast
  have hheader₁ :=
    hopen.name_eq ha₁ hsi.trimmed.shift_fresh (Nat.lt_of_le_of_lt (Nat.le_add_right _ 2) hpast)
  refine ⟨ρ₁, ?_, ht₁.turn .loopBack hheader₁ hafter₁⟩
  exact hs.trimmed.agrees_trans (.refl ρ _) hopen
    (Nat.le_trans hle (hw.entered.fresh_le hsi.steady)) ha₁

/-! ## Groups and clauses -/

/-- Between two groups the drafts may be in a tail or not. -/
theorem CaseGroup.trims_all {groups : List CaseGroup}
    (ih : ∀ group ∈ groups, ∀ s ∈ group.body, s.Trims) {block block' after after' : BlockId}
    (hs : Sited kept ρ astray S scope d d') (hr : CaseGroup.Ready S groups block after d)
    (hblock : ∀ n < groups.length, ρ.name (block' + n) = block + n) (hafter : ρ.name after' = after)
    (h : CaseGroup.drawAll groups S block after d = .ok d₁)
    (h' : CaseGroup.drawAll (groups.map (·.prune .toTheRoot kept)) scope block' after' d' =
      .ok d₁') :
    ∃ astray₁, Corresponds ρ astray₁ d' d₁ d₁' := by
  induction groups generalizing ρ astray d d' block block' with
  | nil =>
    rw [List.map_nil, CaseGroup.drawAll] at h'
    rw [CaseGroup.drawAll] at h
    cases h
    cases h'
    exact ⟨astray, ρ, .refl ρ _, hs.trimmed⟩
  | cons group groups ihs =>
    rw [CaseGroup.drawAll_cons] at h
    rw [List.map_cons, CaseGroup.drawAll_cons] at h'
    obtain ⟨e, e', he, he', h, h'⟩ := Except.of_bind_ok₂ h h'
    have hopen := hs.trimmed.continueAt (hblock 0 (Nat.succ_pos _))
    have hso := hs.after (.refl ρ _) hopen hr.opened fun id hn hid =>
      ⟨hid, Nat.ne_of_lt (hr.outer id hn)⟩
    obtain ⟨ρ₁, ha₁, ht₁⟩ := Stmt.trims_all (ih group List.mem_cons_self) hso he he'
    rw [Draft.fresh_continueAt] at ha₁
    obtain ⟨_, _, hk, hr'⟩ := hr.step (fun s _ => s.faithful) he
    have hafter₁ := hs.trimmed.name_eq ha₁ hafter hr.past.lt
    -- A group keeps its arrow, so both drawings leave it in the same way.
    obtain ⟨astray₁, ht₂⟩ : ∃ astray₁, Trimmed ρ₁ astray₁ (group.finish e after)
        ((group.prune .toTheRoot kept).finish e' after') := by
      unfold CaseGroup.finish
      cases hg : group.arrow with
      | true =>
        have harrow : (group.prune .toTheRoot kept).arrow = true := hg
        rw [harrow]
        exact ⟨false, ht₁.leaveArrowGroup hafter₁⟩
      | false =>
        have harrow : (group.prune .toTheRoot kept).arrow = false := hg
        rw [harrow]
        exact ⟨_, ht₁.endCaseGroup⟩
    have hs₂ := hs.after ha₁ ht₂ hk fun id hn hid => ⟨hid, Nat.ne_of_lt (hr.outer id hn)⟩
    -- The blocks of the groups still to come were made before, so their names are kept.
    have hblock₁ : ∀ n < groups.length, ρ₁.name (block' + 1 + n) = block + 1 + n := by
      intro n hn
      have hwait := hr'.blocks (block + 1 + n) (Nat.le_add_right _ _) (Nat.add_lt_add_left hn _)
      refine hs.trimmed.name_eq ha₁ ?_ ((hk.waiting _).mp hwait).1.lt
      rw [Nat.add_assoc, Nat.add_assoc, Nat.add_comm 1]
      exact hblock (n + 1) (Nat.succ_lt_succ hn)
    obtain ⟨astray₂, ρ₂, ha₂, ht₃⟩ :=
      ihs (fun g hg => ih g (List.mem_cons_of_mem _ hg)) hs₂ hr' hblock₁
      hafter₁ h h'
    exact ⟨astray₂, ρ₂, hs.trimmed.agrees_trans ha₁ ht₂ (hk.fresh_le hs.steady) ha₂, ht₃⟩

/-- Pruned catch clauses are trimmed one clause at a time. -/
theorem CatchClause.trims_all {clauses : List CatchClause}
    (ih : ∀ clause ∈ clauses, ∀ s ∈ clause.body.stmts, s.Trims) {d₀ : Draft}
    {finalizer finalizer' : Option BlockId} {block block' after after' : BlockId}
    {W : BlockId → Prop} (hr : CatchClause.Ready S d₀ finalizer after clauses block W d)
    (hb : d₀.Bounded) (ht : Trimmed ρ false d d') (hS : S = scope.rename ρ.name)
    (hfinal : finalizer = finalizer'.map ρ.name)
    (hopen : kept = false → ∀ handler ∈ (S.guarded ⟨[], finalizer⟩).handlers,
      handler.finalizer = none)
    (hblock : ∀ n < clauses.length, ρ.name (block' + n) = block + n)
    (hafter : ρ.name after' = after)
    (h : CatchClause.drawAll clauses (S.guarded ⟨[], finalizer⟩) finalizer block after d = .ok d₁)
    (h' : CatchClause.drawAll (clauses.map (·.prune .toTheRoot kept))
      (scope.guarded ⟨[], finalizer'⟩) finalizer' block' after' d' = .ok d₁') :
    Corresponds ρ false d' d₁ d₁' := by
  induction clauses generalizing ρ d d' block block' W with
  | nil =>
    rw [List.map_nil, CatchClause.drawAll] at h'
    rw [CatchClause.drawAll] at h
    cases h
    cases h'
    exact ⟨ρ, .refl ρ _, ht⟩
  | cons clause clauses ihs =>
    rw [CatchClause.drawAll_cons] at h
    rw [List.map_cons, CatchClause.drawAll_cons] at h'
    obtain ⟨e, e', he, he', h, h'⟩ := Except.of_bind_ok₂ h h'
    obtain ⟨hk, hfit⟩ := hr.opened_clause
    have hs : Sited kept ρ false (S.guarded ⟨[], finalizer⟩) (scope.guarded ⟨[], finalizer'⟩)
      (d.start block)
        (d'.start block') :=
      ⟨ht.start (hblock 0 (Nat.succ_pos _)),
        by rw [hS, hfinal]; rfl, hk.steady, hk.run.bounded hr.steady hb, hfit, hopen⟩
    obtain ⟨ρ₁, ha₁, ht₁⟩ := Stmt.trims_all (ih clause List.mem_cons_self) hs he he'
    obtain ⟨hS₁, hhandler⟩ :=
      Scope.guarded_inj ((hs.named_of_agrees ha₁).trans (Scope.guarded_rename ..))
    have hfinal₁ : finalizer = finalizer'.map ρ₁.name := congrArg (·.finalizer) hhandler
    rw [Draft.fresh_start] at ha₁
    obtain ⟨_, _, hr'⟩ := hr.step (fun s _ => s.faithful) he
    have hlt : ∀ {id}, W id → id < d.fresh := fun hid => hr.drawn.lt hid
    have hafter₁ := ht.name_eq ha₁ hafter (hlt hr.past.1)
    have hblock₁ : ∀ n < clauses.length, ρ₁.name (block' + 1 + n) = block + 1 + n := by
      intro n hn
      have hwait := hr'.blocks (block + 1 + n) (Nat.le_add_right _ _) (Nat.add_lt_add_left hn _)
      refine ht.name_eq ha₁ ?_ (hlt hwait.1)
      rw [Nat.add_assoc, Nat.add_assoc, Nat.add_comm 1]
      exact hblock (n + 1) (Nat.succ_lt_succ hn)
    -- With a `finally` clause the list was kept whole, so that it has no tail.
    have hstray : finalizer'.isSome = true →
        (!kept && Stmt.breaksOffIn clause.body.stmts) = false := by
      intro hsome
      cases kept with
      | true => rfl
      | false =>
        have hnone : finalizer = none := hopen rfl _ List.mem_cons_self
        rw [hfinal, Option.map_eq_none_iff] at hnone
        rw [hnone] at hsome
        cases hsome
    have ht₂ := ht₁.leaveRegion finalizer' hstray hafter₁
    rw [← hfinal₁] at ht₂
    obtain ⟨ρ₂, ha₂, ht₃⟩ :=
      ihs (fun c hc => ih c (List.mem_cons_of_mem _ hc)) hr' ht₂ hS₁ hfinal₁ hblock₁
      hafter₁ h h'
    have hle : d.fresh ≤ (e.leaveRegion finalizer after).fresh := by
      have hstart := (Draft.extends_start hr.idle block).fresh_le
      have hbody :=
        ((Stmt.part_all (fun s _ => s.faithful) hs.steady hs.fits he).extends hs.steady).fresh_le
      have hleave := (Draft.extends_leaveRegion
        (Stmt.part_all (fun s _ => s.faithful) hs.steady hs.fits he).drawn.steady finalizer
          after).fresh_le
      exact Nat.le_trans hstart (Nat.le_trans hbody hleave)
    exact ⟨ρ₂, ht.agrees_trans ha₁ ht₂ hle ha₂, ht₃⟩

theorem Block.trims_finalizer {finalizer : Option Block}
    (ih : ∀ final, finalizer = some final → ∀ s ∈ final.stmts, s.Trims) {d₀ : Draft}
    {block after after' : BlockId} {W : BlockId → Prop}
    (hr : CatchClause.Ready S d₀ (finalizer.map fun _ => after + 1) after [] block W d)
    (hb : d₀.Bounded) (ht : Trimmed ρ false d d') (hS : S = scope.rename ρ.name)
    (hopen : kept = false → ∀ handler ∈ S.handlers, handler.finalizer = none)
    (hafter : ρ.name after' = after)
    (hentry : finalizer.isSome = true → ρ.name (after' + 1) = after + 1)
    (h : Block.drawFinalizer finalizer S after d = .ok d₁)
    (h' : Block.drawFinalizer (finalizer.map (·.prune .toTheRoot kept)) scope after' d' = .ok d₁') :
    Corresponds ρ false d' d₁ d₁' := by
  cases finalizer with
  | none =>
    rw [Option.map_none, Block.drawFinalizer] at h'
    rw [Block.drawFinalizer] at h
    cases h
    cases h'
    exact ⟨ρ, .refl ρ _, ht⟩
  | some final =>
    rw [Block.drawFinalizer_some] at h
    rw [Option.map_some, Block.drawFinalizer_some] at h'
    obtain ⟨e, e', he, he', h, h'⟩ := Except.of_bind_ok₂ h h'
    cases h
    cases h'
    obtain ⟨hk, hfit⟩ := hr.opened_finally
    have hs : Sited kept ρ false S scope (d.start (after + 1)) (d'.start (after' + 1)) :=
      ⟨ht.start (hentry rfl), hS, hk.steady, hk.run.bounded hr.steady hb, hfit, hopen⟩
    obtain ⟨ρ₁, ha₁, ht₁⟩ := Stmt.trims_all (ih final rfl) hs he he'
    rw [Draft.fresh_start] at ha₁
    have hafter₁ := ht.name_eq ha₁ hafter (hr.drawn.lt hr.past.1)
    have hentry₁ := ht.name_eq ha₁ (hentry rfl) (hr.drawn.lt (hr.entry _ rfl).1)
    exact ⟨ρ₁, ha₁, ht₁.leaveFinalizer hentry₁ hafter₁⟩

end Parts

open Draft (Sited Corresponds)

/-- A pruned switch is trimmed as its groups are. -/
theorem Stmt.trims_switch (selector : Expr) {groups : List CaseGroup} (span : Span)
    (ih : ∀ group ∈ groups, ∀ s ∈ group.body, s.Trims) :
    (Stmt.switch selector groups span).Trims := by
  intro kept ρ S scope labels d d' d₁ d₁' hs h h'
  rw [Stmt.prune_switch, Stmt.draw_switch] at h'
  rw [Stmt.draw_switch] at h
  simp only [(CaseGroup.keepsHead_prune _ kept).openSwitch] at h'
  simp only [Stmt.breaksOff, Bool.and_false]
  have hst := hs.expr selector
  have hle := (selector.faithful hs.steady hs.fits).drawn.fresh_le hs.steady
  generalize selector.draw S d = ds at *
  generalize selector.draw scope d' = ds' at *
  obtain ⟨e, e', he, he', h, h'⟩ := Except.of_bind_ok₂ h h'
  cases h
  cases h'
  have hready := CaseGroup.ready_openSwitch hst.steady hst.fits labels groups selector.span
  have hopen := hst.trimmed.openSwitch groups selector.span
  have hk : Drawn S ds (ds.openSwitch groups selector.span) _ :=
    (Drawn.refl hst.steady).openSwitch groups selector.span
  have hkind : TargetKind.switch.rename ρ.name = .switch := rfl
  have hso := hst.inside hopen hk hkind hst.trimmed.shift_fresh hready.fits
  have hfirst : ∀ n < groups.length, ρ.name (ds'.fresh + 1 + n) = ds.fresh + 1 + n := fun n _ => by
    rw [Nat.add_assoc, hst.trimmed.shift, Nat.add_assoc]
  obtain ⟨_, ρ₁, ha₁, ht₁⟩ :=
    CaseGroup.trims_all ih hso hready hfirst hst.trimmed.shift_fresh he he'
  have hafter₁ := hopen.name_eq ha₁ hst.trimmed.shift_fresh hready.past.lt
  refine ⟨ρ₁, ?_, ht₁.continueAt hafter₁⟩
  exact hs.trimmed.agrees_trans (.refl ρ _) hopen (Nat.le_trans hle (hk.fresh_le hst.steady)) ha₁

/-! ## `try` statements -/

/-- Nothing follows but clauses without a `finally` clause, unless the lists in front of them are
kept. -/
theorem Pruning.unguarded_of_keeps {kept : Bool} {finalizer : Option Block} {S : Scope}
    (hopen : kept = false → ∀ handler ∈ S.handlers, handler.finalizer = none) {handler : Handler}
    {after : BlockId} (hfinal : handler.finalizer = finalizer.map fun _ => after + 1)
    (hkeeps : Pruning.toTheRoot.keeps kept finalizer = false) :
    ∀ h ∈ (S.guarded handler).handlers, h.finalizer = none := by
  rw [Pruning.keeps, Bool.or_eq_false_iff] at hkeeps
  intro h hm
  rcases List.mem_cons.mp hm with rfl | hm
  · have hnone : finalizer.isSome = false := hkeeps.2
    rw [hfinal, Option.isSome_eq_false_iff.mp hnone |> Option.isNone_iff_eq_none.mp,
      Option.map_none]
  · exact hopen hkeeps.1 h hm

/-- The blocks that were made for a `try` statement have their numbers: that after it, those of the
catch clauses and that of the `finally` clause. -/
structure Renaming.NamesTry (ρ : Renaming) (after after' : BlockId) (catches : List CatchClause)
    (finalizer : Option Block) : Prop where
  past : ρ.name after' = after
  clauses : ∀ n < catches.length,
    ρ.name (Draft.firstCatch after' finalizer + n) = Draft.firstCatch after finalizer + n
  entry : finalizer.isSome = true → ρ.name (after' + 1) = after + 1

theorem Renaming.NamesTry.finalizer {ρ : Renaming} {after after' : BlockId}
    {catches : List CatchClause} {finalizer : Option Block}
    (h : ρ.NamesTry after after' catches finalizer) :
    (Draft.handlerAt after catches finalizer).finalizer =
      (Draft.handlerAt after' catches finalizer).finalizer.map ρ.name := by
  cases finalizer with
  | none => rfl
  | some final => exact congrArg some (h.entry rfl).symm

/-- Opening a `try` statement leads to corresponding places inside. -/
theorem Draft.Sited.openTry (hs : Sited kept ρ false S scope d d') (catches : List CatchClause)
    (finalizer : Option Block) (block : Span) :
    Sited (Pruning.toTheRoot.keeps kept finalizer) ρ false
      (S.guarded (Draft.handlerAt d.fresh catches finalizer))
      (scope.guarded (Draft.handlerAt d'.fresh catches finalizer))
      (d.openTry S.types catches finalizer block)
      (d'.openTry scope.types catches finalizer block) := by
  have hk : Drawn S d (d.openTry S.types catches finalizer block) _ :=
    (Drawn.refl hs.steady).openTry S.types catches finalizer block
  have htypes : S.types = scope.types := congrArg (·.types) hs.named
  constructor
  · rw [htypes]
    exact hs.trimmed.openTry scope.types catches finalizer block
  · rw [Scope.guarded_rename, Draft.handlerAt_rename hs.trimmed.shift, ← hs.named]
  · exact hk.steady
  · exact hk.run.bounded hs.steady hs.bounded
  · exact Draft.fits_openTry hs.steady hs.fits catches finalizer block
  · exact Pruning.unguarded_of_keeps hs.unguarded rfl

/-- The `try` block, up to where it is left. -/
theorem Block.trims_region (resources : List LocalVar) {stmts : List Stmt}
    {catches : List CatchClause} {finalizer : Option Block} (block : Span)
    (ih : ∀ s ∈ stmts, s.Trims) (hs : Sited kept ρ false S scope d d')
    (h : Stmt.drawAll stmts (S.guarded (Draft.handlerAt d.fresh catches finalizer))
      (LocalVar.drawResources (S.guarded (Draft.handlerAt d.fresh catches finalizer)) resources
        (d.openTry S.types catches finalizer block)) = .ok d₁)
    (h' : Stmt.drawAll (Stmt.pruneIn .toTheRoot (Pruning.toTheRoot.keeps kept finalizer) stmts)
      (scope.guarded (Draft.handlerAt d'.fresh catches finalizer))
      (LocalVar.drawResources (scope.guarded (Draft.handlerAt d'.fresh catches finalizer)) resources
        (d'.openTry scope.types catches finalizer block)) = .ok d₁') :
    ∃ ρ₁ : Renaming, ρ₁.Agrees ρ d'.fresh ∧ ρ₁.NamesTry d.fresh d'.fresh catches finalizer ∧
      Trimmed ρ₁ false
        (d₁.leaveRegion (Draft.handlerAt d.fresh catches finalizer).finalizer d.fresh)
        (d₁'.leaveRegion (Draft.handlerAt d'.fresh catches finalizer).finalizer d'.fresh) := by
  have hso := hs.openTry catches finalizer block
  have hopen := hso.trimmed
  have hk : Drawn S d (d.openTry S.types catches finalizer block) _ :=
    (Drawn.refl hs.steady).openTry S.types catches finalizer block
  have hres := LocalVar.part_resources resources rfl hso.steady hso.fits
  have hprepared : Trimmed ρ false
      (LocalVar.drawResources (S.guarded (Draft.handlerAt d.fresh catches finalizer)) resources
        (d.openTry S.types catches finalizer block))
      (LocalVar.drawResources (scope.guarded (Draft.handlerAt d'.fresh catches finalizer)) resources
        (d'.openTry scope.types catches finalizer block)) := by
    rw [hso.named]
    exact LocalVar.trimmed_resources resources hopen
  have hsr := hso.after (.refl ρ _) hprepared hres.drawn fun _ _ hid => hid
  obtain ⟨ρ₁, ha₁, ht₁⟩ := Stmt.trims_all ih hsr h h'
  have ho₁ := hopen.agrees_trans (.refl ρ _) hprepared (hres.drawn.fresh_le hso.steady) ha₁
  have hlt : ∀ {id}, d.fresh ≤ id → id < Draft.firstCatch d.fresh finalizer + catches.length →
      id < (d.openTry S.types catches finalizer block).fresh :=
        fun hle hlt => hk.lt (Or.inr ⟨hle, hlt⟩)
  have hpast := Draft.lt_firstCatch d.fresh finalizer
  have hnames : ρ₁.NamesTry d.fresh d'.fresh catches finalizer := by
    constructor
    · refine hopen.name_eq ho₁ hs.trimmed.shift_fresh (hlt (Nat.le_refl _) ?_)
      exact Nat.lt_of_lt_of_le hpast (Nat.le_add_right _ _)
    · intro n hn
      refine hopen.name_eq ho₁ (Draft.firstCatch_rename hs.trimmed.shift finalizer n) (hlt ?_ ?_)
      · exact Nat.le_trans (Nat.le_of_lt hpast) (Nat.le_add_right _ n)
      · exact Nat.add_lt_add_left hn _
    · intro hsome
      obtain ⟨final, rfl⟩ := Option.isSome_iff_exists.mp hsome
      exact hopen.name_eq ho₁ (hs.trimmed.shift 1)
        (hso.fits.entries _ List.mem_cons_self _ (Or.inr rfl)).lt
  -- A list that a `finally` clause follows was kept whole.
  have hstray : (Draft.handlerAt d'.fresh catches finalizer).finalizer.isSome = true →
      (!Pruning.toTheRoot.keeps kept finalizer && Stmt.breaksOffIn stmts) = false := by
    intro hsome
    have hsome : finalizer.isSome = true := by rwa [Draft.handlerAt, Option.isSome_map] at hsome
    rw [Pruning.keeps, hsome, Bool.and_true, show Pruning.toTheRoot.sparesFinally = true from rfl,
      Bool.or_true, Bool.not_true, Bool.false_and]
  refine ⟨ρ₁, hs.trimmed.agrees_trans (.refl ρ _) hopen (hk.fresh_le hs.steady) ho₁, hnames, ?_⟩
  rw [hnames.finalizer]
  exact ht₁.leaveRegion _ hstray hnames.past

/-- A pruned `try` statement is trimmed as its parts are. -/
theorem Stmt.trims_try (resources : List LocalVar) {block : Block} {catches : List CatchClause}
    {finalizer : Option Block} (span : Span) (ihb : ∀ s ∈ block.stmts, s.Trims)
    (ihc : ∀ clause ∈ catches, ∀ s ∈ clause.body.stmts, s.Trims)
    (ihf : ∀ final, finalizer = some final → ∀ s ∈ final.stmts, s.Trims) :
    (Stmt.tryStmt resources block catches finalizer span).Trims := by
  intro kept ρ S scope labels d d' d₁ d₁' hs h h'
  obtain ⟨stmts, blockSpan⟩ := block
  rw [Stmt.prune_try, Block.prune, Stmt.draw_try] at h'
  rw [Stmt.draw_try] at h
  have hheads := CatchClause.keepsHead_prune .toTheRoot (Pruning.toTheRoot.keeps kept finalizer)
  have hspan : ∀ block : Block, (block.prune .toTheRoot kept).span = block.span := fun _ => rfl
  simp only [hheads.handlerAt, hheads.openTry _ hspan, Draft.firstCatch_map] at h'
  simp only [Stmt.breaksOff, Bool.and_false]
  obtain ⟨e₁, e₁', he₁, he₁', h, h'⟩ := Except.of_bind_ok₂ h h'
  obtain ⟨e₂, e₂', he₂, he₂', h, h'⟩ := Except.of_bind_ok₂ h h'
  obtain ⟨e₃, e₃', he₃, he₃', h, h'⟩ := Except.of_bind_ok₂ h h'
  cases h
  cases h'
  obtain ⟨_, _, hready⟩ :=
    CatchClause.Ready.body hs.steady hs.fits resources (fun s _ => s.faithful) he₁
  -- Block, clauses and `finally` clause in turn, each extending the naming of the one before.
  obtain ⟨ρ₁, ha₁, hnames, ht₁⟩ := Block.trims_region resources blockSpan ihb hs he₁ he₁'
  obtain ⟨ρ₂, ha₂, ht₂⟩ :=
    CatchClause.trims_all ihc hready hs.bounded ht₁ (hs.named_of_agrees ha₁) hnames.finalizer
    (Pruning.unguarded_of_keeps hs.unguarded rfl) hnames.clauses hnames.past he₂ he₂'
  have hag₂ := hs.trimmed.agrees_trans ha₁ ht₁ (hready.drawn.fresh_le hs.steady) ha₂
  obtain ⟨hdone, _⟩ := hready.all (fun _ _ s _ => s.faithful) he₂
  have hafter₂ := ht₁.name_eq ha₂ hnames.past (hready.drawn.lt hready.past.1)
  have hentry₂ : finalizer.isSome = true → ρ₂.name (d'.fresh + 1) = d.fresh + 1 := by
    intro hsome
    obtain ⟨final, rfl⟩ := Option.isSome_iff_exists.mp hsome
    exact ht₁.name_eq ha₂ (hnames.entry rfl) (hready.drawn.lt (hready.entry _ rfl).1)
  obtain ⟨ρ₃, ha₃, ht₃⟩ :=
    Block.trims_finalizer ihf hdone hs.bounded ht₂ (hs.named_of_agrees hag₂) hs.unguarded
    hafter₂ hentry₂ he₃ he₃'
  have hafter₃ := ht₂.name_eq ha₃ hafter₂ (hdone.drawn.lt hdone.past.1)
  refine ⟨ρ₃, ?_, ht₃.continueAt hafter₃⟩
  exact hs.trimmed.agrees_trans hag₂ ht₂ (hdone.drawn.fresh_le hs.steady) ha₃

/-! ## Statements -/

/-- Statements that carry labels never break off. -/
theorem Stmt.breaksOff_of_carriesLabels {s : Stmt} (h : s.carriesLabels = true) :
    s.breaksOff = false := by
  cases s with
  | whileStmt | doWhile | forStmt | forEach | switch | labeled => simp only [Stmt.breaksOff]
  | _ => exact nomatch h

theorem Stmt.trims_labeled (label : String) {body : Stmt} (span : Span) (ih : body.Trims) :
    (Stmt.labeled label body span).Trims := by
  intro kept ρ S scope labels d d' d₁ d₁' hs h h'
  rw [Stmt.prune, Stmt.draw_labeled, Stmt.carriesLabels_prune] at h'
  rw [Stmt.draw_labeled, hs.named, Scope.hasLabel_rename, ← hs.named] at h
  simp only [Stmt.breaksOff, Bool.and_false]
  split at h
  · exact nomatch h
  rename_i hnew
  rw [if_neg hnew] at h'
  split at h
  · rename_i hc
    rw [if_pos hc] at h'
    obtain ⟨ρ₁, ha₁, ht₁⟩ := ih hs h h'
    rw [Stmt.breaksOff_of_carriesLabels hc, Bool.and_false] at ht₁
    exact ⟨ρ₁, ha₁, ht₁⟩
  · rename_i hc
    rw [if_neg hc] at h'
    obtain ⟨e, e', he, he', h, h'⟩ := Except.of_bind_ok₂ h h'
    cases h
    cases h'
    have hw := Draft.LabelDrawn.of_parts hs.steady hs.fits (body.draws he)
    have hmade := hs.trimmed.create .normal none
    have hkind : TargetKind.labeled.rename ρ.name = .labeled := rfl
    have hsb := hs.inside hmade hw.made hkind hs.trimmed.shift_fresh hw.fits
    obtain ⟨ρ₁, ha₁, ht₁⟩ := ih hsb he he'
    have hafter₁ := hmade.name_eq ha₁ hs.trimmed.shift_fresh (hw.made.lt (Or.inr rfl))
    refine ⟨ρ₁, ?_, ht₁.continueAt hafter₁⟩
    exact hs.trimmed.agrees_trans (.refl ρ _) hmade (hw.made.fresh_le hs.steady) ha₁

/-- Every statement can be drawn without its tails. -/
theorem Stmt.trims (s : Stmt) : s.Trims := by
  -- `ρ` names the blocks of the shorter drawing in the longer one, and is extended on the way.
  induction s using Stmt.induct with
  | block b ih =>
    intro kept ρ S scope labels d d' d₁ d₁' hs h h'
    cases b
    rw [Stmt.draw] at h
    rw [Stmt.prune, Stmt.draw] at h'
    rw [Stmt.breaksOff]
    exact Stmt.trims_all ih hs h h'
  | expr e span =>
    intro kept ρ S scope labels d d' d₁ d₁' hs h h'
    rw [Stmt.draw] at h
    rw [Stmt.prune, Stmt.draw] at h'
    simp only [Stmt.breaksOff, Bool.and_false]
    cases h
    cases h'
    exact ⟨ρ, .refl ρ _, (hs.expr e).trimmed⟩
  | localVar decl =>
    intro kept ρ S scope labels d d' d₁ d₁' hs h h'
    rw [Stmt.draw, hs.named] at h
    rw [Stmt.prune, Stmt.draw] at h'
    simp only [Stmt.breaksOff, Bool.and_false]
    cases h
    cases h'
    exact ⟨ρ, .refl ρ _, decl.trimmed hs.trimmed⟩
  | ifStmt test cons alt span ihc iha => exact Stmt.trims_if test span ihc iha
  | whileStmt test body span ih => exact Stmt.trims_while test span ih
  | doWhile body test span ih => exact Stmt.trims_doWhile test span ih
  | forStmt init test update body span ihi ih => exact Stmt.trims_for test update span ihi ih
  | forEach var iterable body span ih => exact Stmt.trims_forEach var iterable span ih
  | switch selector groups span ih => exact Stmt.trims_switch selector span ih
  | tryStmt resources block catches finalizer span ihb ihc ihf =>
    exact Stmt.trims_try resources span ihb ihc ihf
  | labeled label body span ih => exact Stmt.trims_labeled label span ih
  | breakStmt label span =>
    intro kept ρ S scope labels d d' d₁ d₁' hs h h'
    rw [Stmt.draw, hs.named] at h
    rw [Stmt.prune, Stmt.draw] at h'
    -- The jump finds the same statement in the renamed scope.
    obtain ⟨target, ht, h'⟩ := Except.of_bind_ok h'
    rw [Scope.breakTarget_rename, ht] at h
    cases h
    cases h'
    rw [Scope.breakRoute_rename]
    refine ⟨ρ, .refl ρ _, hs.trimmed.jumpVia ?_ (scope.breakRoute target) span _⟩
    rfl
  | continueStmt label span =>
    intro kept ρ S scope labels d d' d₁ d₁' hs h h'
    rw [Stmt.draw, hs.named] at h
    rw [Stmt.prune, Stmt.draw] at h'
    obtain ⟨⟨target, next⟩, ht, h'⟩ := Except.of_bind_ok h'
    rw [Scope.continueTarget_rename, ht] at h
    cases h
    cases h'
    rw [Scope.continueRoute_rename]
    refine ⟨ρ, .refl ρ _, hs.trimmed.jumpVia ?_ (scope.continueRoute target next) span _⟩
    rfl
  | returnStmt arg span =>
    intro kept ρ S scope labels d d' d₁ d₁' hs h h'
    rw [Stmt.draw, hs.named] at h
    rw [Stmt.prune, Stmt.draw] at h'
    cases h
    cases h'
    rw [Scope.returnRoute_rename]
    exact ⟨ρ, .refl ρ _, (Expr.trimmed_option arg hs.trimmed).jumpVia rfl scope.returnRoute span _⟩
  | throwStmt arg span =>
    intro kept ρ S scope labels d d' d₁ d₁' hs h h'
    rw [Stmt.draw, hs.named] at h
    rw [Stmt.prune, Stmt.draw] at h'
    cases h
    cases h'
    rw [Scope.throwRoute_rename, ThrowRoute.edges_rename]
    exact ⟨ρ, .refl ρ _, ((arg.trimmed hs.trimmed).jump rfl _ span _).resumeAt _⟩
  | synchronized lock body span ih =>
    intro kept ρ S scope labels d d' d₁ d₁' hs h h'
    cases body
    rw [Stmt.draw] at h
    rw [Stmt.prune, Stmt.draw] at h'
    rw [Stmt.breaksOff]
    have hlock := (hs.expr lock).emit .synchronized span
    have hle := (lock.faithful hs.steady hs.fits).drawn.fresh_le hs.steady
    obtain ⟨ρ₁, ha₁, ht₁⟩ := Stmt.trims_all ih hlock h h'
    refine ⟨ρ₁, hs.trimmed.agrees_trans (.refl ρ _) hlock.trimmed (Nat.le_trans hle ?_) ha₁, ht₁⟩
    have hemit : Drawn S _ ((lock.draw S d).emit .synchronized span) _ :=
      (Drawn.refl (hs.expr lock).steady).emit .synchronized span
    exact hemit.fresh_le (hs.expr lock).steady
  | assertStmt test message span | empty span =>
    intro kept ρ S scope labels d d' d₁ d₁' hs h h'
    rw [Stmt.draw] at h
    rw [Stmt.prune, Stmt.draw] at h'
    simp only [Stmt.breaksOff, Bool.and_false]
    cases h
    cases h'
    exact ⟨ρ, .refl ρ _, hs.trimmed⟩
  | localClass ident span =>
    intro kept ρ S scope labels d d' d₁ d₁' hs h h'
    rw [Stmt.draw] at h
    rw [Stmt.prune, Stmt.draw] at h'
    simp only [Stmt.breaksOff, Bool.and_false]
    cases h
    cases h'
    exact ⟨ρ, .refl ρ _, hs.trimmed.emit _ span⟩
  | missing span =>
    intro kept ρ S scope labels d d' d₁ d₁' hs h h'
    rw [Stmt.draw] at h
    cases h

end MethodFlow
