import MethodFlow.Proofs.Tracing

/-!
# What is drawn after a statement

When a statement has been drawn, the rest of the drawing does not lead back into it: later edges go
to blocks that are made later still, or to blocks that were there before the statement. For the code
after the statement that is a matter of its scope, and a construct around the statement goes on in
blocks that it has made beforehand. So a site splits the drawing of a body in three: what is drawn
up to the statement, the statement, and a rest that spares its blocks (`Draft.Within`).

Main result: `Block.Has.within`.
-/

namespace MethodFlow

open Draft (Drawn Run Trace Traced)

namespace Draft

/-- Rules for edges alone. -/
def Rules.ofEdges (P : Edge → Prop) : Rules where
  edge := P
  resumption := fun _ => True
  ending := fun _ _ _ => True

/-- No edge may lead to a block from `lo` on and before `hi`. -/
def Rules.sparing (lo hi : BlockId) : Rules := .ofEdges fun e => e.target < lo ∨ hi ≤ e.target

/-- Edges that spare a range lead nowhere into it. -/
theorem Rules.not_sparing {lo hi : BlockId} {e : Edge} (hlo : lo ≤ e.target) (hhi : e.target < hi) :
    ¬ (sparing lo hi).edge e := by
  rintro (hlt | hge)
  · exact absurd hlt (Nat.not_lt_of_le hlo)
  · exact absurd hhi (Nat.not_lt_of_le hge)

/-- Code of a scope that was there before a range spares the range. -/
theorem Rules.admits_sparing {scope : Scope} {d : Draft} {lo hi : BlockId} (R : Rules)
    (hfit : scope.Fits d) (hle : d.fresh ≤ lo) : (sparing lo hi).Admits R scope hi where
  new he := Or.inr he
  leaves he := Or.inl (Nat.lt_of_lt_of_le (hfit.lt he.names) hle)
  resumption _ := trivial
  ending _ := trivial

/-- What spares many blocks spares some of them. -/
theorem Trace.spare_less {lo hi lo' hi' : BlockId} {d d' : Draft} (h : Trace (.sparing lo hi) d d')
    (hlo : lo ≤ lo') (hhi : hi' ≤ hi) : Trace (.sparing lo' hi') d d' :=
  h.mono (fun _ he => he.imp (fun he => Nat.lt_of_lt_of_le he hlo) (Nat.le_trans hhi))
    (fun _ hp => hp)
    fun _ _ _ he => he

/-- From `d₁` to `d₂` something is drawn on the way from `d` to `d'`, and what is drawn after it
leads to none of its blocks. -/
structure Within (d d₁ d₂ d' : Draft) : Prop where
  before : Run d d₁
  rest : Trace (.sparing d₁.fresh d₂.fresh) d₂ d'

namespace Within

variable {d d₁ d₂ d' : Draft}

/-- What is drawn within a part is drawn within the whole. -/
theorem trans {c₁ c₂ : Draft} (h : Within d d₁ d₂ d') (inner : Within d₁ c₁ c₂ d₂) (hd₁ : d₁.Steady)
    (hc₂ : c₂.Steady) : Within d c₁ c₂ d' := by
  have hlo := (inner.before.extends hd₁).fresh_le
  have hhi := (inner.rest.run.extends hc₂).fresh_le
  exact ⟨h.before.trans inner.before, inner.rest.trans (h.rest.spare_less hlo hhi)⟩

end Within

end Draft

open Draft (Within)

section Sites

variable {types : Subtyping} {body : Block} {D : Draft} (hD : Graph.draft types body = .ok D)
include hD

/-! ## Lists -/

/-- A statement in a list is drawn within the rest of the list. -/
theorem Stmt.Begins.within {stmts : List Stmt} {fs : List Frame} {s : Stmt} {d d₁ d' : Draft}
    (h : Stmt.Begins (Frame.scope types fs) stmts d s d₁) (hd : d.Steady)
    (hfit : (Frame.scope types fs).Fits d)
    (hhas : ∀ {s d₁}, Stmt.Begins (Frame.scope types fs) stmts d s d₁ →
      body.Has types ⟨s, fs, [], d₁⟩)
    (hall : Stmt.drawAll stmts (Frame.scope types fs) d = .ok d') :
    ∃ d₂, s.draw (Frame.scope types fs) [] d₁ = .ok d₂ ∧ d₂.Steady ∧ Within d d₁ d₂ d' := by
  induction h with
  | head =>
    rw [Stmt.drawAll] at hall
    obtain ⟨d₂, h₂, hall⟩ := Except.of_bind_ok hall
    have hp := Stmt.draws _ h₂ hd hfit
    have hrest :=
      Stmt.trace_all (fun s _ => s.traceable hD) hp.steady (hp.fits hd hfit fun _ _ hid => hid)
      (fun hb => hhas (.tail h₂ hb)) hall
    exact ⟨d₂, h₂, hp.steady, .refl _,
      hrest.admitted (Draft.Rules.admits_sparing _ hfit (Nat.le_refl _))⟩
  | tail h₁ _ ih =>
    rw [Stmt.drawAll] at hall
    obtain ⟨d₂, h₂, hall⟩ := Except.of_bind_ok hall
    cases h₁.symm.trans h₂
    have hp := Stmt.draws _ h₁ hd hfit
    obtain ⟨d₃, h₃, hd₃, hw⟩ := ih hp.steady (hp.fits hd hfit fun _ _ hid => hid)
      (fun hb => hhas (.tail h₁ hb)) hall
    exact ⟨d₃, h₃, hd₃, hp.run.trans hw.before, hw.rest⟩

/-- A case group is drawn within the rest of its switch. -/
theorem CaseGroup.Begins.within (fs : List Frame) {groups : List CaseGroup} {block after : BlockId}
    {group : CaseGroup} {d d₁ d' : Draft}
    (h : CaseGroup.Begins (Frame.scope types fs) after groups block d group d₁)
    (hr : CaseGroup.Ready (Frame.scope types fs) groups block after d)
    (hhas : ∀ {group d₁ s d₂},
      CaseGroup.Begins (Frame.scope types fs) after groups block d group d₁ →
      Stmt.Begins (Frame.scope types fs) group.body d₁ s d₂ → body.Has types ⟨s, fs, [], d₂⟩)
    (hall : CaseGroup.drawAll groups (Frame.scope types fs) block after d = .ok d') :
    d₁.Steady ∧ (Frame.scope types fs).Fits d₁ ∧
      ∃ d₂, Stmt.drawAll group.body (Frame.scope types fs) d₁ = .ok d₂ ∧ Within d d₁ d₂ d' := by
  induction h with
  | @head group groups block d =>
    rw [CaseGroup.drawAll_cons] at hall
    obtain ⟨d₂, h₂, hall⟩ := Except.of_bind_ok hall
    obtain ⟨hs, hp, hend, hr'⟩ := hr.step (fun s _ => s.faithful) h₂
    have hle := hr.opened.fresh_le hr.steady
    have hpast := Nat.lt_of_lt_of_le hr.past.lt hle
    have hwait : d₂.Waiting after := (hp.drawn.waiting after).mpr
      ((hr.opened.waiting after).mpr ⟨hr.past, Nat.ne_of_lt hr.past_lt⟩)
    -- The blocks of all groups were made before the first of them was drawn.
    have hblocks : ∀ id, id < block + 1 + groups.length → id < (d.continueAt block).fresh := by
      intro id hlt
      have hlast := hr.blocks (block + groups.length) (Nat.le_add_right _ _)
        (by rw [List.length_cons]; exact Nat.lt_succ_self _)
      have hid : id ≤ block + groups.length := by grind
      exact Nat.lt_of_lt_of_le (Nat.lt_of_le_of_lt hid hlast.lt) hle
    have hfinish :
        Trace (.sparing (d.continueAt block).fresh d₂.fresh) d₂ (group.finish d₂ after) := by
      unfold CaseGroup.finish
      split
      · exact .leaveArrowGroup hp.drawn.steady hwait (Or.inl hpast)
      · exact .single .mark
    have hrest := CaseGroup.trace_all
      (Draft.Rules.admits_sparing (body.rules types fs) hr.fits_opened (Nat.le_refl _))
      (fun _ _ s _ => s.traceable hD) hr' (fun hg hb => hhas (.tail h₂ hg) hb)
      (CaseGroup.extends_finish hp.drawn.steady group after).fresh_le
      (fun id _ hlt => Or.inl (hblocks id hlt)) (Or.inl hpast) hall
    exact ⟨hs, hr.fits_opened, d₂, h₂, hr.opened.run, hfinish.trans hrest⟩
  | tail h₁ _ ih =>
    rw [CaseGroup.drawAll_cons] at hall
    obtain ⟨d₂, h₂, hall⟩ := Except.of_bind_ok hall
    cases h₁.symm.trans h₂
    obtain ⟨_, _, hend, hr'⟩ := hr.step (fun s _ => s.faithful) h₁
    obtain ⟨hd₁, hfit₁, d₃, h₃, hw⟩ := ih hr' (fun hg hb => hhas (.tail h₁ hg) hb) hall
    exact ⟨hd₁, hfit₁, d₃, h₃, hend.run.trans hw.before, hw.rest⟩

/-! ## `try` statements -/

omit hD in
/-- The scope of the catch clauses names what the scope around the statement does, and the `finally`
clause. -/
theorem Guard.target_lt_firstCatch {g : Guard} (hfit : g.scope.Fits g.draft) {e : Edge}
    (he : g.clauseScope.Leaves e) : e.target < g.firstCatch := by
  rcases he.names.of_guarded with hn | ⟨_, hc, _⟩ | hf
  · exact Nat.lt_trans (hfit.lt hn) (Draft.lt_firstCatch _ _)
  · exact nomatch hc
  · exact (Guard.of_finalBlock? hf).2

omit hD in
theorem Guard.admits_sparing {g : Guard} (R : Draft.Rules) (hfit : g.scope.Fits g.draft)
    {lo : BlockId} (hle : g.firstCatch ≤ lo) (hi : BlockId) :
    (Draft.Rules.sparing lo hi).Admits R g.clauseScope hi where
  new he := Or.inr he
  leaves he := Or.inl (Nat.lt_of_lt_of_le (Guard.target_lt_firstCatch hfit he) hle)
  resumption _ := trivial
  ending _ := trivial

/-- From the end of the `try` block to the end of the catch clauses, with code before that is
spared. -/
theorem CatchClause.Begins.within {clauses : List CatchClause} {g : Guard} {fs : List Frame}
    {block : BlockId} {W : BlockId → Prop} {clause : CatchClause} {d d₁ d' : Draft}
    (h : CatchClause.Begins g.clauseScope g.finalBlock? g.after clauses block d clause d₁)
    (hscope : g.scope = Frame.scope types fs) (hguard : body.HasGuard types g)
    (hr : CatchClause.Ready g.scope g.draft g.finalBlock? g.after clauses block W d)
    (hfirst : g.firstCatch ≤ d.fresh)
    (hhas : ∀ {clause d₁ s d₂},
      CatchClause.Begins g.clauseScope g.finalBlock? g.after clauses block d clause d₁ →
      Stmt.Begins g.clauseScope clause.body.stmts d₁ s d₂ →
      body.Has types ⟨s, .catchClause g :: fs, [], d₂⟩)
    (hall : CatchClause.drawAll clauses g.clauseScope g.finalBlock? block g.after d = .ok d') :
    d₁.Steady ∧ g.clauseScope.Fits d₁ ∧
      ∃ d₂, Stmt.drawAll clause.body.stmts g.clauseScope d₁ = .ok d₂ ∧ Within d d₁ d₂ d' := by
  induction h generalizing W with
  | @head clause clauses block d =>
    rw [CatchClause.drawAll_cons] at hall
    obtain ⟨d₂, h₂, hall⟩ := Except.of_bind_ok hall
    obtain ⟨hs, hp, hr'⟩ := hr.step (fun s _ => s.faithful) h₂
    obtain ⟨hpast, hentry⟩ := hr.past_clause
    have hb := hr.drawn_clause hp.drawn
    have hlo : g.firstCatch ≤ (d.start block).fresh := by
      rw [Draft.fresh_start]
      exact hfirst
    have hafter : g.after < (d.start block).fresh :=
      Nat.lt_of_lt_of_le (Draft.lt_firstCatch _ _) hlo
    have hfinal : ∀ entry, g.finalBlock? = some entry → entry < (d.start block).fresh :=
      fun entry hf =>
      Nat.lt_of_lt_of_le (Guard.of_finalBlock? hf).2 hlo
    have hleave : Trace (.sparing (d.start block).fresh d₂.fresh) d₂
        (d₂.leaveRegion g.finalBlock? g.after) :=
      .leaveRegion hb.steady ((hb.waiting _).mpr hpast) (fun _ => Or.inl hafter)
        (fun entry hf => ⟨(hb.waiting _).mpr (hentry entry hf), Or.inl (hfinal entry hf)⟩)
          fun _ _ => trivial
    -- The later clauses are drawn outside this one, so they spare its blocks.
    have hrest := CatchClause.trace_all hscope hguard (fun _ _ s _ => s.traceable hD) hr'
      (Guard.admits_sparing (body.rules types (.catchClause g :: fs)) hr.fits hlo d₂.fresh)
      (Draft.extends_leaveRegion hb.steady g.finalBlock? g.after).fresh_le (fun _ => Or.inl hafter)
      (fun entry hf => Or.inl (hfinal entry hf)) (fun hc hb => hhas (.tail h₂ hc) hb) hall
    have hlen : block < block + (clause :: clauses).length :=
      Nat.lt_add_of_pos_right (Nat.succ_pos _)
    have hopen : Trace (.sparing 0 0) d (d.start block) :=
      .start hr.idle ((hr.drawn.waiting _).mpr (hr.blocks block (Nat.le_refl _) hlen))
    exact ⟨hs, hr.opened_clause.2, d₂, h₂, hopen.run, hleave.trans hrest⟩
  | @tail clause _ clauses block d d₂ _ h₂ _ ih =>
    rw [CatchClause.drawAll_cons] at hall
    obtain ⟨_, h₂', hall⟩ := Except.of_bind_ok hall
    cases h₂.symm.trans h₂'
    obtain ⟨hs, hp, hr'⟩ := hr.step (fun s _ => s.faithful) h₂
    obtain ⟨hpast, hentry⟩ := hr.past_clause
    have hb := hr.drawn_clause hp.drawn
    have hlen : block < block + (clause :: clauses).length :=
      Nat.lt_add_of_pos_right (Nat.succ_pos _)
    have hopen : Trace (.sparing 0 0) d (d.start block) :=
      .start hr.idle ((hr.drawn.waiting _).mpr (hr.blocks block (Nat.le_refl _) hlen))
    have hleave : Trace (.sparing 0 0) d₂ (d₂.leaveRegion g.finalBlock? g.after) :=
      .leaveRegion hb.steady ((hb.waiting _).mpr hpast) (fun _ => Or.inr (Nat.zero_le _))
        (fun entry hf => ⟨(hb.waiting _).mpr (hentry entry hf), Or.inr (Nat.zero_le _)⟩)
          fun _ _ => trivial
    -- An earlier clause lies before the statement: only that it runs matters.
    have hrun : Run d (d₂.leaveRegion g.finalBlock? g.after) :=
      (hopen.run.trans hp.drawn.run).trans hleave.run
    have hle : g.firstCatch ≤ (d₂.leaveRegion g.finalBlock? g.after).fresh := by
      refine Nat.le_trans hfirst ?_
      exact ((Draft.extends_start hr.idle block).trans ((hp.drawn.run.extends hs).trans
        (Draft.extends_leaveRegion hb.steady _ _))).fresh_le
    obtain ⟨hd₁, hfit₁, d₃, h₃, hw⟩ := ih hr' hle (fun hc hb => hhas (.tail h₂ hc) hb) hall
    exact ⟨hd₁, hfit₁, d₃, h₃, hrun.trans hw.before, hw.rest⟩

section Guards

variable {g : Guard} {s : Site} {d₁ d₂ d₃ : Draft}

omit hD in
theorem Guard.Drawn.firstCatch_le (hw : g.Drawn d₁ d₂) : g.firstCatch ≤ g.opened.fresh := by
  have hle : g.firstCatch + g.catches.length < g.opened.fresh := by
    refine Nat.lt_of_lt_of_le ?_ ((LocalVar.part_resources g.resources rfl hw.opened.steady
      hw.fits_opened).drawn.fresh_le hw.opened.steady)
    rw [Draft.fresh_openTry]
    exact Nat.lt_succ_self _
  exact Nat.le_of_lt (Nat.lt_of_le_of_lt (Nat.le_add_right _ _) hle)

/-- The `finally` clause is entered from nowhere in it, and goes on past the statement. -/
theorem Guard.rest_finally (hhas : body.Has types s) (hg : s.guard? types = some g)
    (h₂ : g.drawGuarded = .ok d₂) (hw : g.Drawn d₁ d₂)
    (h₃ : Block.drawFinalizer g.finalizer g.scope g.after d₂ = .ok d₃) :
    Trace (.sparing (g.after + 1) d₂.fresh) d₂ d₃ := by
  have hfit : g.scope.Fits g.draft := hw.ready.fits
  exact Guard.trace_finally hhas hg (fun _ _ s _ => s.traceable hD) h₂ hw
    (Draft.Rules.admits_sparing _ hfit (Nat.le_succ _)) (Nat.le_refl _)
    (Or.inl (Nat.lt_succ_self _)) h₃

/-- The catch clauses do not lead to one another, nor back to the `try` block. -/
theorem Guard.rest_clauses (hhas : body.Has types s) (hg : s.guard? types = some g)
    (h₁ : g.drawBlock = .ok d₁) (h₂ : g.drawGuarded = .ok d₂) (hw : g.Drawn d₁ d₂) :
    Trace (.sparing g.firstCatch d₁.fresh) d₁ d₂ := by
  obtain ⟨hscope, _, _⟩ := Site.of_guard? hg
  have hafter : g.after < g.firstCatch := Draft.lt_firstCatch _ _
  have hfinal : ∀ entry, g.finalBlock? = some entry → entry < g.firstCatch := fun entry hf =>
    (Guard.of_finalBlock? hf).2
  have hleave : Trace (.sparing g.firstCatch d₁.fresh) d₁ (g.leaveBlock d₁) :=
    .leaveRegion hw.after_block.steady ((hw.after_block.waiting _).mpr hw.ready.past.1)
      (fun _ => Or.inl hafter)
      (fun entry hf =>
        ⟨(hw.after_block.waiting _).mpr (hw.ready.entry entry hf).1, Or.inl (hfinal entry hf)⟩)
      fun _ _ => trivial
  rw [Guard.drawGuarded, h₁] at h₂
  exact hleave.trans
    (CatchClause.trace_all hscope ⟨s, hhas, hg⟩ (fun _ _ s _ => s.traceable hD) hw.ready
    (Guard.admits_sparing (body.rules types (.catchClause g :: s.frames)) hw.ready.fits
      (Nat.le_refl _) d₁.fresh)
    (hleave.run.extends hw.after_block.steady).fresh_le (fun _ => Or.inl hafter)
    (fun entry hf => Or.inl (hfinal entry hf)) (fun hc hb => hhas.part (.inCatch hg h₁ hc hb)) h₂)

omit hD in
theorem Draft.current_leaveFinalizer (d : Draft) (entry after : BlockId) :
    (d.leaveFinalizer entry after).current = none := by
  unfold Draft.leaveFinalizer
  split <;> simp

omit hD in
/-- When all has been drawn, no block is open, so that nothing runs on into the block after the
statement. -/
theorem Guard.Drawn.rest_past {R : Draft.Rules} (hw : g.Drawn d₁ d₂)
    (h₃ : Block.drawFinalizer g.finalizer g.scope g.after d₂ = .ok d₃) :
    Trace R d₃ (d₃.continueAt g.after) := by
  obtain ⟨hended, _⟩ := hw.done.drawFinalizer (fun _ _ s _ => s.faithful) h₃
  have hidle : d₃.current = none := by
    cases hfinal : g.finalizer with
    | none =>
      rw [hfinal, Block.drawFinalizer] at h₃
      cases h₃
      exact hw.done.idle
    | some final =>
      rw [hfinal, Block.drawFinalizer_some] at h₃
      obtain ⟨d₄, _, h₃⟩ := Except.of_bind_ok h₃
      cases h₃
      exact Draft.current_leaveFinalizer _ _ _
  exact .continueAt_of_none hidle ((hended.waiting _).mpr
    ⟨hw.done.past.1, fun _ => Nat.ne_of_lt (Nat.lt_succ_self _)⟩)

variable {c : Stmt} {d' : Draft} {clause : CatchClause} {final : Block}

/-- A statement of the `try` block is drawn within the `try` statement. -/
theorem Site.within_try (hhas : body.Has types s) (hg : s.guard? types = some g)
    (hb : Stmt.Begins g.blockScope g.block.stmts g.opened c d') :
    ∃ d₄ d₅, Site.draw types ⟨c, .tryBlock g :: s.frames, [], d'⟩ = .ok d₄ ∧
      s.draw types = .ok d₅ ∧ Within s.draft d' d₄ d₅ := by
  obtain ⟨d₁, d₂, d₃, h₁, h₂, hw, h₃, hdraw', _⟩ := (hhas.good hD).guard hg
  obtain ⟨hscope, hdraft, _⟩ := Site.of_guard? hg
  have hblockScope : g.blockScope = Frame.scope types (.tryBlock g :: s.frames) := by
    rw [Guard.blockScope, hscope]
    rfl
  have hall : Stmt.drawAll g.block.stmts g.blockScope g.opened = .ok d₁ := h₁
  rw [hblockScope] at hb hall
  obtain ⟨d₄, h₄, hd₄, hin⟩ := hb.within hD hw.resourced.steady (hblockScope ▸ hw.fits_block)
    (fun hb => hhas.part (.inTry hg (hblockScope ▸ hb))) hall
  have hclauses := Guard.rest_clauses hD hhas hg h₁ h₂ hw
  have hfirst : g.after < g.firstCatch := Draft.lt_firstCatch _ _
  -- What is drawn after the block makes no edge into it.
  have hfinal := (Guard.rest_finally hD hhas hg h₂ hw h₃).spare_less hfirst
    (hclauses.run.extends hw.after_block.steady).fresh_le
  have hout : Within g.draft g.opened d₁ (d₃.continueAt g.after) :=
    ⟨hw.resourced.run, ((hclauses.trans hfinal).spare_less hw.firstCatch_le (Nat.le_refl _)).trans
      (hw.rest_past h₃)⟩
  exact ⟨d₄, _, h₄, hdraw', hdraft ▸ hout.trans hin hw.resourced.steady hd₄⟩

/-- So is a statement of a catch clause. -/
theorem Site.within_catch (hhas : body.Has types s) (hg : s.guard? types = some g)
    (h₁ : g.drawBlock = .ok d₁)
    (hc : CatchClause.Begins g.clauseScope g.finalBlock? g.after g.catches g.firstCatch
      (g.leaveBlock d₁) clause d₂)
    (hb : Stmt.Begins g.clauseScope clause.body.stmts d₂ c d') :
    ∃ d₄ d₅, Site.draw types ⟨c, .catchClause g :: s.frames, [], d'⟩ = .ok d₄ ∧
      s.draw types = .ok d₅ ∧ Within s.draft d' d₄ d₅ := by
  obtain ⟨_, d₂, d₃, h₁', h₂, hw, h₃, hdraw', _⟩ := (hhas.good hD).guard hg
  cases h₁.symm.trans h₁'
  obtain ⟨hscope, hdraft, _⟩ := Site.of_guard? hg
  have hclauseScope : g.clauseScope = Frame.scope types (.catchClause g :: s.frames) := by
    rw [Guard.clauseScope, hscope]
    rfl
  have hclauses := h₂
  rw [Guard.drawGuarded, h₁] at hclauses
  have hfirst := Nat.le_trans hw.firstCatch_le (Nat.le_trans
    ((Stmt.part_all (fun s _ => s.faithful) hw.resourced.steady hw.fits_block h₁).drawn.fresh_le
      hw.resourced.steady)
        (Draft.extends_leaveRegion hw.after_block.steady g.finalBlock? g.after).fresh_le)
  obtain ⟨hs, hfit, d₄, h₄, hclause⟩ :=
    CatchClause.Begins.within hD hc hscope ⟨_, hhas, hg⟩ hw.ready hfirst
    (fun hc hb => hhas.part (.inCatch hg h₁ hc hb)) hclauses
  have hp := Stmt.part_all (fun s _ => s.faithful) hs hfit h₄
  rw [hclauseScope] at hb hfit h₄
  obtain ⟨d₅, h₅, hd₅, hin⟩ := hb.within hD hs hfit
    (fun hb => hhas.part (.inCatch hg h₁ hc (hclauseScope ▸ hb))) h₄
  have hout : Within g.draft (g.leaveBlock d₁) d₂ (d₃.continueAt g.after) :=
    ⟨hw.ready.drawn.run, ((Guard.rest_finally hD hhas hg h₂ hw h₃).spare_less
      (Nat.lt_of_lt_of_le (Draft.lt_firstCatch _ _) hfirst) (Nat.le_refl _)).trans
        (hw.rest_past h₃)⟩
  exact ⟨d₅, _, h₅, hdraw',
    hdraft ▸ (hout.trans hclause hw.ready.drawn.steady hp.drawn.steady).trans hin hs hd₅⟩

/-- So is a statement of the `finally` clause. -/
theorem Site.within_finally (hhas : body.Has types s) (hg : s.guard? types = some g)
    (hfinal : g.finalizer = some final) (h₂ : g.drawGuarded = .ok d₂)
    (hb : Stmt.Begins g.scope final.stmts (d₂.start (g.after + 1)) c d') :
    ∃ d₄ d₅, Site.draw types ⟨c, s.frames, [], d'⟩ = .ok d₄ ∧
      s.draw types = .ok d₅ ∧ Within s.draft d' d₄ d₅ := by
  obtain ⟨d₁, _, d₃, h₁, h₂', hw, h₃, hdraw', _⟩ := (hhas.good hD).guard hg
  cases h₂.symm.trans h₂'
  obtain ⟨_, hdraft, _⟩ := Site.of_guard? hg
  have hscope : g.scope = Frame.scope types s.frames := (Site.of_guard? hg).1
  have hdrawn := h₃
  rw [hfinal, Block.drawFinalizer_some] at hdrawn
  obtain ⟨d₄, h₄, hdrawn⟩ := Except.of_bind_ok hdrawn
  cases hdrawn
  have hdone := hw.done
  rw [Guard.finalBlock?, Guard.handler, Draft.handlerAt, hfinal] at hdone
  obtain ⟨ho, hfit⟩ := hdone.opened_finally
  obtain ⟨_, hlt, _⟩ := hdone.entry _ rfl
  have hp := (Stmt.part_all (fun s _ => s.faithful) ho.steady hfit h₄).drawn
  have hpast := (ho.waiting g.after).mpr ⟨hdone.past.1, Nat.ne_of_lt hlt⟩
  have hadmits : (Draft.Rules.sparing _ d₄.fresh).Admits _ _ _ :=
    Draft.Rules.admits_sparing (body.rules types s.frames) hfit (Nat.le_refl _)
  rw [hscope] at hb
  obtain ⟨d₅, h₅, hd₅, hin⟩ := hb.within hD ho.steady (hscope ▸ hfit)
    (fun hb => hhas.part (.inFinally hg hfinal h₂ (hscope ▸ hb))) (hscope ▸ h₄)
  have hout : Within g.draft (d₂.start (g.after + 1)) d₄ _ :=
    ⟨ho.run, (Trace.leaveFinalizer hp.steady (hp.fits ho.steady hfit fun _ _ hid => hid)
      ((hp.waiting _).mpr hpast) hadmits.leaves (Or.inl hpast.lt)
      (fun e he => hdone.pending_finally hp _ e rfl he) fun _ _ => trivial).trans (hw.rest_past h₃)⟩
  exact ⟨d₅, _, h₅, hdraw', hdraft ▸ hout.trans hin ho.steady hd₅⟩

end Guards

/-! ## Statements -/

/-- A part of a statement is drawn within it. -/
theorem Site.Part.within {s s' : Site} (hp : s.Part types s') (hhas : body.Has types s) :
    ∃ d₂ d', s'.draw types = .ok d₂ ∧ s.draw types = .ok d' ∧ Within s.draft s'.draft d₂ d' := by
  have h := hhas.good hD
  obtain ⟨d', hdraw, _, _⟩ := h.drawn
  have hres := hdraw
  -- One case per place of a part: the run up to it, and the trace of what is drawn past it.
  cases hp with
  | @inBlock stmts span fs labels d _ s hb =>
    rw [draw, Stmt.draw] at hres
    obtain ⟨d₂, h₂, _, hw⟩ := hb.within hD h.steady h.fits (fun hb => hhas.part (.inBlock hb)) hres
    exact ⟨d₂, d', h₂, hdraw, hw⟩
  | @inSynchronized lock stmts bodySpan span fs labels d _ s hb =>
    rw [draw, Stmt.draw] at hres
    have hlock : Draft.Part (Frame.scope types fs) [] d
        ((lock.draw (Frame.scope types fs) d).emit .synchronized span) _ :=
      (lock.faithful h.steady h.fits).andThen h.steady h.fits fun hd _ =>
        .emit hd .synchronized span
    obtain ⟨d₂, h₂, _, hw⟩ := hb.within hD hlock.drawn.steady (hlock.fits h.steady h.fits)
      (fun hb => hhas.part (.inSynchronized hb)) hres
    exact ⟨d₂, d', h₂, hdraw, hlock.drawn.run.trans hw.before, hw.rest⟩
  | @thenBranch test cons alt span fs labels d =>
    rw [draw, Stmt.draw_if] at hres
    obtain ⟨d₁, h₁, hres⟩ := Except.of_bind_ok hres
    obtain ⟨d₂, h₂, hres⟩ := Except.of_bind_ok hres
    cases hres
    have ht := test.faithful h.steady h.fits
    have hfit := ht.fits h.steady h.fits
    cases alt with
    | none =>
      rw [Stmt.drawElse] at h₂
      cases h₂
      have hi := Draft.IfDrawn.of_parts ht.drawn.steady hfit (cons.draws h₁)
      have hjoin :=
        (hi.opened.waiting ((test.draw (Frame.scope types fs) d).fresh + 1)).mpr (Or.inr rfl)
      exact ⟨d₁, _, h₁, hdraw, ht.drawn.run.trans hi.opened.run,
        .continueAt hi.after_cons.steady ((hi.after_cons.waiting _).mpr (Or.inr rfl))
          (Or.inl hjoin.lt)⟩
    | some alt =>
      rw [Stmt.drawElse] at h₂
      have hi := Draft.IfElseDrawn.of_parts ht.drawn.steady hfit (cons.draws h₁) (alt.draws h₂)
      have hlt := ((hi.opened.waiting ((test.draw (Frame.scope types fs) d).fresh + 1)).mpr
        (Or.inr (Or.inl rfl))).lt
      have hjoin := (hi.after_cons.waiting _).mpr (Or.inr (Or.inl rfl))
      have hother := (hi.after_cons.waiting _).mpr (Or.inr (Or.inr rfl))
      have hturn := Draft.extends_turn hi.after_cons.steady .sequential
        ((test.draw (Frame.scope types fs) d).fresh + 1)
        ((test.draw (Frame.scope types fs) d).fresh + 2)
      -- The other branch makes no edge into the blocks of the first.
      have halt := (alt.traceable hD (hhas.part (.elseBranch rfl h₁)) h₂).admitted
        ((Draft.Rules.admits_sparing _ hi.fits_cons (Nat.le_refl _)).of_le hturn.fresh_le)
      exact ⟨d₁, _, h₁, hdraw, ht.drawn.run.trans hi.opened.run,
        ((Trace.turn hi.after_cons.steady (Or.inl rfl) (Draft.Waiting.expects hjoin) (Or.inl hlt)
          hother).trans halt).trans
          (.continueAt hi.after_alt.steady ((hi.after_alt.waiting _).mpr (Or.inr rfl))
            (Or.inl hlt))⟩
  | @elseBranch test cons alt span fs labels d dt d₁ hdt h₁ =>
    subst hdt
    rw [draw, Stmt.draw_if] at hres
    obtain ⟨_, h₁', hres⟩ := Except.of_bind_ok hres
    obtain ⟨d₂, h₂, hres⟩ := Except.of_bind_ok hres
    cases hres
    cases h₁.symm.trans h₁'
    rw [Stmt.drawElse] at h₂
    have ht := test.faithful h.steady h.fits
    have hi := Draft.IfElseDrawn.of_parts ht.drawn.steady (ht.fits h.steady h.fits)
      (cons.draws h₁) (alt.draws h₂)
    have hjoin :=
      (hi.turned.waiting ((test.draw (Frame.scope types fs) d).fresh + 1)).mpr (Or.inr rfl)
    exact ⟨d₂, _, h₂, hdraw, ht.drawn.run.trans hi.turned.run,
      .continueAt hi.after_alt.steady ((hi.after_alt.waiting _).mpr (Or.inr rfl)) (Or.inl hjoin.lt)⟩
  | @whileBody test inner span fs labels d dt hdt =>
    subst hdt
    obtain ⟨d₁, h₁, rfl, hw⟩ := Stmt.drawn_while h.steady h.fits hdraw
    have hlt := ((hw.entered.waiting _).mpr (Or.inr rfl)).lt
    refine ⟨d₁, _, h₁, hdraw, hw.entered.run, .turn hw.after_body.steady (Or.inr rfl)
      (Or.inr (Or.inr ⟨hw.round, Or.inl rfl⟩)) (Or.inl ?_)
      ((hw.after_body.waiting _).mpr (Or.inr rfl))⟩
    exact Nat.lt_of_le_of_lt (Nat.le_succ_of_le (hw.after_test.fresh_le h.steady)) hlt
  | @doBody inner test span fs labels d =>
    obtain ⟨d₁, h₁, rfl, hw⟩ := Stmt.drawn_doWhile h.steady h.fits hdraw
    have hfit := hw.opened.fits h.steady h.fits fun _ _ hid => Or.inl hid
    have hlt := ((hw.opened.waiting (d.fresh + 2)).mpr (Or.inr (Or.inr rfl))).lt
    have htest : Traced (body.rules types fs) (Frame.scope types fs) _ _ :=
      test.traced Block.resumes_exceptional hw.turned.steady hw.fits_test
    have hround :
        d.fresh ≤ (test.draw (Frame.scope types fs) (d₁.continueAt (d.fresh + 1))).openBlock :=
      htest.drawn.openBlock_new hw.turned.steady (hw.turned.fresh_le h.steady)
        fun id hid => Option.some.inj hid ▸ Nat.le_succ _
    have hpast := (hw.after_test.waiting (d.fresh + 2)).mpr (Or.inr rfl)
    have hnext := (hw.after_body.waiting (d.fresh + 1)).mpr (Or.inr (Or.inl rfl))
    have hturn := Draft.extends_continueAt hw.after_body.steady (d.fresh + 1)
    exact ⟨d₁, _, h₁, hdraw, hw.opened.run,
      (((Trace.continueAt hw.after_body.steady hnext (Or.inl (Nat.lt_of_succ_lt hlt))).trans
        (htest.trace.admitted
          ((Draft.Rules.admits_sparing _ hfit (Nat.le_refl _)).of_le hturn.fresh_le))).trans
        (.branch hw.after_test.steady _ (Or.inr (Or.inr ⟨hw.round, Or.inr hround⟩)) hpast
          ⟨Or.inl (Nat.lt_of_succ_lt (Nat.lt_of_succ_lt hlt)), Or.inl hlt⟩)).trans
        (.start (by simp) ((Draft.waiting_terminate hw.after_test.steady _ _ _ _).mpr hpast))⟩
  | @forInit init test update inner s span fs labels d _ hb =>
    obtain ⟨d₀, d₁, h₀, hinit, h₁, rfl, hw⟩ := Stmt.drawn_for h.steady h.fits hdraw
    obtain ⟨d₂, h₂, hd₂, hin⟩ := hb.within hD h.steady h.fits (fun hb => hhas.part (.forInit hb)) h₀
    have hlo := (hin.before.extends h.steady).fresh_le
    have hhi := (hin.rest.run.extends hd₂).fresh_le
    have hrounds :=
      Stmt.trace_rounds test update span hhas (inner.traceable hD) h₀ hw hinit.steady h₁
    exact ⟨d₂, _, h₂, hdraw, hin.before, hin.rest.trans
      (hrounds.admitted ((Draft.Rules.admits_sparing _ h.fits hlo).of_le hhi))⟩
  | @forBody init test update inner span fs labels d d₀ dm h₀ hm =>
    subst hm
    obtain ⟨_, d₁, h₀', hinit, h₁, rfl, hw⟩ := Stmt.drawn_for h.steady h.fits hdraw
    cases h₀.symm.trans h₀'
    have hfit := hw.entered.fits hinit.steady (hinit.fits h.steady h.fits fun _ _ hid => hid)
      fun _ _ hid => Or.inl hid
    have hpast := ((hw.entered.waiting (d₀.fresh + 2)).mpr (Or.inr (Or.inl rfl))).lt
    -- After the body come the updates, which lie outside it, and the edge back to the test.
    have hupdate :=
      Trace.updateFor (R := body.rules types fs) Block.resumes_exceptional hw.after_body.steady
      hw.fits_update update (Nat.le_refl _) (Draft.Rules.admits_sparing _ hfit (Nat.le_refl _))
      fun he => ⟨Or.inl ?_, hw.next he⟩
    · exact ⟨d₁, _, h₁, hdraw, hinit.run.trans hw.entered.run, hupdate.trans
        (.turn hw.updated.steady (Or.inr rfl) (Or.inr (Or.inr ⟨hw.round, Or.inl rfl⟩))
          (Or.inl (Nat.lt_of_succ_lt (Nat.lt_of_succ_lt hpast)))
          ((hw.updated.waiting _).mpr (Or.inr rfl)))⟩
    · have hnext : Draft.forNext d₀.fresh update = d₀.fresh + 3 := by
        rw [Draft.forNext, he]
        rfl
      show Draft.forNext d₀.fresh update < _
      rw [hnext]
      exact ((hw.entered.waiting (d₀.fresh + 3)).mpr (Or.inr (Or.inr ⟨he, rfl⟩))).lt
  | @eachBody var iterable inner span fs labels d di hdi =>
    subst hdi
    obtain ⟨d₁, h₁, rfl, hw⟩ := Stmt.drawn_forEach h.steady h.fits hdraw
    have hi := iterable.faithful h.steady h.fits
    have hlt := ((hw.entered.waiting _).mpr (Or.inr rfl)).lt
    exact ⟨d₁, _, h₁, hdraw, hi.drawn.run.trans hw.entered.run,
      .turn hw.after_body.steady (Or.inr rfl)
      (Or.inr (Or.inr ⟨hw.round, Or.inl rfl⟩)) (Or.inl (Nat.lt_of_succ_lt (Nat.lt_of_succ_lt hlt)))
      ((hw.after_body.waiting _).mpr (Or.inr rfl))⟩
  | @inGroup selector groups span fs labels d ds _ _ group s hds hg hb =>
    subst hds
    rw [draw, Stmt.draw_switch] at hres
    obtain ⟨d₁, h₁, hres⟩ := Except.of_bind_ok hres
    cases hres
    have hsel := selector.faithful h.steady h.fits
    have hopen : Trace ((body.rules types fs).inScope (Frame.scope types fs) _) _ _ :=
      .openSwitch hsel.drawn.steady groups selector.span
    have hready :=
      CaseGroup.ready_openSwitch hsel.drawn.steady (hsel.fits h.steady h.fits) labels groups
      selector.span
    have hall := CaseGroup.drawn_all hready (fun _ _ s _ => s.faithful) h₁
    obtain ⟨hd₁, hfit₁, d₂, h₂, hgroup⟩ :=
      CaseGroup.Begins.within hD (.target labels .switch _ :: fs) hg
      hready (fun hg hb => hhas.part (.inGroup rfl hg hb)) h₁
    have hp := Stmt.part_all (fun s _ => s.faithful) hd₁ hfit₁ h₂
    have hb :
        Stmt.Begins (Frame.scope types (.target labels .switch _ :: fs)) group.body _ s _ := hb
    obtain ⟨d₃, h₃, hd₃, hin⟩ :=
      hb.within hD hd₁ hfit₁ (fun hb => hhas.part (.inGroup rfl hg hb)) h₂
    -- The statement is within its group, the group within the groups, and those within the switch.
    have hout : Within d _ d₁ (d₁.continueAt _) :=
      ⟨hsel.drawn.run.trans hopen.run, .continueAt hall.steady
        ((hall.waiting _).mpr ⟨hready.past, by grind⟩) (Or.inl hready.past.lt)⟩
    exact ⟨d₃, _, h₃, hdraw, (hout.trans hgroup hready.steady hp.drawn.steady).trans hin hd₁ hd₃⟩
  | inTry hg hb => exact Site.within_try hD hhas hg hb
  | inCatch hg h₁ hc hb => exact Site.within_catch hD hhas hg h₁ hc hb
  | inFinally hg hfinal h₂ hb => exact Site.within_finally hD hhas hg hfinal h₂ hb
  | @carried label inner span fs labels d hc =>
    rw [draw, Stmt.draw_labeled] at hres
    split at hres
    · cases hres
    exact ⟨d', d', hres, hdraw, .refl _, .refl _⟩
  | @labeled label inner span fs labels d hc =>
    rw [draw, Stmt.draw_labeled] at hres
    split at hres
    · cases hres
    split at hres
    · exact absurd ‹_› (Bool.eq_false_iff.mp hc)
    obtain ⟨d₁, h₁, hres⟩ := Except.of_bind_ok hres
    cases hres
    have hw := Draft.LabelDrawn.of_parts h.steady h.fits (inner.draws h₁)
    have hlt := ((hw.made.waiting _).mpr (Or.inr rfl)).lt
    exact ⟨d₁, _, h₁, hdraw, hw.made.run,
      .continueAt hw.after_body.steady ((hw.after_body.waiting _).mpr (Or.inr rfl)) (Or.inl hlt)⟩

/-- Every statement of a body is drawn within the body. -/
theorem Block.Has.within {s : Site} (h : body.Has types s) :
    ∃ d', s.draw types = .ok d' ∧ d'.Steady ∧ Within (.begun body.span) s.draft d' D := by
  induction h with
  | @top s d hb =>
    have h := hD
    obtain ⟨d₁, h₁, h⟩ := Except.of_bind_ok h
    cases h
    have hd := Draft.steady_begun body.span
    have hfit := Scope.fits_empty types (.begun body.span)
    have hp := (Stmt.part_all (fun s _ => s.faithful) hd hfit h₁).drawn
    have hb : Stmt.Begins (Frame.scope types []) body.stmts _ s d := hb
    obtain ⟨d₂, h₂, hd₂, hw⟩ := hb.within hD hd hfit .top h₁
    have hexit : Graph.exit < d.fresh := Nat.lt_of_lt_of_le (Draft.Awaits.lt (Or.inl rfl))
      (hw.before.extends hd).fresh_le
    exact ⟨d₂, h₂, hd₂, hw.before, hw.rest.trans
      (.passOn hp.steady (.fallThrough Graph.exit) (Or.inl rfl) (Or.inl hexit) nofun)⟩
  | @part s s' hs hpart ih =>
    obtain ⟨d', hdraw, _, hw⟩ := ih
    obtain ⟨d₂, _, hdraw₂, hdraw', hin⟩ := hpart.within hD hs
    cases hdraw.symm.trans hdraw'
    have hgood := hs.good hD
    have hgood' := (hs.part hpart).good hD
    have hd₂ := (s'.stmt.faithful hgood'.steady hgood'.fits hgood'.labels hdraw₂).drawn.steady
    exact ⟨d₂, hdraw₂, hd₂, hw.trans hin hgood.steady hd₂⟩

end Sites

end MethodFlow
