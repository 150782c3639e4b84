import MethodFlow.Proofs.Bounds
import MethodFlow.Proofs.Sites

/-!
# Every body is drawn by its own rules

The rules of a body (`Block.rules`) name what in its text each entry of the drawing comes from: a
resumption that is no exception comes from a jump of the body or from the end of a `try` block or
catch clause, and a block that ends a `finally` clause is the one that is open when the clause has
been drawn. Each statement of the body is drawn by these rules, with jumps from inside the
statement's own frames only, and, as far as edges go, within its scope.

Main results: `Stmt.traceable`, and for whole bodies `Graph.draft_trace`.
-/

namespace MethodFlow

open Draft (Drawn Trace Traced)

/-! ## The rules of a body -/

/-- The route by which a jump leaves. Exceptions are no jumps. -/
def Site.route? (types : Subtyping) (s : Site) : Option JumpRoute :=
  match s.stmt with
  | .breakStmt label span =>
    ((s.scope types).breakTarget label span.line).toOption.map (s.scope types).breakRoute
  | .continueStmt label span =>
    ((s.scope types).continueTarget label span.line).toOption.map fun p =>
    (s.scope types).continueRoute p.1 p.2
  | .returnStmt _ _ => some (s.scope types).returnRoute
  | _ => none

/-- The route of a `break` is the one its scope finds. -/
theorem Site.route?_break {types : Subtyping} {fs : List Frame} {label : Option String}
    {span : Span} {target : Target}
    (h : (Frame.scope types fs).breakTarget label span.line = .ok target) (labels : List String)
    (d : Draft) :
    Site.route? types ⟨.breakStmt label span, fs, labels, d⟩ =
      some ((Frame.scope types fs).breakRoute target) := by
  simp only [Site.route?, Site.scope, h, Except.toOption, Option.map_some]

theorem Site.route?_continue {types : Subtyping} {fs : List Frame} {label : Option String}
    {span : Span} {target : Target} {continueTo : BlockId}
    (h : (Frame.scope types fs).continueTarget label span.line = .ok (target, continueTo))
    (labels : List String) (d : Draft) :
    Site.route? types ⟨.continueStmt label span, fs, labels, d⟩ =
      some ((Frame.scope types fs).continueRoute target continueTo) := by
  simp only [Site.route?, Site.scope, h, Except.toOption, Option.map_some]

namespace Block

/-- What may be registered for a `finally` clause: exceptions, what a jump inside the frames that
crosses it goes on to, and the end of the code in front of it. -/
def Resumes (types : Subtyping) (body : Block) (fs : List Frame) (p : BlockId × Edge) : Prop :=
  p.2.isExceptional = true ∨
    (∃ s route, body.Has types s ∧ fs <:+ s.frames ∧ s.route? types = some route ∧
      p ∈ route.resumptions) ∨
    ∃ g, body.HasGuard types g ∧ g.finalBlock? = some p.1 ∧ p.2 = .sequential g.after

/-- The block is open in the draft where a `finally` clause has been drawn, and the edges lead to
all that was registered for the clause. -/
def EndsFinally (types : Subtyping) (body : Block) (d : Draft) (id : BlockId)
    (edges : List Edge) : Prop :=
  ∃ g final, body.HasGuard types g ∧ g.finalizer = some final ∧ g.drawFinally final = .ok d ∧
    d.current = some id ∧ edges = d.resumptionsOf (g.after + 1)

def rules (types : Subtyping) (body : Block) (fs : List Frame) : Draft.Rules where
  edge := fun _ => True
  resumption := body.Resumes types fs
  ending := body.EndsFinally types

end Block

/-- The rules for protected code in the frames around its statement. If there is a `finally` clause,
no edge leaves the code but to this clause; otherwise it may go past the statement or leave the
scope around it. -/
def Guard.rules (g : Guard) (types : Subtyping) (body : Block) (fs : List Frame) : Draft.Rules where
  edge := fun e => g.firstCatch ≤ e.target ∨ g.finalBlock? = some e.target ∨
    g.finalBlock? = none ∧ (e.target = g.after ∨ g.scope.Leaves e)
  resumption := fun p => ∃ frame : Frame, frame.guard? = some g ∧ body.Resumes types (frame :: fs) p
  ending := body.EndsFinally types

/-- Wherever the statement stands in the body, it is drawn by the rules of the body within its
scope. -/
def Stmt.Traceable (types : Subtyping) (body : Block) (stmt : Stmt) : Prop :=
  ∀ {fs : List Frame} {labels : List String} {d d' : Draft}, body.Has types ⟨stmt, fs, labels, d⟩ →
    stmt.draw (Frame.scope types fs) labels d = .ok d' →
    Trace ((body.rules types fs).inScope (Frame.scope types fs) d.fresh) d d'

section Statements

variable {types : Subtyping} {body : Block} {D : Draft}

theorem Block.resumes_exceptional {fs : List Frame} (p : BlockId × Edge)
    (hp : p.2.isExceptional = true) :
    (body.rules types fs).resumption p :=
  Or.inl hp

theorem Block.Resumes.outward {frame : Frame} {fs : List Frame} {p : BlockId × Edge}
    (h : body.Resumes types (frame :: fs) p) : body.Resumes types fs p := by
  rcases h with h | ⟨s, route, hhas, hfs, h⟩ | h
  · exact Or.inl h
  · exact Or.inr (Or.inl ⟨s, route, hhas, (List.suffix_cons frame fs).trans hfs, h⟩)
  · exact Or.inr (Or.inr h)

/-- What is drawn inside a frame keeps to the rules around it. -/
theorem Block.trace_outward {frame : Frame} {fs : List Frame} {scope : Scope} {lo : BlockId}
    {d d' : Draft} (h : Trace ((body.rules types (frame :: fs)).inScope scope lo) d d') :
    Trace ((body.rules types fs).inScope scope lo) d d' :=
  h.mono (fun _ he => he) (fun _ hp => hp.outward) fun _ _ _ he => he

/-! ## Lists of statements -/

/-- Statements drawn one after another obey the rules of the body. -/
theorem Stmt.trace_all {stmts : List Stmt} {fs : List Frame} {d d' : Draft}
    (ih : ∀ s ∈ stmts, s.Traceable types body) (hd : d.Steady)
    (hfit : (Frame.scope types fs).Fits d)
    (hhas : ∀ {s d₁}, Stmt.Begins (Frame.scope types fs) stmts d s d₁ →
      body.Has types ⟨s, fs, [], d₁⟩)
    (h : Stmt.drawAll stmts (Frame.scope types fs) d = .ok d') :
    Trace ((body.rules types fs).inScope (Frame.scope types fs) d.fresh) d d' := by
  induction stmts generalizing d with
  | nil =>
    rw [Stmt.drawAll] at h
    cases h
    exact .refl _
  | cons s stmts ihs =>
    rw [Stmt.drawAll] at h
    obtain ⟨d₁, h₁, h⟩ := Except.of_bind_ok h
    have hp := s.draws h₁ hd hfit
    have hrest := ihs (fun s hm => ih s (List.mem_cons_of_mem _ hm)) hp.steady
      (hp.fits hd hfit fun _ _ hid => hid) (fun hb => hhas (.tail h₁ hb)) h
    exact (ih s List.mem_cons_self (hhas .head) h₁).trans (hrest.of_le (hp.fresh_le hd))

theorem CaseGroup.trace_all {groups : List CaseGroup} {fs : List Frame} {R : Draft.Rules}
    {lo block after : BlockId} {d d' : Draft}
    (hR : R.Admits (body.rules types fs) (Frame.scope types fs) lo)
    (ih : ∀ group ∈ groups, ∀ s ∈ group.body, s.Traceable types body)
    (hr : CaseGroup.Ready (Frame.scope types fs) groups block after d)
    (hhas : ∀ {group d₁ s d₂},
      CaseGroup.Begins (Frame.scope types fs) after groups block d group d₁ →
      Stmt.Begins (Frame.scope types fs) group.body d₁ s d₂ → body.Has types ⟨s, fs, [], d₂⟩)
    (hlo : lo ≤ d.fresh)
    (hblocks : ∀ id, after ≤ id → id < block + groups.length → R.edge (.sequential id))
    (hafter : R.edge (.sequential after))
    (h : CaseGroup.drawAll groups (Frame.scope types fs) block after d = .ok d') :
      Trace R d d' := by
  induction groups generalizing d block with
  | nil =>
    rw [CaseGroup.drawAll] at h
    cases h
    exact .refl _
  | cons group groups ihg =>
    rw [CaseGroup.drawAll_cons] at h
    obtain ⟨d₁, h₁, h⟩ := Except.of_bind_ok h
    obtain ⟨hs, hp, hend, hr'⟩ := hr.step (fun s _ => s.faithful) h₁
    have hnew := Nat.le_trans hlo (hr.opened.fresh_le hr.steady)
    have hbody := Stmt.trace_all (ih group List.mem_cons_self) hs hr.fits_opened (hhas .head) h₁
    have hpast : d₁.Waiting after := (hp.drawn.waiting after).mpr
      ((hr.opened.waiting after).mpr ⟨hr.past, Nat.ne_of_lt hr.past_lt⟩)
    -- An arrow group goes on past the switch; any other falls into the next group.
    have hfinish : Trace R d₁ (group.finish d₁ after) := by
      unfold CaseGroup.finish
      split
      · exact .leaveArrowGroup hp.drawn.steady hpast hafter
      · exact .single .mark
    have hhere := hblocks block (Nat.le_of_lt hr.past_lt) (Nat.lt_add_of_pos_right (Nat.succ_pos _))
    exact (((Trace.continueAt hr.steady hr.waiting hhere).trans
      (hbody.admitted (hR.of_le hnew))).trans hfinish).trans
      (ihg (fun g hm => ih g (List.mem_cons_of_mem _ hm)) hr' (fun hg hb => hhas (.tail h₁ hg) hb)
        (Nat.le_trans hlo (hend.fresh_le hr.steady))
        (fun id hle hlt => hblocks id hle (by rw [List.length_cons]; grind)) h)

/-- Inside a guard the rules of the body are obeyed with one frame more. -/
theorem Guard.admits_rules {g : Guard} {frame : Frame} (fs : List Frame) {handler : Handler}
    {lo : BlockId} (hframe : frame.guard? = some g)
    (depth_le : ∀ t ∈ g.scope.targets, t.depth ≤ g.scope.handlers.length) (hle : g.firstCatch ≤ lo)
    (hcatches : ∀ c ∈ handler.catches, g.firstCatch ≤ c.entry)
    (hfinal : handler.finalizer = g.finalBlock?) :
    (g.rules types body fs).Admits (body.rules types (frame :: fs))
    (g.scope.guarded handler) lo where
  new he := Or.inl (Nat.le_trans hle he)
  leaves he := by
    rcases he.of_guarded depth_le with ⟨hnone, he⟩ | ⟨c, hc, hentry⟩ | hentry
    · exact Or.inr (Or.inr ⟨hfinal ▸ hnone, Or.inr he⟩)
    · exact Or.inl (hentry ▸ hcatches c hc)
    · exact Or.inr (Or.inl (hfinal ▸ hentry))
  resumption hp := ⟨frame, hframe, hp⟩
  ending he := he

/-- What leaves protected code, with or without a `finally` clause, leaves the scope or is for the
statement. -/
theorem Guard.trace_inScope {g : Guard} {fs : List Frame} {d d' : Draft}
    (h : Trace (g.rules types body fs) d d') :
    Trace ((body.rules types fs).inScope g.scope g.draft.fresh) d d' := by
  refine h.mono (fun e he => ?_) (fun _ ⟨_, _, hp⟩ => hp.outward) fun _ _ _ he => he
  rcases he with he | he | ⟨_, he | he⟩
  · exact Or.inl (Nat.le_trans (Nat.le_of_lt (Draft.lt_firstCatch _ _)) he)
  · exact Or.inl (Guard.new_handler he)
  · exact Or.inl (he ▸ Nat.le_refl _)
  · exact Or.inr he

theorem CatchClause.trace_all {clauses : List CatchClause} {g : Guard} {fs : List Frame}
    {R : Draft.Rules} {lo block : BlockId} {W : BlockId → Prop} {d d' : Draft}
    (hscope : g.scope = Frame.scope types fs) (hguard : body.HasGuard types g)
    (ih : ∀ clause ∈ clauses, ∀ s ∈ clause.body.stmts, s.Traceable types body)
    (hr : CatchClause.Ready g.scope g.draft g.finalBlock? g.after clauses block W d)
    (hR : R.Admits (body.rules types (.catchClause g :: fs)) g.clauseScope lo) (hlo : lo ≤ d.fresh)
    (hnone : g.finalBlock? = none → R.edge (.sequential g.after))
    (hfinal : ∀ entry, g.finalBlock? = some entry → R.edge (.sequential entry))
    (hhas : ∀ {clause d₁ s d₂},
      CatchClause.Begins g.clauseScope g.finalBlock? g.after clauses block d clause d₁ →
      Stmt.Begins g.clauseScope clause.body.stmts d₁ s d₂ →
      body.Has types ⟨s, .catchClause g :: fs, [], d₂⟩)
    (h : CatchClause.drawAll clauses g.clauseScope g.finalBlock? block g.after d = .ok d') :
    Trace R d d' := by
  have hclause : g.clauseScope = Frame.scope types (.catchClause g :: fs) := by
    rw [Guard.clauseScope, hscope]
    rfl
  -- Each clause is started, drawn within its rules and left, which makes it ready for the next.
  induction clauses generalizing d block W with
  | nil =>
    rw [CatchClause.drawAll] at h
    cases h
    exact .refl _
  | cons clause clauses ihc =>
    rw [CatchClause.drawAll_cons] at h
    obtain ⟨d₁, h₁, h⟩ := Except.of_bind_ok h
    obtain ⟨hs, hp, hr'⟩ := hr.step (fun s _ => s.faithful) h₁
    obtain ⟨hopen, hfit⟩ := hr.opened_clause
    obtain ⟨hpast, hentry⟩ := hr.past_clause
    have hb := hr.drawn_clause hp.drawn
    have hbody :
        Trace
          ((body.rules types (.catchClause g :: fs)).inScope g.clauseScope (d.start block).fresh)
          (d.start block) d₁ := by
      rw [hclause]
      exact Stmt.trace_all (ih clause List.mem_cons_self) hs (hclause ▸ hfit)
        (fun hb => hhas .head (hclause ▸ hb)) (hclause ▸ h₁)
    have hlen : block < block + (clause :: clauses).length :=
      Nat.lt_add_of_pos_right (Nat.succ_pos _)
    have hleave : Trace R d₁ (d₁.leaveRegion g.finalBlock? g.after) :=
      .leaveRegion hb.steady ((hb.waiting _).mpr hpast) hnone
        (fun entry hf => ⟨(hb.waiting _).mpr (hentry entry hf), hfinal entry hf⟩)
        fun entry hf => hR.resumption (Or.inr (Or.inr ⟨g, hguard, hf, rfl⟩))
    have hopen_le := (Draft.extends_start hr.idle block).fresh_le
    have hrest :=
      (hp.drawn.run.extends hs).trans (Draft.extends_leaveRegion hb.steady g.finalBlock? g.after)
    exact
      (((Trace.start hr.idle
        ((hr.drawn.waiting _).mpr (hr.blocks block (Nat.le_refl _) hlen))).trans
      (hbody.admitted (hR.of_le (Nat.le_trans hlo hopen_le)))).trans hleave).trans
      (ihc (fun c hm => ih c (List.mem_cons_of_mem _ hm)) hr'
        (Nat.le_trans (Nat.le_trans hlo hopen_le) hrest.fresh_le)
        (fun hg hb => hhas (.tail h₁ hg) hb) h)

/-- The `finally` clause, if there is one. -/
theorem Guard.trace_finally {g : Guard} {s : Site} {R : Draft.Rules} {lo : BlockId}
    {d₁ d₂ d₃ : Draft} (hhas : body.Has types s) (hg : s.guard? types = some g)
    (ih : ∀ final, g.finalizer = some final → ∀ s ∈ final.stmts, s.Traceable types body)
    (h₂ : g.drawGuarded = .ok d₂) (hw : g.Drawn d₁ d₂)
    (hR : R.Admits (body.rules types s.frames) g.scope lo) (hlo : lo ≤ d₂.fresh)
    (hafter : R.edge (.sequential g.after))
    (h : Block.drawFinalizer g.finalizer g.scope g.after d₂ = .ok d₃) : Trace R d₂ d₃ := by
  obtain ⟨hscope, _, _⟩ := Site.of_guard? hg
  cases hfinal : g.finalizer with
  | none =>
    rw [hfinal, Block.drawFinalizer] at h
    cases h
    exact .refl _
  | some final =>
    rw [hfinal, Block.drawFinalizer_some] at h
    obtain ⟨d₄, h₄, h⟩ := Except.of_bind_ok h
    cases h
    have hdone := hw.done
    rw [Guard.finalBlock?, Guard.handler, Draft.handlerAt, hfinal] at hdone
    obtain ⟨ho, hfit⟩ := hdone.opened_finally
    obtain ⟨hwait, hlt, _⟩ := hdone.entry _ rfl
    have hp := (Stmt.part_all (fun s _ => s.faithful) ho.steady hfit h₄).drawn
    have hb := ho.part hdone.steady hp fun _ hp => Or.inl hp
    have hstmts : Trace ((body.rules types s.frames).inScope g.scope (d₂.start (g.after + 1)).fresh)
        (d₂.start (g.after + 1)) d₄ := by
      rw [hscope] at hfit h₄ ⊢
      exact Stmt.trace_all (ih final hfinal) ho.steady hfit
        (fun hb => hhas.part (.inFinally hg hfinal h₂ (hscope ▸ hb))) h₄
    have hlo' : lo ≤ (d₂.start (g.after + 1)).fresh := by
      rw [Draft.fresh_start]
      exact hlo
    -- The clause is started, drawn, and left for all that waited for it.
    refine ((Trace.start hdone.idle ((hdone.drawn.waiting _).mpr hwait)).trans
      (hstmts.admitted (hR.of_le hlo'))).trans (.leaveFinalizer hp.steady
        (hp.fits ho.steady hfit fun _ _ hid => hid)
        ((hb.waiting _).mpr ⟨hdone.past.1, Nat.ne_of_lt hlt⟩)
        hR.leaves hafter (fun e he => hdone.pending_finally hp _ e rfl he) fun id hid =>
          hR.ending ?_)
    refine ⟨g, final, ⟨s, hhas, hg⟩, hfinal, ?_, hid, rfl⟩
    rw [Guard.drawFinally, h₂]
    exact h₄

/-! ## Branches and loops -/

section Constructs

variable (hD : Graph.draft types body = .ok D)
include hD

theorem Block.Has.begun {stmt : Stmt} {fs : List Frame} {labels : List String} {d : Draft}
    (h : body.Has types ⟨stmt, fs, labels, d⟩) : d.Steady ∧ (Frame.scope types fs).Fits d :=
  ⟨(h.good hD).steady, (h.good hD).fits⟩

/-- An `if` statement obeys the rules if its branches do. -/
theorem Stmt.traceable_if (test : Expr) {cons : Stmt} {alt : Option Stmt} (span : Span)
    (ihc : cons.Traceable types body) (iha : ∀ s, alt = some s → s.Traceable types body) :
    (Stmt.ifStmt test cons alt span).Traceable types body := by
  intro fs labels d d' hhas h
  obtain ⟨hd, hfit⟩ := hhas.begun hD
  have ht :
      Traced (body.rules types fs) (Frame.scope types fs) d (test.draw (Frame.scope types fs) d) :=
    test.traced Block.resumes_exceptional hd hfit
  have hfitt := ht.drawn.fits hd hfit fun _ _ hid => hid
  rw [Stmt.draw_if] at h
  obtain ⟨d₁, h₁, h⟩ := Except.of_bind_ok h
  obtain ⟨d₂, h₂, h⟩ := Except.of_bind_ok h
  cases h
  refine ht.trace.trans (Trace.of_le ?_ (ht.drawn.fresh_le hd))
  have hopen : Trace ((body.rules types fs).inScope (Frame.scope types fs) _) _ _ :=
    .openIf ht.drawn.steady cons alt test.span
  have hcons := ihc (hhas.part .thenBranch) h₁
  have hlo := Nat.le_add_right (test.draw (Frame.scope types fs) d).fresh 1
  cases alt with
  | none =>
    rw [Stmt.drawElse] at h₂
    cases h₂
    have hi := Draft.IfDrawn.of_parts ht.drawn.steady hfitt (cons.draws h₁)
    exact (hopen.trans (hcons.of_le (hi.opened.fresh_le ht.drawn.steady))).trans
      (.continueAt hi.after_cons.steady ((hi.after_cons.waiting _).mpr (Or.inr rfl)) (Or.inl hlo))
  | some alt =>
    rw [Stmt.drawElse] at h₂
    have hi := Draft.IfElseDrawn.of_parts ht.drawn.steady hfitt (cons.draws h₁) (alt.draws h₂)
    have halt := iha alt rfl (hhas.part (.elseBranch rfl h₁)) h₂
    have hjoin := (hi.after_cons.waiting _).mpr (Or.inr (Or.inl rfl))
    have hother := (hi.after_cons.waiting _).mpr (Or.inr (Or.inr rfl))
    exact (((hopen.trans (hcons.of_le (hi.opened.fresh_le ht.drawn.steady))).trans
      (.turn hi.after_cons.steady (Or.inl rfl) (Draft.Waiting.expects hjoin) (Or.inl hlo)
        hother)).trans (halt.of_le (hi.turned.fresh_le ht.drawn.steady))).trans
      (.continueAt hi.after_alt.steady ((hi.after_alt.waiting _).mpr (Or.inr rfl)) (Or.inl hlo))

theorem Stmt.traceable_while (test : Expr) {inner : Stmt} (span : Span)
    (ih : inner.Traceable types body) :
    (Stmt.whileStmt test inner span).Traceable types body := by
  intro fs labels d d' hhas h
  obtain ⟨hd, hfit⟩ := hhas.begun hD
  obtain ⟨d₁, h₁, rfl, hw⟩ := Stmt.drawn_while hd hfit h
  have hbody :=
    (Block.trace_outward (ih (hhas.part (.whileBody rfl)) h₁)).of_inside (hw.entered.fresh_le hd)
    (Nat.le_succ_of_le (hw.after_test.fresh_le hd)) fun c hc =>
      TargetKind.loop.inj hc ▸ Nat.le_refl _
  exact ((((Trace.openHeader hd _).trans
    ((test.traced Block.resumes_exceptional hw.opened.steady hw.fits_test).trace.of_le
      (hw.opened.fresh_le hd))).trans
    ((Trace.openBody hw.after_test.steady _ _).of_le (hw.after_test.fresh_le hd))).trans
      hbody).trans
    (.turn hw.after_body.steady (Or.inr rfl) (Or.inr (Or.inr ⟨hw.round, Or.inl rfl⟩))
      (Or.inl (Nat.le_refl _)) ((hw.after_body.waiting _).mpr (Or.inr rfl)))

theorem Stmt.traceable_doWhile {inner : Stmt} (test : Expr) (span : Span)
    (ih : inner.Traceable types body) :
    (Stmt.doWhile inner test span).Traceable types body := by
  intro fs labels d d' hhas h
  obtain ⟨hd, hfit⟩ := hhas.begun hD
  obtain ⟨d₁, h₁, rfl, hw⟩ := Stmt.drawn_doWhile hd hfit h
  have hbody :=
    (Block.trace_outward (ih (hhas.part .doBody) h₁)).of_inside (hw.opened.fresh_le hd)
    (Nat.le_add_right _ _)
    fun c hc => TargetKind.loop.inj hc ▸ Nat.le_add_right _ _
  have htest : Traced (body.rules types fs) (Frame.scope types fs) _ _ :=
    test.traced Block.resumes_exceptional hw.turned.steady hw.fits_test
  -- The test may close many blocks, but the one it ends in was made after the header.
  have hround :
      d.fresh ≤ (test.draw (Frame.scope types fs) (d₁.continueAt (d.fresh + 1))).openBlock :=
    htest.drawn.openBlock_new hw.turned.steady (hw.turned.fresh_le hd)
      fun id hid => Option.some.inj hid ▸ Nat.le_succ _
  have hpast := (hw.after_test.waiting (d.fresh + 2)).mpr (Or.inr rfl)
  exact (((((Trace.openDo hd _ _).trans hbody).trans
    (.continueAt hw.after_body.steady ((hw.after_body.waiting _).mpr (Or.inr (Or.inl rfl)))
      (Or.inl (Nat.le_succ _)))).trans (htest.trace.of_le (hw.turned.fresh_le hd))).trans
    (.branch hw.after_test.steady _ (Or.inr (Or.inr ⟨hw.round, Or.inr hround⟩)) hpast
      ⟨Or.inl (Nat.le_refl _), Or.inl (Nat.le_add_right _ _)⟩)).trans
    (.start (by simp) ((Draft.waiting_terminate hw.after_test.steady _ _ _ _).mpr hpast))

omit hD in
/-- A `for` loop from the end of its initialization on. -/
theorem Stmt.trace_rounds {init : List Stmt} (test : Option Expr) (update : List Expr)
    {inner : Stmt} (span : Span) {fs : List Frame} {labels : List String} {d d₀ d₁ : Draft}
    (hhas : body.Has types ⟨.forStmt init test update inner span, fs, labels, d⟩)
    (ih : inner.Traceable types body) (h₀ : Stmt.drawAll init (Frame.scope types fs) d = .ok d₀)
    (hw : Draft.ForDrawn (Frame.scope types fs) labels d₀
      ((d₀.openHeader (some (test.elim span (·.span)))).makeFor (!update.isEmpty) inner.span) d₁
      (test.elim span (·.span)) test update) (hd₀ : d₀.Steady)
    (h₁ : inner.draw ((Frame.scope types fs).inside labels (.loop (Draft.forNext d₀.fresh update))
      (d₀.fresh + 2)) []
      (((d₀.openHeader (some (test.elim span (·.span)))).makeFor (!update.isEmpty)
        inner.span).testFor (Frame.scope types fs) test (d₀.fresh + 1) (d₀.fresh + 2)) = .ok d₁) :
    Trace ((body.rules types fs).inScope (Frame.scope types fs) d₀.fresh) d₀
      ((d₁.updateFor (Frame.scope types fs) update (Draft.forNext d₀.fresh update)).turn
        .loopBack d₀.fresh (d₀.fresh + 2)) := by
  -- The rounds go on at the header or at the updates, which are both new.
  have hlo : d₀.fresh ≤ Draft.forNext d₀.fresh update := by
    unfold Draft.forNext
    split
    · exact Nat.le_refl _
    · exact Nat.le_add_right _ _
  have hbody :=
    (Block.trace_outward (ih (hhas.part (.forBody h₀ rfl)) h₁)).of_inside (hw.entered.fresh_le hd₀)
    (Nat.le_add_right _ _) fun c hc => TargetKind.loop.inj hc ▸ hlo
  have htest :=
    Trace.testFor (R := body.rules types fs) Block.resumes_exceptional hw.made.steady
      hw.fits_test test
    ((hw.made.waiting (d₀.fresh + 1)).mpr (Or.inr (Or.inl rfl)))
    ((hw.made.waiting (d₀.fresh + 2)).mpr (Or.inr (Or.inr (Or.inl rfl))))
    ⟨hw.made.fresh_le hd₀, Nat.le_add_right _ _, Nat.le_add_right _ _⟩
  have hupdate :=
    Trace.updateFor (R := body.rules types fs) Block.resumes_exceptional hw.after_body.steady
    hw.fits_update update (hw.after_body.fresh_le hd₀) (Draft.Rules.admits_inScope _ _ _)
    fun he => ⟨Or.inl hlo, hw.next he⟩
  exact (((((Trace.openHeader hd₀ _).trans (.makeFor _ _)).trans htest).trans hbody).trans
    hupdate).trans
    (.turn hw.updated.steady (Or.inr rfl) (Or.inr (Or.inr ⟨hw.round, Or.inl rfl⟩))
      (Or.inl (Nat.le_refl _)) ((hw.updated.waiting _).mpr (Or.inr rfl)))

/-- A `for` loop obeys the rules if its parts do. -/
theorem Stmt.traceable_for {init : List Stmt} (test : Option Expr) (update : List Expr)
    {inner : Stmt} (span : Span) (ihi : ∀ s ∈ init, s.Traceable types body)
    (ih : inner.Traceable types body) :
    (Stmt.forStmt init test update inner span).Traceable types body := by
  intro fs labels d d' hhas h
  obtain ⟨hd, hfit⟩ := hhas.begun hD
  obtain ⟨d₀, d₁, h₀, hinit, h₁, rfl, hw⟩ := Stmt.drawn_for hd hfit h
  exact (Stmt.trace_all ihi hd hfit (fun hb => hhas.part (.forInit hb)) h₀).trans
    ((Stmt.trace_rounds test update span hhas ih h₀ hw hinit.steady h₁).of_le (hinit.fresh_le hd))

theorem Stmt.traceable_forEach (var : String) (iterable : Expr) {inner : Stmt} (span : Span)
    (ih : inner.Traceable types body) :
    (Stmt.forEach var iterable inner span).Traceable types body := by
  intro fs labels d d' hhas h
  obtain ⟨hd, hfit⟩ := hhas.begun hD
  obtain ⟨d₁, h₁, rfl, hw⟩ := Stmt.drawn_forEach hd hfit h
  have hi :
      Traced (body.rules types fs) (Frame.scope types fs) d
        (iterable.draw (Frame.scope types fs) d) :=
    iterable.traced Block.resumes_exceptional hd hfit
  refine hi.trace.trans (Trace.of_le ?_ (hi.drawn.fresh_le hd))
  have hbody :=
    (Block.trace_outward (ih (hhas.part (.eachBody rfl)) h₁)).of_inside
    (hw.entered.fresh_le hi.drawn.steady) (Nat.le_add_right _ _) fun c hc =>
      TargetKind.loop.inj hc ▸ Nat.le_refl _
  have ho : Drawn (Frame.scope types fs) _ _ _ :=
    (Drawn.refl hw.opened.steady).openBody inner.span iterable.span
  exact ((((Trace.openHeader hi.drawn.steady _).trans
    ((Trace.openBody hw.opened.steady _ _).of_le (hw.opened.fresh_le hi.drawn.steady))).trans
    (.emit ho.steady _ _)).trans hbody).trans
    (.turn hw.after_body.steady (Or.inr rfl) (Or.inr (Or.inr ⟨hw.round, Or.inl rfl⟩))
      (Or.inl (Nat.le_refl _)) ((hw.after_body.waiting _).mpr (Or.inr rfl)))

/-- A switch obeys the rules if its groups do. -/
theorem Stmt.traceable_switch (selector : Expr) {groups : List CaseGroup} (span : Span)
    (ih : ∀ group ∈ groups, ∀ s ∈ group.body, s.Traceable types body) :
    (Stmt.switch selector groups span).Traceable types body := by
  intro fs labels d d' hhas h
  obtain ⟨hd, hfit⟩ := hhas.begun hD
  rw [Stmt.draw_switch] at h
  obtain ⟨d₁, h₁, h⟩ := Except.of_bind_ok h
  cases h
  have hs :
      Traced (body.rules types fs) (Frame.scope types fs) d
        (selector.draw (Frame.scope types fs) d) :=
    selector.traced Block.resumes_exceptional hd hfit
  refine hs.trace.trans (Trace.of_le ?_ (hs.drawn.fresh_le hd))
  have hready :=
    CaseGroup.ready_openSwitch hs.drawn.steady (hs.drawn.fits hd hfit fun _ _ hid => hid) labels
    groups selector.span
  have hopen : Trace ((body.rules types fs).inScope (Frame.scope types fs) _) _ _ :=
    .openSwitch hs.drawn.steady groups selector.span
  have hgroups :
      Trace
        ((body.rules types fs).inScope (Frame.scope types (.target labels .switch _ :: fs)) _) _
          _ :=
    Block.trace_outward <|
      CaseGroup.trace_all (Draft.Rules.admits_inScope (body.rules types (_ :: fs)) _ _) ih
      hready (fun hg hb => hhas.part (.inGroup rfl hg hb))
        (hopen.run.extends hs.drawn.steady).fresh_le
      (fun _ hle _ => Or.inl hle) (Or.inl (Nat.le_refl _)) h₁
  have hall := CaseGroup.drawn_all hready (fun _ _ s _ => s.faithful) h₁
  exact (hopen.trans (hgroups.of_inside (Nat.le_refl _) (Nat.le_refl _) nofun)).trans
    (.continueAt hall.steady ((hall.waiting _).mpr ⟨hready.past, by grind⟩)
      (Or.inl (Nat.le_refl _)))

/-! ## Protected code -/

omit hD in
/-- The resources and the `try` block. -/
theorem Guard.trace_drawBlock {g : Guard} {s : Site} {d₁ d₂ : Draft} (hhas : body.Has types s)
    (hg : s.guard? types = some g) (ih : ∀ s ∈ g.block.stmts, s.Traceable types body)
    (hw : g.Drawn d₁ d₂) (h₁ : g.drawBlock = .ok d₁) :
    Trace ((body.rules types (.tryBlock g :: s.frames)).inScope g.blockScope
        (g.draft.openTry g.scope.types g.catches g.finalizer g.block.span).fresh)
      (g.draft.openTry g.scope.types g.catches g.finalizer g.block.span) d₁ := by
  obtain ⟨hscope, _, _⟩ := Site.of_guard? hg
  have hres : Traced (body.rules types (.tryBlock g :: s.frames)) g.blockScope _ g.opened :=
    LocalVar.traced_resources Block.resumes_exceptional g.resources rfl hw.opened.steady
      hw.fits_opened
  have hblockScope : g.blockScope = Frame.scope types (.tryBlock g :: s.frames) := by
    rw [Guard.blockScope, hscope]
    rfl
  have hblock :
    Trace ((body.rules types (.tryBlock g :: s.frames)).inScope g.blockScope g.opened.fresh)
      g.opened d₁ := by
    rw [hblockScope]
    exact Stmt.trace_all ih hw.resourced.steady (hblockScope ▸ hw.fits_block)
      (fun hb => hhas.part (.inTry hg (hblockScope ▸ hb))) (hblockScope ▸ h₁)
  exact hres.trace.trans (hblock.of_le (hres.drawn.fresh_le hw.opened.steady))

/-- The `try` block and the catch clauses, up to the `finally` clause. -/
theorem Guard.trace_drawGuarded {g : Guard} {s : Site} {d₂ : Draft} (hhas : body.Has types s)
    (hg : s.guard? types = some g) (ihb : ∀ s ∈ g.block.stmts, s.Traceable types body)
    (ihc : ∀ clause ∈ g.catches, ∀ s ∈ clause.body.stmts, s.Traceable types body)
    (h : g.drawGuarded = .ok d₂) : Trace (g.rules types body s.frames) g.draft d₂ := by
  obtain ⟨d₁, _, _, h₁, h₂, hw, _, _, _⟩ := (hhas.good hD).guard hg
  cases h.symm.trans h₂
  obtain ⟨hscope, hdraft, _⟩ := Site.of_guard? hg
  have hopen : Trace (g.rules types body s.frames) g.draft _ :=
    .openTry hw.ready.steady g.scope.types g.catches g.finalizer g.block.span fun _ he => Or.inl he
  have hblock := Guard.trace_drawBlock hhas hg ihb hw h₁
  have hcatches : ∀ c ∈ g.handler.catches, g.firstCatch ≤ c.entry := fun _ hc =>
    Draft.firstCatch_le_handlerAt hc
  -- Leaving the block leads to the `finally` clause, or past the statement without one.
  have hleave : Trace (g.rules types body s.frames) d₁ (g.leaveBlock d₁) :=
    .leaveRegion hw.after_block.steady ((hw.after_block.waiting _).mpr hw.ready.past.1)
      (fun hnone => Or.inr (Or.inr ⟨hnone, Or.inl rfl⟩))
      (fun entry hf =>
        ⟨(hw.after_block.waiting _).mpr (hw.ready.entry entry hf).1, Or.inr (Or.inl hf)⟩)
      fun entry hf => ⟨.tryBlock g, rfl, Or.inr (Or.inr ⟨g, ⟨s, hhas, hg⟩, hf, rfl⟩)⟩
  have hlo :
      g.firstCatch ≤ (g.draft.openTry g.scope.types g.catches g.finalizer g.block.span).fresh := by
    rw [Draft.fresh_openTry]
    exact Nat.le_succ_of_le (Nat.le_add_right _ _)
  have hgrows :=
    (hblock.run.extends hw.opened.steady).trans (hleave.run.extends hw.after_block.steady)
  rw [Guard.drawGuarded, h₁] at h
  have hclauses : Trace (g.rules types body s.frames) _ _ :=
    CatchClause.trace_all hscope ⟨s, hhas, hg⟩ ihc hw.ready
      (Guard.admits_rules s.frames rfl hw.ready.fits.depth_le (Nat.le_trans hlo hgrows.fresh_le)
        (by rintro _ ⟨⟩) rfl)
      (Nat.le_refl _) (fun hnone => Or.inr (Or.inr ⟨hnone, Or.inl rfl⟩))
      (fun _ hf => Or.inr (Or.inl hf)) (fun hc hb => hhas.part (.inCatch hg h₁ hc hb)) h
  exact ((hopen.trans (hblock.admitted
    (Guard.admits_rules s.frames rfl hw.ready.fits.depth_le hlo hcatches rfl))).trans hleave).trans
      hclauses

/-- A `try` statement obeys the rules if its parts do. -/
theorem Stmt.traceable_try (resources : List LocalVar) {block : Block} {catches : List CatchClause}
    {finalizer : Option Block} (span : Span) (ihb : ∀ s ∈ block.stmts, s.Traceable types body)
    (ihc : ∀ clause ∈ catches, ∀ s ∈ clause.body.stmts, s.Traceable types body)
    (ihf : ∀ final, finalizer = some final → ∀ s ∈ final.stmts, s.Traceable types body) :
    (Stmt.tryStmt resources block catches finalizer span).Traceable types body := by
  intro fs labels d d' hhas h
  have hg : Site.guard? types ⟨.tryStmt resources block catches finalizer span, fs, labels, d⟩ =
      some ⟨resources, block, catches, finalizer, Frame.scope types fs, d⟩ := rfl
  obtain ⟨d₁, d₂, d₃, _, h₂, hw, h₃, hdraw, _⟩ := (hhas.good hD).guard hg
  cases h.symm.trans hdraw
  have hguarded := Guard.trace_inScope (Guard.trace_drawGuarded hD hhas hg ihb ihc h₂)
  obtain ⟨hended, _⟩ := hw.done.drawFinalizer (fun _ _ s _ => s.faithful) h₃
  have hfinal : Trace ((body.rules types fs).inScope (Frame.scope types fs) d.fresh) d₂ d₃ :=
    Guard.trace_finally hhas hg ihf h₂ hw (Draft.Rules.admits_inScope _ _ _)
      (hw.done.drawn.fresh_le hw.done.steady) (Or.inl (Nat.le_refl _)) h₃
  refine (hguarded.trans hfinal).trans (.continueAt hended.steady ((hended.waiting _).mpr ?_)
    (Or.inl (Nat.le_refl _)))
  exact ⟨hw.done.past.1, fun _ => Nat.ne_of_lt (Nat.lt_succ_self _)⟩

/-! ## Labels and jumps -/

theorem Stmt.traceable_labeled (label : String) {inner : Stmt} (span : Span)
    (ih : inner.Traceable types body) : (Stmt.labeled label inner span).Traceable types body := by
  intro fs labels d d' hhas h
  obtain ⟨hd, hfit⟩ := hhas.begun hD
  rw [Stmt.draw_labeled] at h
  split at h
  · exact nomatch h
  split at h
  · exact ih (hhas.part (.carried ‹_›)) h
  · obtain ⟨d₁, h₁, h⟩ := Except.of_bind_ok h
    cases h
    have hl := Draft.LabelDrawn.of_parts hd hfit (inner.draws h₁)
    have hbody :=
      (Block.trace_outward (ih (hhas.part (.labeled (Bool.eq_false_iff.mpr ‹_›))) h₁)).of_inside
      (hl.made.fresh_le hd) (Nat.le_refl _) nofun
    exact ((Trace.create .normal none).trans hbody).trans
      (.continueAt hl.after_body.steady ((hl.after_body.waiting _).mpr (Or.inr rfl))
        (Or.inl (Nat.le_refl _)))

/-- A `break` resumes where its own departure says. -/
theorem Stmt.traceable_break (label : Option String) (span : Span) :
    (Stmt.breakStmt label span).Traceable types body := by
  intro fs labels d d' hhas h
  obtain ⟨hd, hfit⟩ := hhas.begun hD
  rw [Stmt.draw] at h
  obtain ⟨target, ht, h⟩ := Except.of_bind_ok h
  cases h
  have hm := Scope.breakTarget_mem ht
  exact .jumpVia hd hfit span rfl (Scope.ending_breakRoute _ target) (.breaking hm)
    (fun p hp => .breaking hm hp)
    fun p hp => Or.inr (Or.inl ⟨_, _, hhas, List.suffix_refl _, Site.route?_break ht labels d, hp⟩)

theorem Stmt.traceable_continue (label : Option String) (span : Span) :
    (Stmt.continueStmt label span).Traceable types body := by
  intro fs labels d d' hhas h
  obtain ⟨hd, hfit⟩ := hhas.begun hD
  rw [Stmt.draw] at h
  obtain ⟨⟨target, continueTo⟩, ht, h⟩ := Except.of_bind_ok h
  cases h
  obtain ⟨hm, hc⟩ := Scope.continueTarget_mem ht
  exact .jumpVia hd hfit span rfl (Scope.ending_continueRoute _ target continueTo)
    (.continuing hm hc) (fun p hp => .continuing hm hc hp)
    fun p hp =>
      Or.inr (Or.inl ⟨_, _, hhas, List.suffix_refl _, Site.route?_continue ht labels d, hp⟩)

theorem Stmt.traceable_return (arg : Option Expr) (span : Span) :
    (Stmt.returnStmt arg span).Traceable types body := by
  intro fs labels d d' hhas h
  obtain ⟨hd, hfit⟩ := hhas.begun hD
  rw [Stmt.draw] at h
  cases h
  have ha :
      Traced (body.rules types fs) (Frame.scope types fs) d
        (Expr.drawOption (Frame.scope types fs) arg d) :=
    Expr.traced_option Block.resumes_exceptional arg hd hfit
  exact ha.trace.trans (.jumpVia ha.drawn.steady (ha.drawn.fits hd hfit fun _ _ hid => hid) span rfl
    (Scope.ending_returnRoute _ arg.isSome) .returning (fun p hp => .returning hp)
    fun p hp => Or.inr (Or.inl ⟨_, _, hhas, List.suffix_refl _, rfl, hp⟩))

/-- A `throw` leaves by exceptional edges only, so it obeys the rules. -/
theorem Stmt.traceable_throw (arg : Expr) (span : Span) :
    (Stmt.throwStmt arg span).Traceable types body := by
  intro fs labels d d' hhas h
  obtain ⟨hd, hfit⟩ := hhas.begun hD
  rw [Stmt.draw] at h
  cases h
  have ha :
      Traced (body.rules types fs) (Frame.scope types fs) d (arg.draw (Frame.scope types fs) d) :=
    arg.traced Block.resumes_exceptional hd hfit
  have hfita := ha.drawn.fits hd hfit fun _ _ hid => hid
  have ending := (Frame.scope types fs).ending_throwRoute (arg.newClass?.getD Throwable.root)
  have hj : Drawn (Frame.scope types fs) _ _ _ :=
    (Drawn.refl ha.drawn.steady).jump span rfl ending fun e he =>
    hfita.awaits (Scope.Leaves.throwing he).names
  refine ha.trace.trans ((Trace.jump ha.drawn.steady span rfl ending
    (fun e he => hfita.expects (.throwing he) _) fun e he => Or.inr (.throwing he)).trans
    (.register (hj.fits ha.drawn.steady hfita fun _ _ hid => hid) (fun p hp => .throwing hp)
      fun p hp => ?_))
  obtain ⟨_, id, he, _⟩ := ThrowRoute.mem_resumptions hp
  exact Block.resumes_exceptional p (he ▸ rfl)

/-! ## All statements -/

/-- Every statement of a body is drawn by the rules of the body. -/
theorem Stmt.traceable (s : Stmt) : s.Traceable types body := by
  induction s using Stmt.induct with
  | block b ih =>
    intro fs labels d d' hhas h
    obtain ⟨hd, hfit⟩ := hhas.begun hD
    cases b
    rw [Stmt.draw] at h
    exact Stmt.trace_all ih hd hfit (fun hb => hhas.part (.inBlock hb)) h
  | expr e span =>
    intro fs labels d d' hhas h
    obtain ⟨hd, hfit⟩ := hhas.begun hD
    rw [Stmt.draw] at h
    cases h
    exact (e.traced Block.resumes_exceptional hd hfit).trace
  | localVar decl =>
    intro fs labels d d' hhas h
    obtain ⟨hd, hfit⟩ := hhas.begun hD
    rw [Stmt.draw] at h
    cases h
    exact (decl.traced Block.resumes_exceptional hd hfit).trace
  | ifStmt test cons alt span ihc iha => exact Stmt.traceable_if hD test span ihc iha
  | whileStmt test body span ih => exact Stmt.traceable_while hD test span ih
  | doWhile body test span ih => exact Stmt.traceable_doWhile hD test span ih
  | forStmt init test update body span ihi ih => exact Stmt.traceable_for hD test update span ihi ih
  | forEach var iterable body span ih => exact Stmt.traceable_forEach hD var iterable span ih
  | switch selector groups span ih => exact Stmt.traceable_switch hD selector span ih
  | tryStmt resources block catches finalizer span ihb ihc ihf =>
    exact Stmt.traceable_try hD resources span ihb ihc ihf
  | labeled label body span ih => exact Stmt.traceable_labeled hD label span ih
  | breakStmt label span => exact Stmt.traceable_break hD label span
  | continueStmt label span => exact Stmt.traceable_continue hD label span
  | returnStmt arg span => exact Stmt.traceable_return hD arg span
  | throwStmt arg span => exact Stmt.traceable_throw hD arg span
  | synchronized lock block span ih =>
    intro fs labels d d' hhas h
    obtain ⟨hd, hfit⟩ := hhas.begun hD
    cases block
    rw [Stmt.draw] at h
    have hlock : Traced (body.rules types fs) (Frame.scope types fs) d
        ((lock.draw (Frame.scope types fs) d).emit .synchronized span) :=
      (lock.traced Block.resumes_exceptional hd hfit).andThen hd hfit fun hd _ =>
        .emit hd .synchronized span
    exact hlock.trace.trans ((Stmt.trace_all ih hlock.drawn.steady
      (hlock.drawn.fits hd hfit fun _ _ hid => hid)
      (fun hb => hhas.part (.inSynchronized hb)) h).of_le (hlock.drawn.fresh_le hd))
  | localClass ident span =>
    intro fs labels d d' hhas h
    rw [Stmt.draw] at h
    cases h
    exact .emit (hhas.begun hD).1 _ span
  | assertStmt | empty =>
    intro fs labels d d' hhas h
    rw [Stmt.draw] at h
    cases h
    exact .refl _
  | missing span =>
    intro fs labels d d' hhas h
    rw [Stmt.draw] at h
    cases h

end Constructs

end Statements

/-- A whole body is drawn by its rules, up to the edge that leads from its end to the exit. -/
theorem Graph.draft_trace {types : Subtyping} {body : Block} {D : Draft}
    (hD : Graph.draft types body = .ok D) : Trace (body.rules types []) (.begun body.span) D := by
  have h := hD
  obtain ⟨d₁, h₁, h⟩ := Except.of_bind_ok h
  cases h
  have hd := Draft.steady_begun body.span
  have hfit := Scope.fits_empty types (.begun body.span)
  have hstmts : Trace ((body.rules types []).inScope (Frame.scope types []) _) _ _ :=
    Stmt.trace_all (fun s _ => s.traceable hD) hd hfit .top h₁
  have hp := (Stmt.part_all (fun s _ => s.faithful) hd hfit h₁).drawn
  have hall : Trace (body.rules types []) (.begun body.span) d₁ :=
    hstmts.mono (fun _ _ => trivial) (fun _ hp => hp) fun _ _ _ he => he
  exact hall.trans (.passOn hp.steady (.fallThrough Graph.exit) (Or.inl rfl) trivial nofun)

end MethodFlow
