import MethodFlow.Proofs.Drawing

/-!
# The statements of a body, with the drafts in which they are drawn

A `Site` is a statement together with what encloses it and with the draft in which its drawing
begins. What encloses it is a list of frames, innermost first: the targets that it stands in, and
the `try` statements whose block or catch clauses it stands in. The scope of the statement follows
from its frames.

`Block.Has types body` are the sites of a body: those of its statements, and with a site those of
the statements directly inside it, each at the draft that drawing has come to (`Site.Part`). Drawing
succeeds at each of them if it does for the body, and what it gives is still there in the end
(`Block.Has.good`).
-/

namespace MethodFlow

open Draft (Drawn Part)

/-! ## Where the statements of a list are drawn -/

/-- When the statements of a list are drawn, the drawing of a statement begins in a draft. -/
inductive Stmt.Begins (scope : Scope) : List Stmt → Draft → Stmt → Draft → Prop
  | head {s : Stmt} {stmts : List Stmt} {d : Draft} : Begins scope (s :: stmts) d s d
  | tail {s s' : Stmt} {stmts : List Stmt} {d d₁ d' : Draft} (h : s.draw scope [] d = .ok d₁)
      (rest : Begins scope stmts d₁ s' d') : Begins scope (s :: stmts) d s' d'

/-- When the groups of a `switch` are drawn, the drawing of a group begins in a draft. -/
inductive CaseGroup.Begins (scope : Scope) (after : BlockId) :
    List CaseGroup → BlockId → Draft → CaseGroup → Draft → Prop
  | head {group : CaseGroup} {groups : List CaseGroup} {block : BlockId} {d : Draft} :
      Begins scope after (group :: groups) block d group (d.continueAt block)
  | tail {group group' : CaseGroup} {groups : List CaseGroup} {block : BlockId} {d d₁ d' : Draft}
      (h : Stmt.drawAll group.body scope (d.continueAt block) = .ok d₁)
      (rest : Begins scope after groups (block + 1) (group.finish d₁ after) group' d') :
      Begins scope after (group :: groups) block d group' d'

/-- When the clauses of a `try` statement are drawn, the drawing of a clause begins in a draft. -/
inductive CatchClause.Begins (scope : Scope) (finalizer : Option BlockId) (after : BlockId) :
    List CatchClause → BlockId → Draft → CatchClause → Draft → Prop
  | head {clause : CatchClause} {clauses : List CatchClause} {block : BlockId} {d : Draft} :
      Begins scope finalizer after (clause :: clauses) block d clause (d.start block)
  | tail {clause clause' : CatchClause} {clauses : List CatchClause} {block : BlockId}
      {d d₁ d' : Draft} (h : Stmt.drawAll clause.body.stmts scope (d.start block) = .ok d₁)
      (rest : Begins scope finalizer after clauses (block + 1) (d₁.leaveRegion finalizer after)
        clause' d') :
      Begins scope finalizer after (clause :: clauses) block d clause' d'

/-! ## Frames and sites -/

/-- A `try` statement with the scope around it and the draft in which its drawing begins. -/
structure Guard where
  resources : List LocalVar
  block : Block
  catches : List CatchClause
  finalizer : Option Block
  scope : Scope
  draft : Draft

namespace Guard

/-- The block after the statement. -/
def after (g : Guard) : BlockId := g.draft.fresh

def handler (g : Guard) : Handler := Draft.handlerAt g.draft.fresh g.catches g.finalizer

/-- The entry of the `finally` clause. -/
def finalBlock? (g : Guard) : Option BlockId := g.handler.finalizer

/-- The entry of the first catch clause. Those of the others follow it, and then the first block of
the `try` block. -/
def firstCatch (g : Guard) : BlockId := Draft.firstCatch g.draft.fresh g.finalizer

/-- The scope of the `try` block. -/
def blockScope (g : Guard) : Scope := g.scope.guarded g.handler

/-- The scope of the catch clauses, where only the `finally` clause is left. -/
def clauseScope (g : Guard) : Scope := g.scope.guarded ⟨[], g.finalBlock?⟩

/-- The draft in which the statements of the `try` block are drawn: the resources come first. -/
def opened (g : Guard) : Draft :=
  LocalVar.drawResources g.blockScope g.resources
    (g.draft.openTry g.scope.types g.catches g.finalizer g.block.span)

/-- The draft at the end of the `try` block. -/
def drawBlock (g : Guard) : Except BuildFailure Draft :=
  Stmt.drawAll g.block.stmts g.blockScope g.opened

/-- The draft in which the catch clauses are drawn, for the one at the end of the `try` block. -/
def leaveBlock (g : Guard) (d : Draft) : Draft := d.leaveRegion g.finalBlock? g.after

/-- The draft at the end of the catch clauses, from where on the statement guards nothing. -/
def drawGuarded (g : Guard) : Except BuildFailure Draft := do
  let d ← g.drawBlock
  CatchClause.drawAll g.catches g.clauseScope g.finalBlock? g.firstCatch g.after (g.leaveBlock d)

/-- The draft at the end of the statements of the `finally` clause. -/
def drawFinally (g : Guard) (final : Block) : Except BuildFailure Draft := do
  let d ← g.drawGuarded
  Stmt.drawAll final.stmts g.scope (d.start (g.after + 1))

end Guard

/-- A statement around another one that jumps and exceptions take notice of. -/
inductive Frame where
  | target (labels : List String) (kind : TargetKind) (breakTo : BlockId)
  | tryBlock (guard : Guard)
  | catchClause (guard : Guard)

namespace Frame

/-- The scope inside a frame. -/
def enter (scope : Scope) : Frame → Scope
  | target labels kind breakTo => scope.inside labels kind breakTo
  | tryBlock guard => scope.guarded guard.handler
  | catchClause guard => scope.guarded ⟨[], guard.finalBlock?⟩

/-- The scope inside frames, of which the innermost comes first. -/
def scope (types : Subtyping) (frames : List Frame) : Scope :=
  frames.foldr (fun frame scope => frame.enter scope) { types }

/-- The `try` statement that a frame is a part of. -/
def guard? : Frame → Option Guard
  | target _ _ _ => none
  | tryBlock guard | catchClause guard => some guard

end Frame

/-- A statement, what encloses it, the labels directly in front of it, and the draft in which its
drawing begins. -/
structure Site where
  stmt : Stmt
  frames : List Frame
  labels : List String
  draft : Draft

namespace Site

def scope (types : Subtyping) (s : Site) : Scope := Frame.scope types s.frames

def draw (types : Subtyping) (s : Site) : Except BuildFailure Draft :=
  s.stmt.draw (s.scope types) s.labels s.draft

/-- The `try` statement at a site. -/
def guard? (types : Subtyping) (s : Site) : Option Guard :=
  match s.stmt with
  | .tryStmt resources block catches finalizer _ =>
    some ⟨resources, block, catches, finalizer, s.scope types, s.draft⟩
  | _ => none

/-- The second site is that of a statement directly inside the first one. -/
inductive Part (types : Subtyping) : Site → Site → Prop
  | inBlock {stmts : List Stmt} {span : Span} {fs : List Frame} {labels : List String}
      {d d' : Draft} {s : Stmt} (h : Stmt.Begins (Frame.scope types fs) stmts d s d') :
      Part types ⟨.block ⟨stmts, span⟩, fs, labels, d⟩ ⟨s, fs, [], d'⟩
  | inSynchronized {lock : Expr} {stmts : List Stmt} {bodySpan span : Span} {fs : List Frame}
      {labels : List String} {d d' : Draft} {s : Stmt}
      (h : Stmt.Begins (Frame.scope types fs) stmts
        ((lock.draw (Frame.scope types fs) d).emit .synchronized span) s d') :
      Part types ⟨.synchronized lock ⟨stmts, bodySpan⟩ span, fs, labels, d⟩ ⟨s, fs, [], d'⟩
  | thenBranch {test : Expr} {cons : Stmt} {alt : Option Stmt} {span : Span} {fs : List Frame}
      {labels : List String} {d : Draft} :
      Part types ⟨.ifStmt test cons alt span, fs, labels, d⟩
        ⟨cons, fs, [], (test.draw (Frame.scope types fs) d).openIf cons alt test.span⟩
  | elseBranch {test : Expr} {cons alt : Stmt} {span : Span} {fs : List Frame}
      {labels : List String} {d dt d₁ : Draft} (ht : test.draw (Frame.scope types fs) d = dt)
      (h : cons.draw (Frame.scope types fs) [] (dt.openIf cons (some alt) test.span) = .ok d₁) :
      Part types ⟨.ifStmt test cons (some alt) span, fs, labels, d⟩
        ⟨alt, fs, [], d₁.turn .sequential (dt.fresh + 1) (dt.fresh + 2)⟩
  | whileBody {test : Expr} {body : Stmt} {span : Span} {fs : List Frame} {labels : List String}
      {d dt : Draft} (ht : test.draw (Frame.scope types fs) (d.openHeader (some test.span)) = dt) :
      Part types ⟨.whileStmt test body span, fs, labels, d⟩
        ⟨body, .target labels (.loop d.fresh) (dt.fresh + 1) :: fs, [],
          dt.openBody body.span test.span⟩
  | doBody {body : Stmt} {test : Expr} {span : Span} {fs : List Frame} {labels : List String}
      {d : Draft} :
      Part types ⟨.doWhile body test span, fs, labels, d⟩
        ⟨body, .target labels (.loop (d.fresh + 1)) (d.fresh + 2) :: fs, [],
          d.openDo body.span test.span⟩
  | forInit {init : List Stmt} {test : Option Expr} {update : List Expr} {body s : Stmt}
      {span : Span} {fs : List Frame} {labels : List String} {d d' : Draft}
      (h : Stmt.Begins (Frame.scope types fs) init d s d') :
      Part types ⟨.forStmt init test update body span, fs, labels, d⟩ ⟨s, fs, [], d'⟩
  | forBody {init : List Stmt} {test : Option Expr} {update : List Expr} {body : Stmt} {span : Span}
      {fs : List Frame} {labels : List String} {d d₀ dm : Draft}
      (h : Stmt.drawAll init (Frame.scope types fs) d = .ok d₀)
      (hm : (d₀.openHeader (some (test.elim span (·.span)))).makeFor (!update.isEmpty)
        body.span = dm) :
      Part types ⟨.forStmt init test update body span, fs, labels, d⟩
        ⟨body, .target labels (.loop (Draft.forNext d₀.fresh update)) (d₀.fresh + 2) :: fs, [],
          dm.testFor (Frame.scope types fs) test (d₀.fresh + 1) (d₀.fresh + 2)⟩
  | eachBody {var : String} {iterable : Expr} {body : Stmt} {span : Span} {fs : List Frame}
      {labels : List String} {d di : Draft} (hi : iterable.draw (Frame.scope types fs) d = di) :
      Part types ⟨.forEach var iterable body span, fs, labels, d⟩
        ⟨body, .target labels (.loop di.fresh) (di.fresh + 2) :: fs, [],
          ((di.openHeader (some span)).openBody body.span iterable.span).emit
          (.declaration var) span⟩
  | inGroup {selector : Expr} {groups : List CaseGroup} {span : Span} {fs : List Frame}
      {labels : List String} {d ds d₁ d' : Draft} {group : CaseGroup} {s : Stmt}
      (hs : selector.draw (Frame.scope types fs) d = ds)
      (hg : CaseGroup.Begins ((Frame.scope types fs).inside labels .switch ds.fresh) ds.fresh groups
        (ds.fresh + 1) (ds.openSwitch groups selector.span) group d₁)
      (h : Stmt.Begins ((Frame.scope types fs).inside labels .switch ds.fresh) group.body d₁ s d') :
      Part types ⟨.switch selector groups span, fs, labels, d⟩
        ⟨s, .target labels .switch ds.fresh :: fs, [], d'⟩
  | inTry {s₀ : Site} {g : Guard} {d' : Draft} {s : Stmt} (hg : s₀.guard? types = some g)
      (h : Stmt.Begins g.blockScope g.block.stmts g.opened s d') :
      Part types s₀ ⟨s, .tryBlock g :: s₀.frames, [], d'⟩
  | inCatch {s₀ : Site} {g : Guard} {d₁ d₂ d' : Draft} {clause : CatchClause} {s : Stmt}
      (hg : s₀.guard? types = some g) (h₁ : g.drawBlock = .ok d₁)
      (h₂ : CatchClause.Begins g.clauseScope g.finalBlock? g.after g.catches g.firstCatch
        (g.leaveBlock d₁)
        clause d₂)
      (h : Stmt.Begins g.clauseScope clause.body.stmts d₂ s d') :
      Part types s₀ ⟨s, .catchClause g :: s₀.frames, [], d'⟩
  | inFinally {s₀ : Site} {g : Guard} {d₂ d' : Draft} {final : Block} {s : Stmt}
      (hg : s₀.guard? types = some g) (hf : g.finalizer = some final) (h₂ : g.drawGuarded = .ok d₂)
      (h : Stmt.Begins g.scope final.stmts (d₂.start (g.after + 1)) s d') :
      Part types s₀ ⟨s, s₀.frames, [], d'⟩
  | carried {label : String} {body : Stmt} {span : Span} {fs : List Frame} {labels : List String}
      {d : Draft} (h : body.carriesLabels = true) :
      Part types ⟨.labeled label body span, fs, labels, d⟩ ⟨body, fs, labels ++ [label], d⟩
  | labeled {label : String} {body : Stmt} {span : Span} {fs : List Frame} {labels : List String}
      {d : Draft} (h : body.carriesLabels = false) :
      Part types ⟨.labeled label body span, fs, labels, d⟩
        ⟨body, .target (labels ++ [label]) .labeled d.fresh :: fs, [], d.create .normal none⟩

end Site

/-- The statements of a body, at any depth. -/
inductive Block.Has (types : Subtyping) (body : Block) : Site → Prop
  | top {s : Stmt} {d : Draft} (h : Stmt.Begins { types } body.stmts (.begun body.span) s d) :
      Has types body ⟨s, [], [], d⟩
  | part {s s' : Site} (h : Has types body s) (hp : s.Part types s') : Has types body s'

/-- The `try` statements of a body, at any depth. -/
def Block.HasGuard (types : Subtyping) (body : Block) (g : Guard) : Prop :=
  ∃ s, body.Has types s ∧ s.guard? types = some g

/-! ## Drawing at a site -/

section Lists

variable {scope : Scope} {d d' d₁ : Draft}

/-- Where a statement of a list begins, the scope fits, and the rest of the list builds on what it
gives. -/
theorem Stmt.Begins.drawn {stmts : List Stmt} {s : Stmt} (h : Stmt.Begins scope stmts d s d₁)
    (hd : d.Steady) (hfit : scope.Fits d) (hall : Stmt.drawAll stmts scope d = .ok d') :
    d₁.Steady ∧ scope.Fits d₁ ∧ ∃ d₂, s.draw scope [] d₁ = .ok d₂ ∧ d₂.Extends d' := by
  induction h with
  | head =>
    rw [Stmt.drawAll] at hall
    obtain ⟨d₂, h₂, hall⟩ := Except.of_bind_ok hall
    have hp := Stmt.faithful _ hd hfit (List.forall_mem_nil _) h₂
    have hrest := Stmt.part_all (fun s _ => s.faithful) hp.drawn.steady (hp.fits hd hfit) hall
    exact ⟨hd, hfit, d₂, h₂, hrest.extends hp.drawn.steady⟩
  | tail h _ ih =>
    rw [Stmt.drawAll] at hall
    obtain ⟨d₂, h₂, hall⟩ := Except.of_bind_ok hall
    cases h.symm.trans h₂
    have hp := Stmt.faithful _ hd hfit (List.forall_mem_nil _) h
    exact ih hp.drawn.steady (hp.fits hd hfit) hall

theorem CaseGroup.Begins.drawn {groups : List CaseGroup} {block after : BlockId} {group : CaseGroup}
    (h : CaseGroup.Begins scope after groups block d group d₁)
    (hr : CaseGroup.Ready scope groups block after d)
    (hall : CaseGroup.drawAll groups scope block after d = .ok d') :
    d₁.Steady ∧ scope.Fits d₁ ∧ ∃ d₂, Stmt.drawAll group.body scope d₁ = .ok d₂ ∧
      d₂.Extends d' := by
  induction h with
  | @head group groups block d =>
    rw [CaseGroup.drawAll_cons] at hall
    obtain ⟨d₂, h₂, hall⟩ := Except.of_bind_ok hall
    obtain ⟨hs, hp, _, hr'⟩ := hr.step (fun s _ => s.faithful) h₂
    have hrest := CaseGroup.drawn_all hr' (fun _ _ s _ => s.faithful) hall
    exact ⟨hs, hr.fits_opened, d₂, h₂,
      (CaseGroup.extends_finish hp.drawn.steady group after).trans (hrest.run.extends hr'.steady)⟩
  | tail h _ ih =>
    rw [CaseGroup.drawAll_cons] at hall
    obtain ⟨d₂, h₂, hall⟩ := Except.of_bind_ok hall
    cases h.symm.trans h₂
    obtain ⟨_, _, _, hr'⟩ := hr.step (fun s _ => s.faithful) h
    exact ih hr' hall

theorem CatchClause.Begins.drawn {clauses : List CatchClause} {finalizer : Option BlockId}
    {block after : BlockId} {clause : CatchClause} {d₀ : Draft} {W : BlockId → Prop}
    (h : CatchClause.Begins (scope.guarded ⟨[], finalizer⟩) finalizer after clauses block
      d clause d₁)
    (hr : CatchClause.Ready scope d₀ finalizer after clauses block W d)
    (hall : CatchClause.drawAll clauses (scope.guarded ⟨[], finalizer⟩) finalizer block after d =
      .ok d') :
    d₁.Steady ∧ (scope.guarded ⟨[], finalizer⟩).Fits d₁ ∧
      ∃ d₂, Stmt.drawAll clause.body.stmts (scope.guarded ⟨[], finalizer⟩) d₁ = .ok d₂ ∧
        (d₂.leaveRegion finalizer after).Extends d' := by
  induction h generalizing W with
  | @head clause clauses block d =>
    rw [CatchClause.drawAll_cons] at hall
    obtain ⟨d₂, h₂, hall⟩ := Except.of_bind_ok hall
    obtain ⟨hs, hp, hr'⟩ := hr.step (fun s _ => s.faithful) h₂
    obtain ⟨_, hext⟩ := hr'.all (fun _ _ s _ => s.faithful) hall
    exact ⟨hs, hr.opened_clause.2, d₂, h₂, hext⟩
  | tail h _ ih =>
    rw [CatchClause.drawAll_cons] at hall
    obtain ⟨d₂, h₂, hall⟩ := Except.of_bind_ok hall
    cases h.symm.trans h₂
    obtain ⟨_, _, hr'⟩ := hr.step (fun s _ => s.faithful) h
    exact ih hr' hall

end Lists

namespace Guard

variable {g : Guard} {d₁ d₂ : Draft}

theorem draw_tryStmt (g : Guard) (labels : List String) (span : Span) :
    (Stmt.tryStmt g.resources g.block g.catches g.finalizer span).draw g.scope labels g.draft = (do
      let d₂ ← g.drawGuarded
      let d₃ ← Block.drawFinalizer g.finalizer g.scope g.after d₂
      return d₃.continueAt g.after) := by
  obtain ⟨resources, ⟨stmts, blockSpan⟩, catches, finalizer, scope, d⟩ := g
  rw [Stmt.draw_try]
  simp only [drawGuarded, bind_assoc]
  rfl

/-- The blocks that wait while the clauses are drawn: those that did before, and the ones the
statement has made for itself. -/
def waits (g : Guard) (id : BlockId) : Prop :=
  g.draft.Waiting id ∨ g.after ≤ id ∧ id < g.firstCatch + g.catches.length

/-- The drafts on the way through a `try` statement, with its block drawn to `d₁` and its clauses to
`d₂`. -/
structure Drawn (g : Guard) (d₁ d₂ : Draft) : Prop where
  opened :
    Draft.Drawn g.scope g.draft (g.draft.openTry g.scope.types g.catches g.finalizer g.block.span)
    g.waits
  fits_opened : g.blockScope.Fits (g.draft.openTry g.scope.types g.catches g.finalizer g.block.span)
  resourced : Draft.Drawn g.scope g.draft g.opened g.waits
  fits_block : g.blockScope.Fits g.opened
  after_block : Draft.Drawn g.scope g.draft d₁ g.waits
  ready : CatchClause.Ready g.scope g.draft g.finalBlock? g.after g.catches g.firstCatch g.waits
    (g.leaveBlock d₁)
  left : (g.leaveBlock d₁).Extends d₂
  done :
    CatchClause.Ready g.scope g.draft g.finalBlock? g.after [] (g.firstCatch + g.catches.length)
    (fun id => g.waits id ∧ ¬ (g.firstCatch ≤ id ∧ id < g.firstCatch + g.catches.length)) d₂

/-- The `finally` clause stands right before the catch clauses. -/
theorem of_finalBlock? {entry : BlockId} (h : g.finalBlock? = some entry) :
    entry = g.after + 1 ∧ entry < g.firstCatch :=
  Draft.finalizer_handlerAt h

theorem hasEntry_handler {id : BlockId} (h : g.handler.HasEntry id) : g.after < id :=
  (Draft.hasEntry_handlerAt h).1

theorem new_handler {entry : BlockId} (h : g.handler.finalizer = some entry) :
    g.draft.fresh ≤ entry := by
  rw [(of_finalBlock? h).1]
  exact Nat.le_succ _

/-- The stages of a guard are drawn within its scope. -/
theorem drawn (hd : g.draft.Steady) (hfit : g.scope.Fits g.draft) (h₁ : g.drawBlock = .ok d₁)
    (h₂ : CatchClause.drawAll g.catches g.clauseScope g.finalBlock? g.firstCatch g.after
      (g.leaveBlock d₁) =
      .ok d₂) : g.Drawn d₁ d₂ := by
  have ho : Draft.Drawn g.scope g.draft _ g.waits :=
    (Draft.Drawn.refl hd).openTry g.scope.types g.catches g.finalizer g.block.span
  have hfito : g.blockScope.Fits _ := Draft.fits_openTry hd hfit g.catches g.finalizer g.block.span
  have hreg : ∀ p, g.blockScope.Registers p → g.scope.Registers p ∨ g.draft.fresh ≤ p.1 :=
    registers_of_guarded hfit fun _ => new_handler
  have hr := LocalVar.part_resources g.resources rfl ho.steady hfito
  have hfitr := hr.fits ho.steady hfito
  have hb := Stmt.part_all (fun s _ => s.faithful) hr.drawn.steady hfitr h₁
  have hres := ho.part hd hr.drawn hreg
  obtain ⟨_, _, hready⟩ := CatchClause.Ready.body hd hfit g.resources (fun s _ => s.faithful) h₁
  obtain ⟨hdone, hleft⟩ := hready.all (fun _ _ s _ => s.faithful) h₂
  exact ⟨ho, hfito, hres, hfitr, hres.part hd hb.drawn hreg, hready, hleft, hdone⟩

end Guard

/-! ## Every statement of a body is drawn -/

namespace Site

/-- The `try` statements whose block or clauses the site is in, innermost first. -/
def guards (s : Site) : List Guard := s.frames.filterMap Frame.guard?

/-- Drawing succeeds at a site, and what it gives is still there in the draft `D` and where the
`try` statements around it end. -/
structure Good (types : Subtyping) (D : Draft) (s : Site) : Prop where
  steady : s.draft.Steady
  fits : (s.scope types).Fits s.draft
  labels : ∀ l ∈ s.labels, s.stmt.carriesLabels = true ∧ (s.scope types).hasLabel l = false
  /-- A `finally` clause goes on to blocks that were made before those of its statement. -/
  layered : ∀ p, (s.scope types).Registers p → p.2.target + 1 < p.1
  drawn : ∃ d', s.draw types = .ok d' ∧ d'.Extends D ∧
    ∀ g ∈ s.guards, ∃ d₂, g.drawGuarded = .ok d₂ ∧ d'.Extends d₂

variable {types : Subtyping} {D d' d'' : Draft} {s s' : Site}

/-- A part that is drawn in frames which add a few things to those of the whole. -/
theorem Good.of_part (h : s.Good types D) (hdraw : s.draw types = .ok d') (steady : s'.draft.Steady)
    (fits : (s'.scope types).Fits s'.draft)
    (labels : ∀ l ∈ s'.labels, s'.stmt.carriesLabels = true ∧ (s'.scope types).hasLabel l = false)
    (layered : ∀ p, (s'.scope types).Registers p → (s.scope types).Registers p ∨
      p.2.target + 1 < p.1)
    (hdraw' : s'.draw types = .ok d'') (hext : d''.Extends d')
    (guards : ∀ g ∈ s'.guards, g ∈ s.guards ∨ ∃ d₂, g.drawGuarded = .ok d₂ ∧ d''.Extends d₂) :
    s'.Good types D := by
  obtain ⟨_, hd, hD, hguards⟩ := h.drawn
  cases hdraw.symm.trans hd
  refine ⟨steady, fits, labels, fun p hp => (layered p hp).elim (h.layered p) id, d'', hdraw',
    hext.trans hD, fun g hg => ?_⟩
  rcases guards g hg with hg | hg
  · obtain ⟨d₂, h₂, hext₂⟩ := hguards g hg
    exact ⟨d₂, h₂, hext.trans hext₂⟩
  · exact hg

/-- A part that is drawn in the frames of the whole. -/
theorem Good.same (h : s.Good types D) (hdraw : s.draw types = .ok d') {stmt : Stmt} {d : Draft}
    (steady : d.Steady) (fits : (s.scope types).Fits d)
    (hdraw' : stmt.draw (s.scope types) [] d = .ok d'') (hext : d''.Extends d') :
      Good types D ⟨stmt, s.frames, [], d⟩ :=
  h.of_part hdraw steady fits (List.forall_mem_nil _) (fun _ => Or.inl) hdraw' hext fun _ => Or.inl

/-- A part that is drawn inside one more target. -/
theorem Good.inside (h : s.Good types D) (hdraw : s.draw types = .ok d') {stmt : Stmt} {d : Draft}
    {labels : List String} {kind : TargetKind} {after : BlockId} (steady : d.Steady)
    (fits : ((s.scope types).inside labels kind after).Fits d)
    (hdraw' : stmt.draw ((s.scope types).inside labels kind after) [] d = .ok d'')
    (hext : d''.Extends d') :
    Good types D ⟨stmt, .target labels kind after :: s.frames, [], d⟩ :=
  h.of_part hdraw steady fits (List.forall_mem_nil _) (fun _ hp => Or.inl hp.of_inside) hdraw' hext
    fun _ => Or.inl

/-- The guard of a site has the scope and the draft of the site. -/
theorem of_guard? {g : Guard} (h : s.guard? types = some g) :
    g.scope = s.scope types ∧ g.draft = s.draft ∧
      ∃ span, s.stmt = .tryStmt g.resources g.block g.catches g.finalizer span := by
  unfold guard? at h
  split at h
  · cases h
    exact ⟨rfl, rfl, _, ‹_›⟩
  · exact nomatch h

/-- A part that is drawn inside a `try` statement. -/
theorem Good.guarded {g : Guard} (h : s.Good types D) (hdraw : s.draw types = .ok d')
    (hg : s.guard? types = some g) {frame : Frame} {handler : Handler}
    (hframe : frame.guard? = some g)
    (hscope : frame.enter (s.scope types) = g.scope.guarded handler)
    (hfinal : handler.finalizer = g.finalBlock?) {stmt : Stmt} {d d₂ : Draft} (steady : d.Steady)
    (fits : (g.scope.guarded handler).Fits d)
    (hdraw' : stmt.draw (g.scope.guarded handler) [] d = .ok d'') (h₂ : g.drawGuarded = .ok d₂)
    (hext₂ : d''.Extends d₂) (hext : d₂.Extends d') :
    Good types D ⟨stmt, frame :: s.frames, [], d⟩ := by
  obtain ⟨hgs, hgd, _⟩ := of_guard? hg
  have hs : (⟨stmt, frame :: s.frames, [], d⟩ : Site).scope types =
      g.scope.guarded handler := hscope
  refine h.of_part hdraw steady (hs ▸ fits) (List.forall_mem_nil _) (fun p hp => ?_)
    ((congrArg (fun scope => stmt.draw scope [] d) hs).trans hdraw')
    (hext₂.trans hext) fun g' hg' => ?_
  · rw [hs, hgs] at hp
    rcases hp.of_guarded h.fits.depth_le with ⟨hf, hl⟩ | hp
    · have hlt : p.2.target < g.after := by
        rw [Guard.after, hgd]
        exact h.fits.lt hl.names
      rw [(Guard.of_finalBlock? (hfinal.symm.trans hf)).1]
      exact Or.inr (Nat.succ_lt_succ hlt)
    · exact Or.inl hp
  · rw [guards, List.filterMap_cons, hframe] at hg'
    rcases List.mem_cons.mp hg' with rfl | hg'
    · exact Or.inr ⟨d₂, h₂, hext₂⟩
    · exact Or.inl hg'

/-- What is drawn at a `try` statement. -/
theorem Good.guard {g : Guard} (h : s.Good types D) (hg : s.guard? types = some g) :
    ∃ d₁ d₂ d₃, g.drawBlock = .ok d₁ ∧ g.drawGuarded = .ok d₂ ∧ g.Drawn d₁ d₂ ∧
      Block.drawFinalizer g.finalizer g.scope g.after d₂ = .ok d₃ ∧
      s.draw types = .ok (d₃.continueAt g.after) ∧ (d₃.continueAt g.after).Extends D := by
  obtain ⟨d', hdraw, hD, _⟩ := h.drawn
  obtain ⟨hgs, hgd, span, hstmt⟩ := of_guard? hg
  have hdraw' := hdraw
  rw [draw, hstmt, ← hgs, ← hgd, Guard.draw_tryStmt] at hdraw'
  obtain ⟨d₂, h₂, hdraw'⟩ := Except.of_bind_ok hdraw'
  obtain ⟨d₃, h₃, hdraw'⟩ := Except.of_bind_ok hdraw'
  obtain ⟨d₁, h₁, h₂'⟩ := Except.of_bind_ok h₂
  cases hdraw'
  exact ⟨d₁, d₂, d₃, h₁, h₂, Guard.drawn (hgd ▸ h.steady) (hgs ▸ hgd ▸ h.fits) h₁ h₂',
    h₃, hdraw, hD⟩

/-- Drawing succeeds at a part of a statement where it does. -/
theorem Part.good (hp : s.Part types s') (h : s.Good types D) : s'.Good types D := by
  obtain ⟨d', hdraw, hD, hguards⟩ := h.drawn
  have hres := hdraw
  -- Each part is drawn from a steady draft, and what is drawn later only extends the result.
  cases hp with
  | @inBlock stmts span fs labels d _ s hb =>
    rw [draw, Stmt.draw] at hres
    obtain ⟨hs, hf, d₂, h₂, hext⟩ := hb.drawn h.steady h.fits hres
    exact h.same hdraw hs hf h₂ hext
  | @inSynchronized lock stmts bodySpan span fs labels d _ s hb =>
    rw [draw, Stmt.draw] at hres
    have hlock : Draft.Part (Frame.scope types fs) [] d
        ((lock.draw (Frame.scope types fs) d).emit .synchronized span) _ :=
      (lock.faithful h.steady h.fits).andThen h.steady h.fits fun hd _ =>
        .emit hd .synchronized span
    obtain ⟨hs, hf, d₂, h₂, hext⟩ := hb.drawn hlock.drawn.steady (hlock.fits h.steady h.fits) hres
    exact h.same hdraw hs hf h₂ hext
  | @thenBranch test cons alt span fs labels d =>
    rw [draw, Stmt.draw_if] at hres
    obtain ⟨d₁, h₁, hres⟩ := Except.of_bind_ok hres
    obtain ⟨d₂, h₂, hres⟩ := Except.of_bind_ok hres
    cases hres
    have ht := test.faithful h.steady h.fits
    have hfit := ht.fits h.steady h.fits
    cases alt with
    | none =>
      rw [Stmt.drawElse] at h₂
      cases h₂
      have hi := Draft.IfDrawn.of_parts ht.drawn.steady hfit (cons.draws h₁)
      exact h.same hdraw hi.opened.steady hi.fits h₁
        (Draft.extends_continueAt hi.after_cons.steady _)
    | some alt =>
      rw [Stmt.drawElse] at h₂
      have hi := Draft.IfElseDrawn.of_parts ht.drawn.steady hfit (cons.draws h₁)
        (alt.draws h₂)
      have halt := alt.draws h₂ hi.turned.steady hi.fits_alt
      exact h.same hdraw hi.opened.steady hi.fits_cons h₁
        (((Draft.extends_turn hi.after_cons.steady _ _ _).trans
          (halt.run.extends hi.turned.steady)).trans
          (Draft.extends_continueAt hi.after_alt.steady _))
  | @elseBranch test cons alt span fs labels d dt d₁ hdt h₁ =>
    subst hdt
    rw [draw, Stmt.draw_if] at hres
    obtain ⟨_, h₁', hres⟩ := Except.of_bind_ok hres
    obtain ⟨d₂, h₂, hres⟩ := Except.of_bind_ok hres
    cases hres
    cases h₁.symm.trans h₁'
    rw [Stmt.drawElse] at h₂
    have ht := test.faithful h.steady h.fits
    have hi := Draft.IfElseDrawn.of_parts ht.drawn.steady (ht.fits h.steady h.fits)
      (cons.draws h₁) (alt.draws h₂)
    exact h.same hdraw hi.turned.steady hi.fits_alt h₂
      (Draft.extends_continueAt hi.after_alt.steady _)
  | @whileBody test body span fs labels d dt hdt =>
    subst hdt
    obtain ⟨d₁, h₁, rfl, hw⟩ := Stmt.drawn_while h.steady h.fits hdraw
    exact h.inside hdraw hw.entered.steady hw.fits_body h₁
      (Draft.extends_turn hw.after_body.steady _ _ _)
  | @doBody body test span fs labels d =>
    obtain ⟨d₁, h₁, rfl, hw⟩ := Stmt.drawn_doWhile h.steady h.fits hdraw
    have htest := test.faithful hw.turned.steady hw.fits_test
    exact h.inside hdraw hw.opened.steady hw.fits_body h₁
      (((Draft.extends_continueAt hw.after_body.steady _).trans
        (htest.extends hw.turned.steady)).trans
        (Draft.extends_branch_start hw.after_test.steady _ _ _ _))
  | @forInit init test update body s span fs labels d _ hb =>
    obtain ⟨d₀, d₁, h₀, hinit, h₁, rfl, hw⟩ := Stmt.drawn_for h.steady h.fits hdraw
    obtain ⟨hs, hf, d₂, h₂, hext⟩ := hb.drawn h.steady h.fits h₀
    exact h.same hdraw hs hf h₂ (hext.trans (hw.whole.run.extends hinit.steady))
  | @forBody init test update body span fs labels d d₀ dm h₀ hm =>
    subst hm
    obtain ⟨_, d₁, h₀', hinit, h₁, rfl, hw⟩ := Stmt.drawn_for h.steady h.fits hdraw
    cases h₀.symm.trans h₀'
    have hu := Drawn.updateFor hw.after_body.steady hw.fits_update update _ hw.next
    exact h.inside hdraw hw.entered.steady hw.fits_body h₁
      ((hu.run.extends hw.after_body.steady).trans (Draft.extends_turn hw.updated.steady _ _ _))
  | @eachBody var iterable body span fs labels d di hdi =>
    subst hdi
    obtain ⟨d₁, h₁, rfl, hw⟩ := Stmt.drawn_forEach h.steady h.fits hdraw
    exact h.inside hdraw hw.entered.steady hw.fits_body h₁
      (Draft.extends_turn hw.after_body.steady _ _ _)
  | @inGroup selector groups span fs labels d ds _ _ group s hds hg hb =>
    subst hds
    rw [draw, Stmt.draw_switch] at hres
    obtain ⟨d₁, h₁, hres⟩ := Except.of_bind_ok hres
    cases hres
    have hsel := selector.faithful h.steady h.fits
    have hready :=
      CaseGroup.ready_openSwitch hsel.drawn.steady (hsel.fits h.steady h.fits) labels groups
      selector.span
    have hall := CaseGroup.drawn_all hready (fun _ _ s _ => s.faithful) h₁
    obtain ⟨hs, hf, d₂, h₂, hext⟩ := hg.drawn hready h₁
    obtain ⟨hs', hf', d₃, h₃, hext'⟩ := hb.drawn hs hf h₂
    exact h.inside hdraw hs' hf' h₃
      ((hext'.trans hext).trans (Draft.extends_continueAt hall.steady _))
  | @inTry _ g _ s hg hb =>
    obtain ⟨d₁, d₂, d₃, h₁, h₂, hw, h₃, hdraw', _⟩ := h.guard hg
    obtain ⟨hs, hf, d'', h'', hext⟩ := hb.drawn hw.resourced.steady hw.fits_block h₁
    obtain ⟨hfinal, hgrows⟩ := hw.done.drawFinalizer (fun _ _ s _ => s.faithful) h₃
    obtain ⟨hgs, _, _⟩ := of_guard? hg
    exact h.guarded hdraw' hg rfl (hgs ▸ rfl) rfl hs hf h'' h₂
      ((hext.trans (Draft.extends_leaveRegion hw.after_block.steady _ _)).trans hw.left)
      (hgrows.trans (Draft.extends_continueAt hfinal.steady _))
  | @inCatch _ g _ _ _ clause _ hg h₁ hc hb =>
    obtain ⟨_, d₂, d₃, h₁', h₂, hw, h₃, hdraw', _⟩ := h.guard hg
    cases h₁.symm.trans h₁'
    have hclauses := h₂
    rw [Guard.drawGuarded, h₁] at hclauses
    obtain ⟨hs, hf, d₄, h₄, hext₄⟩ := CatchClause.Begins.drawn hc hw.ready hclauses
    obtain ⟨hs', hf', d'', h'', hext⟩ := hb.drawn hs hf h₄
    obtain ⟨hfinal, hgrows⟩ := hw.done.drawFinalizer (fun _ _ s _ => s.faithful) h₃
    have hp := Stmt.part_all (fun s _ => s.faithful) hs hf h₄
    obtain ⟨hgs, _, _⟩ := of_guard? hg
    -- A catch clause keeps the `finally` clause as its handler, but no catch clauses.
    have hscope : Frame.enter (s.scope types) (.catchClause g) = g.clauseScope := hgs ▸ rfl
    exact h.guarded hdraw' hg rfl hscope rfl hs' hf' h'' h₂
      ((hext.trans (Draft.extends_leaveRegion hp.drawn.steady _ _)).trans hext₄)
      (hgrows.trans (Draft.extends_continueAt hfinal.steady _))
  | @inFinally _ g d₂ _ final s hg hfinal h₂ hb =>
    obtain ⟨d₁, _, d₃, h₁, h₂', hw, h₃, hdraw', _⟩ := h.guard hg
    cases h₂.symm.trans h₂'
    obtain ⟨hgs, _, _⟩ := of_guard? hg
    obtain ⟨hended, _⟩ := hw.done.drawFinalizer (fun _ _ s _ => s.faithful) h₃
    rw [hfinal, Block.drawFinalizer_some] at h₃
    obtain ⟨d₄, h₄, h₃⟩ := Except.of_bind_ok h₃
    cases h₃
    have hdone := hw.done
    rw [Guard.finalBlock?, Guard.handler, Draft.handlerAt, hfinal] at hdone
    obtain ⟨ho, hfit⟩ := hdone.opened_finally
    obtain ⟨hs, hf, d'', h'', hext⟩ := hb.drawn ho.steady hfit h₄
    have hp := Stmt.part_all (fun s _ => s.faithful) ho.steady hfit h₄
    exact h.same hdraw' hs (hgs ▸ hf) (hgs ▸ h'')
      ((hext.trans (Draft.extends_leaveFinalizer hp.drawn.steady _ _)).trans
        (Draft.extends_continueAt hended.steady _))
  | @carried label body span fs labels d hc =>
    rw [draw, Stmt.draw_labeled] at hres
    split at hres
    · cases hres
    rename_i hnew
    rw [Bool.or_eq_true, not_or, Bool.not_eq_true, Bool.not_eq_true] at hnew
    refine h.of_part hdraw h.steady h.fits (fun l hl => ⟨hc, ?_⟩) (fun _ => Or.inl) hres (.refl _)
      fun _ => Or.inl
    rcases List.mem_append.mp hl with hl | hl
    · exact (h.labels l hl).2
    · rw [List.mem_singleton.mp hl]
      exact hnew.2
  | @labeled label body span fs labels d hc =>
    rw [draw, Stmt.draw_labeled] at hres
    split at hres
    · cases hres
    split at hres
    · exact absurd ‹_› (Bool.eq_false_iff.mp hc)
    obtain ⟨d₁, h₁, hres⟩ := Except.of_bind_ok hres
    cases hres
    have hw := Draft.LabelDrawn.of_parts h.steady h.fits (body.draws h₁)
    exact h.inside hdraw hw.made.steady hw.fits h₁ (Draft.extends_continueAt hw.after_body.steady _)

end Site

/-- What a body has in it is drawn with the body. -/
theorem Block.Has.good {types : Subtyping} {body : Block} {D : Draft} {s : Site}
    (hd : Graph.draft types body = .ok D) (h : body.Has types s) : s.Good types D := by
  induction h with
  | top h =>
    obtain ⟨d₁, h₁, hd⟩ := Except.of_bind_ok hd
    cases hd
    have hb := Draft.steady_begun body.span
    have hfit := Scope.fits_empty types (.begun body.span)
    obtain ⟨hs, hf, d', h', hext⟩ := h.drawn hb hfit h₁
    have hp := Stmt.part_all (fun s _ => s.faithful) hb hfit h₁
    refine ⟨hs, hf, List.forall_mem_nil _, fun p hp => ?_, d', h',
      hext.trans (Draft.extends_fallInto hp.drawn.steady Graph.exit), List.forall_mem_nil _⟩
    obtain ⟨_, hm, _⟩ := hp.finalizer
    exact nomatch hm
  | part _ hp ih => exact hp.good ih

end MethodFlow
