import MethodFlow.Proofs.Awaiting
import MethodFlow.Proofs.Consistency
import MethodFlow.Proofs.Rewriting

/-!
# Two drawings compared

The same code is drawn twice, with two type hierarchies and, in the second drawing, with its
expressions rewritten. A relation between the two drafts that the few operations of drawing keep is
kept by drawing as a whole. That is proved once here; what is left to a relation is said by two
structures.

`Draft.Stable` asks it for operations that have nothing to do with exceptions: making a block,
opening it, recording an element, closing it with normal edges. `Comparison` asks it also for what
depends on the types: exceptions, the entry and the end of `try` statements. There a relation may
speak of the scope, and of the `finally` clauses that are known to have a place to go on at; by
`Stmt.hasResumption_all` that is every clause whose code is drawn.

Main result: `Graph.draft_compared`.
-/

namespace MethodFlow

/-- The scope with another type hierarchy. -/
def Scope.under (scope : Scope) (types : Subtyping) : Scope := { scope with types }

theorem JumpRoute.isNormal_resumptions {final : Edge} (h : final.isNormal = true)
    (handlers : List Handler) :
    ∀ p ∈ (JumpRoute.through final handlers).resumptions, p.2.isNormal = true := by
  intro p hp
  rcases (JumpRoute.mem_resumptions hp).2 with he | ⟨_, _, entry, _, he⟩
  · rw [he]
    exact h
  · rw [he]
    rfl

/-! ## Relations that drawing keeps apart from exceptions -/

/-- The relation is kept by everything that has nothing to do with exceptions. `S` says which spans
may stand for each other. -/
structure Draft.Stable (S : Option Span → Option Span → Prop) (R : Draft → Draft → Prop) :
    Prop where
  refl : ∀ span, S span span
  fresh : ∀ {d d'}, R d d' → d.fresh = d'.fresh
  current : ∀ {d d'}, R d d' → d.current = d'.current
  report : ∀ {d d'}, R d d' → ∀ fault, R (d.report fault) (d'.report fault)
  enter : ∀ {d d'}, R d d' → ∀ id, R { d with current := id } { d' with current := id }
  add : ∀ {d d'}, R d d' → ∀ kind elements {span span'}, S span span' →
    R (d.add { kind, elements, span }) (d'.add { kind, elements, span := span' })
  record : ∀ {d d'}, R d d' → ∀ id element,
    R (d.modify id fun b => { b with elements := b.elements ++ [element] })
      (d'.modify id fun b => { b with elements := b.elements ++ [element] })
  close : ∀ {d d'}, R d d' → ∀ id {t edges span span'}, (∀ e ∈ edges, e.isNormal = true) →
    (span = span' ∨ t.isJump = false ∧ S span span') →
    R (d.close id t edges span) (d'.close id t edges span')
  dangle : ∀ {d d'}, R d d' → ∀ id,
    R { d with dangling := d.dangling ++ [id] } { d' with dangling := d'.dangling ++ [id] }
  resolve : ∀ {d d'}, R d d' → ∀ next, R (d.resolveDangling next) (d'.resolveDangling next)
  mark : ∀ {d d'}, R d d' → R d.endCaseGroup d'.endCaseGroup
  resume : ∀ {d d'}, R d d' → ∀ {resumptions}, (∀ p ∈ resumptions, p.2.isNormal = true) →
    R (d.resumeAt resumptions) (d'.resumeAt resumptions)

namespace Draft.Stable

variable {S : Option Span → Option Span → Prop} {R : Draft → Draft → Prop} (hR : Stable S R)
    {d d' : Draft}

include hR

theorem openBlock (h : R d d') : d.openBlock = d'.openBlock := by
  unfold Draft.openBlock
  rw [hR.current h, hR.fresh h]

theorem create (h : R d d') (kind : BlockKind) {span span' : Option Span} (hs : S span span') :
    R (d.create kind span) (d'.create kind span') :=
  hR.add h kind [] hs

theorem createBare (h : R d d') (kind : BlockKind) : R (d.create kind none) (d'.create kind none) :=
  hR.create h kind (hR.refl none)

theorem ensureOpen (h : R d d') : R d.ensureOpen d'.ensureOpen := by
  cases hc : d'.current with
  | some id =>
    rw [ensureOpen_of_some hc, ensureOpen_of_some ((hR.current h).trans hc)]
    exact h
  | none =>
    rw [ensureOpen_of_none hc, ensureOpen_of_none ((hR.current h).trans hc), hR.fresh h]
    exact hR.enter (hR.resolve (hR.createBare h .normal) d'.fresh) (some d'.fresh)

theorem emit (h : R d d') (kind : ElementKind) (span : Span) :
    R (d.emit kind span) (d'.emit kind span) := by
  unfold Draft.emit
  rw [hR.openBlock h]
  exact hR.record (hR.ensureOpen h) _ _

/-- Ending the open block with normal edges keeps a stable relation. -/
theorem terminate (h : R d d') {t : Terminator} {edges : List Edge} {span span' : Option Span}
    (hedges : ∀ e ∈ edges, e.isNormal = true)
    (hs : span = span' ∨ t.isJump = false ∧ S span span') :
    R (d.terminate t edges span) (d'.terminate t edges span') := by
  unfold Draft.terminate
  rw [hR.openBlock h]
  exact hR.close (hR.enter (hR.ensureOpen h) none) _ hedges hs

theorem closeOpen (h : R d d') (t : Terminator) {edges : List Edge}
    (hedges : ∀ e ∈ edges, e.isNormal = true) :
    R (d.closeOpen t edges) (d'.closeOpen t edges) := by
  unfold Draft.closeOpen
  rw [hR.current h]
  cases d'.current with
  | none => exact h
  | some id => exact hR.close (hR.enter h none) id hedges (Or.inl rfl)

theorem start (h : R d d') (id : BlockId) : R (d.start id) (d'.start id) := by
  unfold Draft.start
  rw [hR.current h]
  cases d'.current with
  | none => exact hR.enter h (some id)
  | some left => exact hR.enter (hR.report h _) (some id)

theorem passOn (h : R d d') (t : Terminator) {e : Edge} (he : e.isNormal = true) (next : BlockId) :
    R ((d.closeOpen t [e]).resolveDangling next) ((d'.closeOpen t [e]).resolveDangling next) :=
  hR.resolve (hR.closeOpen h t fun _ hm => List.mem_singleton.mp hm ▸ he) next

theorem fallInto (h : R d d') (next : BlockId) : R (d.fallInto next) (d'.fallInto next) :=
  hR.passOn h _ rfl next

theorem goto (h : R d d') (kind : EdgeKind) (hk : kind ≠ .exceptional) (target : BlockId) :
    R (d.goto kind target) (d'.goto kind target) := by
  refine hR.passOn h _ ?_ target
  rw [Edge.isNormal, Edge.isExceptional, beq_eq_false_iff_ne.mpr hk]
  rfl

theorem turn (h : R d d') (kind : EdgeKind) (hk : kind ≠ .exceptional) (target next : BlockId) :
    R (d.turn kind target next) (d'.turn kind target next) :=
  hR.start (hR.goto h kind hk target) next

theorem continueAt (h : R d d') (next : BlockId) : R (d.continueAt next) (d'.continueAt next) :=
  hR.enter (hR.fallInto h next) (some next)

theorem branch (h : R d d') (onTrue onFalse : BlockId) {span span' : Span}
    (hs : S (some span) (some span')) :
    R (d.branch onTrue onFalse span) (d'.branch onTrue onFalse span') := by
  refine hR.terminate h (fun e he => ?_) (Or.inr ⟨rfl, hs⟩)
  simp only [List.mem_cons, List.not_mem_nil, or_false] at he
  rcases he with rfl | rfl <;> rfl

/-- A jump over normal edges keeps a stable relation. -/
theorem jumpVia (h : R d d') (t : Terminator) {route : JumpRoute} (span : Span)
    (hedge : route.edge.isNormal = true) (hresume : ∀ p ∈ route.resumptions, p.2.isNormal = true) :
    R (d.jumpVia t route span) (d'.jumpVia t route span) := by
  unfold Draft.jumpVia Draft.jump
  rw [hR.openBlock h]
  refine hR.resume (hR.dangle (hR.terminate h (fun e he => ?_) (Or.inl rfl)) _) hresume
  exact List.mem_singleton.mp he ▸ hedge

theorem leaveArrowGroup (h : R d d') (after : BlockId) :
    R (d.leaveArrowGroup after) (d'.leaveArrowGroup after) :=
  hR.passOn h _ rfl after

theorem leaveRegion (h : R d d') (finalizer : Option BlockId) (after : BlockId) :
    R (d.leaveRegion finalizer after) (d'.leaveRegion finalizer after) := by
  cases finalizer with
  | none => exact hR.fallInto h after
  | some entry =>
    unfold Draft.leaveRegion
    dsimp only
    rw [hR.current h]
    cases d'.current with
    | none => exact hR.resolve h after
    | some id =>
      have hclosed :
          R (d.closeOpen .fallThrough [.sequential entry])
            (d'.closeOpen .fallThrough [.sequential entry]) :=
        hR.closeOpen h .fallThrough fun _ hm => List.mem_singleton.mp hm ▸ rfl
      exact hR.resolve (hR.resume hclosed fun _ hm => List.mem_singleton.mp hm ▸ rfl) after

/-! ## Pieces of constructs -/

theorem openHeader (h : R d d') {span span' : Option Span} (hs : S span span') :
    R (d.openHeader span) (d'.openHeader span') := by
  unfold Draft.openHeader
  rw [hR.fresh h]
  exact hR.continueAt (hR.create h .loopHeader hs) _

theorem openBody (h : R d d') (body : Span) {test test' : Span} (hs : S (some test) (some test')) :
    R (d.openBody body test) (d'.openBody body test') := by
  unfold Draft.openBody
  rw [hR.fresh h]
  exact hR.start (hR.branch (hR.createBare (hR.create h .normal (hR.refl _)) .normal) _ _ hs) _

theorem openCond (h : R d d') {cons alt test cons' alt' test' : Span}
    (hc : S (some cons) (some cons')) (ha : S (some alt) (some alt'))
    (ht : S (some test) (some test')) :
    R (d.openCond cons alt test) (d'.openCond cons' alt' test') := by
  unfold Draft.openCond
  rw [hR.fresh h]
  have hmade := hR.createBare (hR.create (hR.create h .normal hc) .normal ha) .join
  exact hR.start (hR.branch hmade _ _ ht) _

theorem openIf (h : R d d') (cons : Stmt) (alt : Option Stmt) {test test' : Span}
    (ht : S (some test) (some test')) : R (d.openIf cons alt test) (d'.openIf cons alt test') := by
  have hmade := hR.createBare (hR.create h .normal (hR.refl (some cons.span))) .join
  unfold Draft.openIf
  rw [hR.fresh h]
  cases alt with
  | none => exact hR.start (hR.branch hmade _ _ ht) _
  | some alt =>
    exact hR.start (hR.branch (hR.create hmade .normal (hR.refl (some alt.span))) _ _ ht) _

theorem openDo (h : R d d') (body : Span) {test test' : Span} (hs : S (some test) (some test')) :
    R (d.openDo body test) (d'.openDo body test') := by
  unfold Draft.openDo
  rw [hR.fresh h]
  have hmade := hR.create (hR.create h .loopHeader (hR.refl (some body))) .condition hs
  exact hR.continueAt (hR.createBare hmade .normal) _

theorem closeDo (h : R d d') (header after : BlockId) {test test' : Span}
    (hs : S (some test) (some test')) :
    R (d.closeDo header after test) (d'.closeDo header after test') :=
  hR.start (hR.branch h _ _ hs) _

theorem makeFor (h : R d d') (updates : Bool) (body : Span) :
    R (d.makeFor updates body) (d'.makeFor updates body) := by
  have hmade := hR.createBare (hR.create h .normal (hR.refl (some body))) .normal
  cases updates with
  | false => exact hmade
  | true => exact hR.createBare hmade .normal

theorem createGroups (h : R d d') (groups : List CaseGroup) :
    R (CaseGroup.createBlocks groups d) (CaseGroup.createBlocks groups d') := by
  unfold CaseGroup.createBlocks
  induction groups generalizing d d' with
  | nil => exact h
  | cons group groups ih => exact ih (hR.create h .caseGroup (hR.refl _))

theorem createClauses (h : R d d') (clauses : List CatchClause) :
    R (CatchClause.createBlocks clauses d) (CatchClause.createBlocks clauses d') := by
  unfold CatchClause.createBlocks
  induction clauses generalizing d d' with
  | nil => exact h
  | cons clause clauses ih =>
    rw [List.foldl_cons, List.foldl_cons, createClause_eq, createClause_eq]
    exact ih (hR.add h _ _ (hR.refl _))

theorem openSwitch (h : R d d') (groups : List CaseGroup) {selector selector' : Span}
    (hs : S (some selector) (some selector')) :
    R (d.openSwitch groups selector) (d'.openSwitch groups selector') := by
  unfold Draft.openSwitch select
  rw [hR.fresh h]
  exact hR.terminate (hR.createGroups (hR.createBare h .normal) groups)
    (fun _ he => Terminator.isNormal_switchEdges he) (Or.inr ⟨rfl, hs⟩)

/-- Making the blocks of a `try` statement keeps a stable relation. -/
theorem makeTry (h : R d d') (catches : List CatchClause) (finalizer : Option Block) :
    R (d.makeTry catches finalizer) (d'.makeTry catches finalizer) := by
  have hmade := hR.createBare h .normal
  unfold Draft.makeTry
  cases finalizer with
  | none => exact hR.createClauses hmade catches
  | some block =>
    exact hR.createClauses (hR.create hmade .finalizer (hR.refl (some block.span))) catches

/-- The blocks of a `try` statement are made and control comes to the first of its `try` block. -/
theorem enterTry (h : R d d') (catches : List CatchClause) (finalizer : Option Block)
    (block : Span) :
    R (((d.makeTry catches finalizer).create .normal (some block)).continueAt
        (firstCatch d.fresh finalizer + catches.length))
      (((d'.makeTry catches finalizer).create .normal (some block)).continueAt
        (firstCatch d'.fresh finalizer + catches.length)) := by
  rw [hR.fresh h]
  exact hR.continueAt (hR.create (hR.makeTry h catches finalizer) .normal (hR.refl _)) _

end Draft.Stable

/-! ## Relations that drawing keeps -/

/-- The relation is kept by drawing with the types `t` in the first draft and `t'` in the second. It
may depend on the scope and on a list of `finally` clauses that have a place to go on at. -/
structure Comparison (t t' : Subtyping) (S : Option Span → Option Span → Prop)
    (R : Scope → List BlockId → Draft → Draft → Prop) : Prop where
  stable : ∀ scope due, Draft.Stable S (R scope due)
  raise : ∀ {scope : Scope} {due d d'}, R scope due d d' → ∀ declared,
    R scope due (d.raise (scope.under t) declared) (d'.raise (scope.under t') declared)
  throw : ∀ {scope : Scope} {due d d'}, R scope due d d' → ∀ thrown span,
    R scope due
      ((d.jump .throwing ((scope.under t).throwRoute thrown).edges span).resumeAt
        ((scope.under t).throwRoute thrown).resumptions)
      ((d'.jump .throwing ((scope.under t').throwRoute thrown).edges span).resumeAt
        ((scope.under t').throwRoute thrown).resumptions)
  inside : ∀ {scope : Scope} {due d d'} labels kind after,
    R (scope.inside labels kind after) due d d' ↔ R scope due d d'
  guard : ∀ {scope : Scope} {due d d'}, R scope due d d' → ∀ catches finalizer block,
    R (scope.guarded (Draft.handlerAt d.fresh catches finalizer)) due
      (d.openTry t catches finalizer block) (d'.openTry t' catches finalizer block)
  clause : ∀ {scope : Scope} {due d d'} {handler : Handler}, R (scope.guarded handler) due d d' →
    R (scope.guarded ⟨[], handler.finalizer⟩) due d d'
  leave : ∀ {scope : Scope} {due d d'} {handler : Handler}, R (scope.guarded handler) due d d' →
    R scope due d d'
  await : ∀ {scope : Scope} {due d d'} {entry : BlockId}, R scope due d d' → d.HasResumption entry →
    d'.HasResumption entry →
    R scope (entry :: due) d d'
  final : ∀ {scope : Scope} {due d d'} {entry : BlockId}, R scope (entry :: due) d d' → ∀ after,
    R scope due (d.leaveFinalizer entry after) (d'.leaveFinalizer entry after)

section Expressions

variable {t t' : Subtyping} {S : Option Span → Option Span → Prop}
  {R : Scope → List BlockId → Draft → Draft → Prop} (hR : Comparison t t' S R)
  {scope : Scope} {due : List BlockId} {d d' : Draft}

theorem Expr.compared_option {e : Option Expr} {f : Expr → Expr}
    (ih : ∀ e', e = some e' → ∀ {d d' : Draft}, R scope due d d' →
      R scope due (e'.draw (scope.under t) d) ((f e').draw (scope.under t') d'))
        (h : R scope due d d') :
    R scope due (Expr.drawOption (scope.under t) e d)
      (Expr.drawOption (scope.under t') (e.map f) d') := by
  cases e with
  | none => simpa only [Expr.drawOption, Option.map_none] using h
  | some e => simpa only [Expr.drawOption, Option.map_some] using ih e rfl h

/-- Lists of expressions are compared one expression at a time. -/
theorem Expr.compared_all {es : List Expr} {f : Expr → Expr}
    (ih : ∀ e' ∈ es, ∀ {d d' : Draft}, R scope due d d' →
      R scope due (e'.draw (scope.under t) d) ((f e').draw (scope.under t') d'))
        (h : R scope due d d') :
    R scope due (Expr.drawAll (scope.under t) es d)
      (Expr.drawAll (scope.under t') (es.map f) d') := by
  induction es generalizing d d' with
  | nil => simpa only [Expr.drawAll, List.map_nil] using h
  | cons e es ihs =>
    rw [List.map_cons, Expr.drawAll, Expr.drawAll]
    exact ihs (fun e' he => ih e' (List.mem_cons_of_mem _ he)) (ih e List.mem_cons_self h)

include hR

/-- An element and what it may throw are compared as one. -/
theorem Comparison.emit_raise (h : R scope due d d') (kind : ElementKind) (span : Span)
    (declared : List TypeName) :
    R scope due ((d.emit kind span).raise (scope.under t) declared)
      ((d'.emit kind span).raise (scope.under t') declared) :=
  hR.raise ((hR.stable _ _).emit h kind span) declared

/-- An operator that may raise an exception, or not. -/
theorem Comparison.operator (h : R scope due d d') (kind : ElementKind) (span : Span)
    (mayThrow : Bool) :
    R scope due (if mayThrow then (d.emit kind span).raise (scope.under t) [] else d.emit kind span)
      (if mayThrow then (d'.emit kind span).raise (scope.under t') [] else d'.emit kind span) := by
  cases mayThrow with
  | false => exact (hR.stable _ _).emit h kind span
  | true => exact hR.emit_raise h kind span []

/-- A conditional operator whose parts may have been rewritten. -/
theorem Comparison.cond {test cons alt test' cons' alt' : Expr} {span span' : Span}
    (ht : S (some test.span) (some test'.span)) (hc : S (some cons.span) (some cons'.span))
    (ha : S (some alt.span) (some alt'.span))
    (iht : ∀ {d d' : Draft}, R scope due d d' →
      R scope due (test.draw (scope.under t) d) (test'.draw (scope.under t') d'))
    (ihc : ∀ {d d' : Draft}, R scope due d d' →
      R scope due (cons.draw (scope.under t) d) (cons'.draw (scope.under t') d'))
    (iha : ∀ {d d' : Draft}, R scope due d d' →
      R scope due (alt.draw (scope.under t) d) (alt'.draw (scope.under t') d'))
        (h : R scope due d d') :
    R scope due ((Expr.cond test cons alt span).draw (scope.under t) d)
      ((Expr.cond test' cons' alt' span').draw (scope.under t') d') := by
  have hs := hR.stable scope due
  have htest := iht h
  rw [Expr.draw_cond, Expr.draw_cond]
  dsimp only
  rw [hs.fresh htest]
  have hcons := ihc (hs.openCond htest hc ha ht)
  exact hs.continueAt (iha (hs.start (hs.fallInto hcons _) _)) _

/-- Drawing an expression in both drafts keeps the relation. -/
theorem Expr.compared (e : Expr) (h : R scope due d d') :
    R scope due (e.draw (scope.under t) d) (e.draw (scope.under t') d') := by
  have hs := hR.stable scope due
  -- The lemmas about arguments are for a rewriting; here the expressions stay as they are.
  have all : ∀ {es : List Expr} {d d' : Draft}, (∀ e' ∈ es, ∀ {d d' : Draft}, R scope due d d' →
      R scope due (e'.draw (scope.under t) d) (e'.draw (scope.under t') d')) → R scope due d d' →
      R scope due (Expr.drawAll (scope.under t) es d) (Expr.drawAll (scope.under t') es d') := by
    intro es d d' ih h
    simpa only [List.map_id'] using Expr.compared_all ih h
  induction e using Expr.induct generalizing d d' with
  | name ident span | this span | literal value span | lambda span =>
    rw [Expr.draw, Expr.draw]
    exact hs.emit h _ _
  | binary op left right span ihl ihr =>
    rw [Expr.draw, Expr.draw]
    exact hR.operator (ihr (ihl h)) _ span op.mayThrow
  | unary op arg span ih =>
    rw [Expr.draw, Expr.draw]
    exact hs.emit (ih h) _ _
  | assign op target value span iht ihv =>
    rw [Expr.draw, Expr.draw]
    refine hR.operator (ihv ?_) _ span op.mayThrow
    split
    · exact h
    · exact iht h
  | cond test cons alt span iht ihc iha =>
    exact hR.cond (hs.refl _) (hs.refl _) (hs.refl _) iht ihc iha h
  | call receiver method args throws span ihr iha =>
    rw [Expr.draw, Expr.draw]
    refine hR.emit_raise (all iha ?_) _ _ throws
    simpa only [Option.map_id'] using Expr.compared_option ihr h
  | new cls args throws span iha =>
    rw [Expr.draw, Expr.draw]
    exact hR.emit_raise (all iha h) _ _ throws
  | newArray elem dims init span ihd ihi =>
    rw [Expr.draw, Expr.draw]
    exact hR.emit_raise (all ihi (all ihd h)) _ _ []
  | member object field span ih | cast ty inner span ih =>
    rw [Expr.draw, Expr.draw]
    exact hR.emit_raise (ih h) _ _ []
  | index array offset span iha iho =>
    rw [Expr.draw, Expr.draw]
    exact hR.emit_raise (iho (iha h)) _ _ []
  | instanceOf inner ty span ih =>
    rw [Expr.draw, Expr.draw]
    exact hs.emit (ih h) _ _
  | paren inner span ih =>
    rw [Expr.draw, Expr.draw]
    exact ih h

end Expressions

/-! ## Statements -/

/-- Rewriting expressions by `f` in the second drawing goes with the relation. -/
structure Comparison.Covers (t t' : Subtyping) (S : Option Span → Option Span → Prop)
    (R : Scope → List BlockId → Draft → Draft → Prop) (f : Expr → Expr) : Prop where
  span : ∀ e : Expr, S (some e.span) (some (f e).span)
  newClass? : ∀ e, (f e).newClass? = e.newClass?
  draw : ∀ {scope : Scope} {due d d'} (e : Expr), R scope due d d' →
    R scope due (e.draw (scope.under t) d) ((f e).draw (scope.under t') d')

/-- Leaving every expression alone is a rewriting that a comparison covers. -/
theorem Comparison.covers_id {t t' : Subtyping} {S : Option Span → Option Span → Prop}
    {R : Scope → List BlockId → Draft → Draft → Prop} (hR : Comparison t t' S R) :
      Covers t t' S R id where
  span _ := (hR.stable ⟨t, [], []⟩ []).refl _
  newClass? _ := rfl
  draw e := e.compared hR

/-- Drawing the statement in both drafts keeps the relation. -/
def Stmt.Compares (t t' : Subtyping) (f : Expr → Expr)
    (R : Scope → List BlockId → Draft → Draft → Prop) (s : Stmt) : Prop :=
  ∀ {scope : Scope} {due : List BlockId} {labels : List String} {d d' d₁ d₁' : Draft}, scope.Level →
    R scope due d d' → s.draw (scope.under t) labels d = .ok d₁ →
    (s.mapExpr f).draw (scope.under t') labels d' = .ok d₁' → R scope due d₁ d₁'

section Statements

variable {t t' : Subtyping} {S : Option Span → Option Span → Prop}
  {R : Scope → List BlockId → Draft → Draft → Prop} {f : Expr → Expr} (hR : Comparison t t' S R)
  (hf : Comparison.Covers t t' S R f)
  {scope : Scope} {due : List BlockId} {d d' d₁ d₁' : Draft}

include hR hf in
theorem LocalVar.compared (decl : LocalVar) (h : R scope due d d') :
    R scope due (decl.draw (scope.under t) d) ((decl.mapExpr f).draw (scope.under t') d') :=
  (hR.stable _ _).emit (Expr.compared_option (fun e _ => hf.draw e) h) _ _

include hR hf in
theorem LocalVar.compared_resources (decls : List LocalVar) (h : R scope due d d') :
    R scope due (LocalVar.drawResources (scope.under t) decls d)
      (LocalVar.drawResources (scope.under t') (decls.map (·.mapExpr f)) d') := by
  induction decls generalizing d d' with
  | nil => exact h
  | cons decl decls ih => exact ih (hR.raise (decl.compared hR hf h) [Throwable.exception])

/-- Lists of statements are compared one statement at a time. -/
theorem Stmt.compared_all {stmts : List Stmt} (ih : ∀ s ∈ stmts, s.Compares t t' f R)
    (hscope : scope.Level) (hd : R scope due d d')
    (h : Stmt.drawAll stmts (scope.under t) d = .ok d₁)
    (h' : Stmt.drawAll (stmts.map (·.mapExpr f)) (scope.under t') d' = .ok d₁') :
      R scope due d₁ d₁' := by
  induction stmts generalizing d d' with
  | nil =>
    rw [Stmt.drawAll] at h
    rw [List.map_nil, Stmt.drawAll] at h'
    cases h
    cases h'
    exact hd
  | cons s stmts ihs =>
    rw [Stmt.drawAll] at h
    rw [List.map_cons, Stmt.drawAll] at h'
    obtain ⟨e, e', he, he', h, h'⟩ := Except.of_bind_ok₂ h h'
    exact ihs (fun s hs => ih s (List.mem_cons_of_mem _ hs))
      (ih s List.mem_cons_self hscope hd he he') h h'

include hR in
theorem Stmt.compared_else {alt : Option Stmt} (ih : ∀ s, alt = some s → s.Compares t t' f R)
    (hscope : scope.Level) {join : BlockId} (hd : R scope due d d')
    (h : Stmt.drawElse alt (scope.under t) join d = .ok d₁)
    (h' : Stmt.drawElse (alt.map (·.mapExpr f)) (scope.under t') join d' = .ok d₁') :
      R scope due d₁ d₁' := by
  have hs := hR.stable scope due
  cases alt with
  | none =>
    rw [Stmt.drawElse] at h
    rw [Option.map_none, Stmt.drawElse] at h'
    cases h
    cases h'
    exact hd
  | some alt =>
    rw [Stmt.drawElse] at h
    rw [Option.map_some, Stmt.drawElse] at h'
    exact ih alt rfl hscope (hs.start (hs.goto hd .sequential (by decide) join) _) h h'

include hR in
/-- Case groups are compared one group at a time, each in its own block. -/
theorem CaseGroup.compared_all {groups : List CaseGroup}
    (ih : ∀ group ∈ groups, ∀ s ∈ group.body, s.Compares t t' f R) (hscope : scope.Level)
    {block after : BlockId} (hd : R scope due d d')
    (h : CaseGroup.drawAll groups (scope.under t) block after d = .ok d₁)
    (h' : CaseGroup.drawAll (groups.map (·.mapExpr f)) (scope.under t') block after d' = .ok d₁') :
    R scope due d₁ d₁' := by
  have hs := hR.stable scope due
  induction groups generalizing d d' block with
  | nil =>
    rw [CaseGroup.drawAll] at h
    rw [List.map_nil, CaseGroup.drawAll] at h'
    cases h
    cases h'
    exact hd
  | cons group groups ihs =>
    rw [CaseGroup.drawAll_cons] at h
    rw [List.map_cons, CaseGroup.drawAll_cons] at h'
    obtain ⟨e, e', he, he', h, h'⟩ := Except.of_bind_ok₂ h h'
    have hbody :=
      Stmt.compared_all (ih group List.mem_cons_self) hscope (hs.continueAt hd block) he he'
    refine ihs (fun g hg => ih g (List.mem_cons_of_mem _ hg)) ?_ h h'
    have harrow : (group.mapExpr f).arrow = group.arrow := rfl
    rw [harrow]
    split
    · exact hs.leaveArrowGroup hbody after
    · exact hs.mark hbody

include hR in
/-- Catch clauses are compared one clause at a time, each in its own block. -/
theorem CatchClause.compared_all {clauses : List CatchClause}
    (ih : ∀ clause ∈ clauses, ∀ s ∈ clause.body.stmts, s.Compares t t' f R) (hscope : scope.Level)
    (finalizer : Option BlockId) {entry after : BlockId} (hd : R scope due d d')
    (h : CatchClause.drawAll clauses (scope.under t) finalizer entry after d = .ok d₁)
    (h' : CatchClause.drawAll (clauses.map (·.mapExpr f)) (scope.under t') finalizer entry after
      d' = .ok d₁') :
    R scope due d₁ d₁' := by
  have hs := hR.stable scope due
  induction clauses generalizing d d' entry with
  | nil =>
    rw [CatchClause.drawAll] at h
    rw [List.map_nil, CatchClause.drawAll] at h'
    cases h
    cases h'
    exact hd
  | cons clause clauses ihs =>
    rw [CatchClause.drawAll_cons] at h
    rw [List.map_cons, CatchClause.drawAll_cons] at h'
    obtain ⟨e, e', he, he', h, h'⟩ := Except.of_bind_ok₂ h h'
    have hbody := Stmt.compared_all (ih clause List.mem_cons_self) hscope (hs.start hd entry) he he'
    exact ihs (fun c hc => ih c (List.mem_cons_of_mem _ hc))
      (hs.leaveRegion hbody finalizer after) h h'

include hR in
/-- When its protected code has been drawn, a `finally` clause has a place to go on at in both
drafts. -/
theorem CatchClause.compared_due {clauses : List CatchClause}
    (ih : ∀ clause ∈ clauses, ∀ s ∈ clause.body.stmts, s.Compares t t' f R) (hscope : scope.Level)
    {final entry after : BlockId} (hd : R (scope.guarded ⟨[], some final⟩) due d d')
    (hlast : clauses = [] → d.HasResumption final ∧ d'.HasResumption final)
    (h : CatchClause.drawAll clauses ((scope.guarded ⟨[], some final⟩).under t) (some final)
      entry after d =
      .ok d₁)
    (h' : CatchClause.drawAll (clauses.map (·.mapExpr f))
      ((scope.guarded ⟨[], some final⟩).under t') (some final) entry after d' = .ok d₁') :
    R (scope.guarded ⟨[], some final⟩) (final :: due) d₁ d₁' := by
  have hs := hR.stable (scope.guarded ⟨[], some final⟩) due
  cases clauses with
  | nil =>
    rw [CatchClause.drawAll] at h
    rw [List.map_nil, CatchClause.drawAll] at h'
    cases h
    cases h'
    exact hR.await hd (hlast rfl).1 (hlast rfl).2
  | cons clause clauses =>
    rw [CatchClause.drawAll_cons] at h
    rw [List.map_cons, CatchClause.drawAll_cons] at h'
    obtain ⟨e, e', he, he', h, h'⟩ := Except.of_bind_ok₂ h h'
    have hbody :=
      Stmt.compared_all (ih clause List.mem_cons_self) (hscope.guarded _) (hs.start hd entry) he he'
    -- The first clause settles it; from here on it is part of the relation.
    have hdue := hR.await (hs.leaveRegion hbody (some final) after)
      (Stmt.hasResumption_all after (show (scope.under t).Level from hscope) he
        (Draft.current_start _ _))
      (Stmt.hasResumption_all after (show (scope.under t').Level from hscope) he'
        (Draft.current_start _ _))
    exact CatchClause.compared_all hR (fun c hc => ih c (List.mem_cons_of_mem _ hc))
      (hscope.guarded _) _ hdue h h'

include hR in
/-- The body of a loop or of a labeled statement. -/
theorem Stmt.Compares.body {body : Stmt} (ih : body.Compares t t' f R) (hscope : scope.Level)
    (hd : R scope due d d') {labels : List String} {kind : TargetKind} {after : BlockId}
    (h : body.draw ((scope.under t).inside labels kind after) [] d = .ok d₁)
    (h' : (body.mapExpr f).draw ((scope.under t').inside labels kind after) [] d' = .ok d₁') :
      R scope due d₁ d₁' :=
  (hR.inside labels kind after).mp
    (ih (hscope.inside labels kind after) ((hR.inside labels kind after).mpr hd) h h')

include hR hf in
theorem Comparison.testFor (h : R scope due d d') (test : Option Expr) (inner after : BlockId) :
    R scope due (d.testFor (scope.under t) test inner after)
      (d'.testFor (scope.under t') (test.map f) inner after) := by
  have hs := hR.stable scope due
  unfold Draft.testFor
  cases test with
  | some test => exact hs.start (hs.branch (hf.draw test h) _ _ (hf.span test)) _
  | none =>
    refine hs.start (hs.terminate h (fun e he => ?_) (Or.inl rfl)) _
    exact List.mem_singleton.mp he ▸ rfl

include hR hf in
theorem Comparison.updateFor (h : R scope due d d') (update : List Expr) (next : BlockId) :
    R scope due (d.updateFor (scope.under t) update next)
      (d'.updateFor (scope.under t') (update.map f) next) := by
  unfold Draft.updateFor
  rw [List.isEmpty_map]
  split
  · exact h
  · exact Expr.compared_all (fun e _ => hf.draw e) ((hR.stable _ _).turn h .loopBack nofun _ _)

theorem Draft.current_openTry (d : Draft) (types : Subtyping) (catches : List CatchClause)
    (finalizer : Option Block) (block : Span) :
    (d.openTry types catches finalizer block).current =
      some (Draft.firstCatch d.fresh finalizer + catches.length) :=
  rfl

/-- Resources leave a block open. -/
theorem LocalVar.exists_current_resources (scope : Scope) (decls : List LocalVar) {d : Draft}
    {id : BlockId} (h : d.current = some id) :
      ∃ id', (LocalVar.drawResources scope decls d).current = some id' := by
  induction decls generalizing d id with
  | nil => exact ⟨id, h⟩
  | cons decl decls ih => exact ih (Draft.current_emit _ (.declaration decl.name) decl.span)

include hR hf in
/-- A `try` statement is compared part by part: block, clauses, then `finally` clause. -/
theorem Stmt.compared_try {resources : List LocalVar} {block : Block} {catches : List CatchClause}
    {finalizer : Option Block} {span : Span} (ihb : ∀ s ∈ block.stmts, s.Compares t t' f R)
    (ihc : ∀ clause ∈ catches, ∀ s ∈ clause.body.stmts, s.Compares t t' f R)
    (ihf : ∀ final, finalizer = some final → ∀ s ∈ final.stmts, s.Compares t t' f R) :
    (Stmt.tryStmt resources block catches finalizer span).Compares t t' f R := by
  intro scope due labels d d' d₁ d₁' hscope hd h h'
  have hs := hR.stable scope due
  obtain ⟨stmts, blockSpan⟩ := block
  rw [Stmt.draw_try] at h
  rw [Stmt.mapExpr_try, Block.mapExpr, Stmt.draw_try] at h'
  have hheads := CatchClause.keepsHead_mapExpr f
  have hspan : ∀ block : Block, (block.mapExpr f).span = block.span := fun _ => rfl
  simp only [hheads.handlerAt, hheads.openTry _ hspan, Draft.firstCatch_map, ← hs.fresh hd] at h'
  obtain ⟨e₁, e₁', he₁, he₁', h, h'⟩ := Except.of_bind_ok₂ h h'
  obtain ⟨e₂, e₂', he₂, he₂', h, h'⟩ := Except.of_bind_ok₂ h h'
  obtain ⟨e₃, e₃', he₃, he₃', h, h'⟩ := Except.of_bind_ok₂ h h'
  cases h
  cases h'
  refine hs.continueAt ?_ _
  have hopen := hR.guard hd catches finalizer blockSpan
  have hblock := Stmt.compared_all ihb (hscope.guarded _)
    (LocalVar.compared_resources hR hf resources hopen) he₁ he₁'
  have hleft := hR.clause ((hR.stable _ _).leaveRegion hblock
    (Draft.handlerAt d.fresh catches finalizer).finalizer d.fresh)
  cases finalizer with
  | none =>
    have hclauses :=
      hR.leave (CatchClause.compared_all hR ihc (hscope.guarded _) none hleft he₂ he₂')
    rw [Block.drawFinalizer] at he₃
    rw [Option.map_none, Block.drawFinalizer] at he₃'
    cases he₃
    cases he₃'
    exact hclauses
  | some final =>
    have hlast : catches = [] →
      (e₁.leaveRegion (some (d.fresh + 1)) d.fresh).HasResumption (d.fresh + 1) ∧
        (e₁'.leaveRegion (some (d.fresh + 1)) d.fresh).HasResumption (d.fresh + 1) := by
      rintro rfl
      -- Without catch clauses the `try` block is the last code that the clause protects.
      obtain ⟨id, hid⟩ := LocalVar.exists_current_resources _ resources
        (d.current_openTry t [] (some final) blockSpan)
      obtain ⟨id', hid'⟩ := LocalVar.exists_current_resources _ (resources.map (·.mapExpr f))
        (d'.current_openTry t' [] (some final) blockSpan)
      exact ⟨Stmt.hasResumption_all _ (show (scope.under t).Level from hscope) he₁ hid,
        Stmt.hasResumption_all _ (show (scope.under t').Level from hscope) he₁' hid'⟩
    have hclauses := hR.leave (CatchClause.compared_due hR ihc hscope hleft hlast he₂ he₂')
    rw [Block.drawFinalizer_some] at he₃
    rw [Option.map_some, Block.drawFinalizer_some] at he₃'
    obtain ⟨e₄, e₄', he₄, he₄', he₃, he₃'⟩ := Except.of_bind_ok₂ he₃ he₃'
    cases he₃
    cases he₃'
    exact hR.final
      (Stmt.compared_all (ihf final rfl) hscope ((hR.stable _ _).start hclauses _) he₄ he₄') _

include hR hf in
/-- Drawing a statement and its rewriting keeps the relation. -/
theorem Stmt.compares (s : Stmt) : s.Compares t t' f R := by
  -- Both drawings take the same path; what was fresh agrees, so the blocks have the same names.
  induction s using Stmt.induct with
  | block b ih =>
    intro scope due labels d d' d₁ d₁' hscope hd h h'
    cases b
    rw [Stmt.draw] at h
    rw [Stmt.mapExpr_block, Block.mapExpr, Stmt.draw] at h'
    exact Stmt.compared_all ih hscope hd h h'
  | expr e span =>
    intro scope due labels d d' d₁ d₁' hscope hd h h'
    rw [Stmt.draw] at h
    rw [Stmt.mapExpr, Stmt.draw] at h'
    cases h
    cases h'
    exact hf.draw e hd
  | localVar decl =>
    intro scope due labels d d' d₁ d₁' hscope hd h h'
    rw [Stmt.draw] at h
    rw [Stmt.mapExpr, Stmt.draw] at h'
    cases h
    cases h'
    exact decl.compared hR hf hd
  | ifStmt test cons alt span ihc iha =>
    intro scope due labels d d' d₁ d₁' hscope hd h h'
    have hs := hR.stable scope due
    have ht := hf.draw test hd
    rw [Stmt.draw_if] at h
    rw [Stmt.mapExpr_if, Stmt.draw_if] at h'
    simp only [Draft.openIf_map (Stmt.span_mapExpr f), ← hs.fresh ht] at h'
    obtain ⟨e₁, e₁', he₁, he₁', h, h'⟩ := Except.of_bind_ok₂ h h'
    obtain ⟨e₂, e₂', he₂, he₂', h, h'⟩ := Except.of_bind_ok₂ h h'
    cases h
    cases h'
    have hc := ihc hscope (hs.openIf ht cons alt (hf.span test)) he₁ he₁'
    exact hs.continueAt (Stmt.compared_else hR iha hscope hc he₂ he₂') _
  | whileStmt test body span ih =>
    intro scope due labels d d' d₁ d₁' hscope hd h h'
    have hs := hR.stable scope due
    have ht := hf.draw test (hs.openHeader hd (hf.span test))
    rw [Stmt.draw_while] at h
    rw [Stmt.mapExpr, Stmt.draw_while, Stmt.span_mapExpr] at h'
    simp only [← hs.fresh ht, ← hs.fresh hd] at h'
    obtain ⟨e, e', he, he', h, h'⟩ := Except.of_bind_ok₂ h h'
    cases h
    cases h'
    have hbody := ih.body hR hscope (hs.openBody ht body.span (hf.span test)) he he'
    exact hs.turn hbody .loopBack (by decide) _ _
  | doWhile body test span ih =>
    intro scope due labels d d' d₁ d₁' hscope hd h h'
    have hs := hR.stable scope due
    rw [Stmt.draw_doWhile] at h
    rw [Stmt.mapExpr, Stmt.draw_doWhile, Stmt.span_mapExpr] at h'
    simp only [← hs.fresh hd] at h'
    obtain ⟨e, e', he, he', h, h'⟩ := Except.of_bind_ok₂ h h'
    cases h
    cases h'
    have hbody := ih.body hR hscope (hs.openDo hd body.span (hf.span test)) he he'
    exact hs.closeDo (hf.draw test (hs.continueAt hbody _)) _ _ (hf.span test)
  | forStmt init test update body span ihi ih =>
    intro scope due labels d d' d₁ d₁' hscope hd h h'
    have hs := hR.stable scope due
    rw [Stmt.draw_for] at h
    rw [Stmt.mapExpr_for, Stmt.draw_for, Stmt.span_mapExpr, List.isEmpty_map] at h'
    obtain ⟨e₀, e₀', he₀, he₀', h, h'⟩ := Except.of_bind_ok₂ h h'
    have hi := Stmt.compared_all ihi hscope hd he₀ he₀'
    simp only [← hs.fresh hi] at h'
    obtain ⟨e, e', he, he', h, h'⟩ := Except.of_bind_ok₂ h h'
    cases h
    cases h'
    have hspan : S (some (test.elim span (·.span))) (some ((test.map f).elim span (·.span))) := by
      cases test with
      | none => exact hs.refl _
      | some test => exact hf.span test
    have hmade := hs.makeFor (hs.openHeader hi hspan) (!update.isEmpty) body.span
    have hbody := ih.body hR hscope (hR.testFor hf hmade test (e₀.fresh + 1) (e₀.fresh + 2)) he he'
    exact hs.turn (hR.updateFor hf hbody update _) .loopBack (by decide) _ _
  | forEach var iterable body span ih =>
    intro scope due labels d d' d₁ d₁' hscope hd h h'
    have hs := hR.stable scope due
    have hi := hf.draw iterable hd
    rw [Stmt.draw_forEach] at h
    rw [Stmt.mapExpr, Stmt.draw_forEach, Stmt.span_mapExpr] at h'
    simp only [← hs.fresh hi] at h'
    obtain ⟨e, e', he, he', h, h'⟩ := Except.of_bind_ok₂ h h'
    cases h
    cases h'
    have hhead := hs.openBody (hs.openHeader hi (hs.refl (some span))) body.span (hf.span iterable)
    have hbody := ih.body hR hscope (hs.emit hhead (.declaration var) span) he he'
    exact hs.turn hbody .loopBack (by decide) _ _
  | switch selector groups span ih =>
    intro scope due labels d d' d₁ d₁' hscope hd h h'
    have hs := hR.stable scope due
    have hsel := hf.draw selector hd
    rw [Stmt.draw_switch] at h
    rw [Stmt.mapExpr_switch, Stmt.draw_switch] at h'
    -- The heads of the groups survive the rewriting, so the switch opens alike.
    simp only [(CaseGroup.keepsHead_mapExpr f).openSwitch, ← hs.fresh hsel] at h'
    obtain ⟨e, e', he, he', h, h'⟩ := Except.of_bind_ok₂ h h'
    cases h
    cases h'
    have hopen := (hR.inside labels .switch (selector.draw (scope.under t) d).fresh).mpr
      (hs.openSwitch hsel groups (hf.span selector))
    have hgroups := CaseGroup.compared_all hR ih (hscope.inside labels _ _) hopen he he'
    exact hs.continueAt ((hR.inside ..).mp hgroups) _
  | tryStmt resources block catches finalizer span ihb ihc ihf =>
    exact Stmt.compared_try hR hf ihb ihc ihf
  | labeled label body span ih =>
    intro scope due labels d d' d₁ d₁' hscope hd h h'
    have hs := hR.stable scope due
    rw [Stmt.draw_labeled] at h
    rw [Stmt.mapExpr, Stmt.draw_labeled, Stmt.carriesLabels_mapExpr] at h'
    have hsame : (scope.under t').hasLabel label = (scope.under t).hasLabel label := rfl
    rw [hsame] at h'
    split at h
    · cases h
    rename_i hnew
    rw [if_neg hnew] at h'
    split at h
    · rename_i hc
      rw [if_pos hc] at h'
      exact ih hscope hd h h'
    · rename_i hc
      rw [if_neg hc] at h'
      rw [← hs.fresh hd] at h'
      obtain ⟨e, e', he, he', h, h'⟩ := Except.of_bind_ok₂ h h'
      cases h
      cases h'
      exact hs.continueAt (ih.body hR hscope (hs.createBare hd .normal) he he') _
  | breakStmt label span | continueStmt label span =>
    intro scope due labels d d' d₁ d₁' hscope hd h h'
    rw [Stmt.draw] at h
    rw [Stmt.mapExpr, Stmt.draw] at h'
    obtain ⟨target, target', ht, ht', h, h'⟩ := Except.of_bind_ok₂ h h'
    cases Except.ok.inj (ht.symm.trans ht')
    cases h
    cases h'
    exact (hR.stable _ _).jumpVia hd _ span (JumpRoute.isNormal_edge rfl _)
      (JumpRoute.isNormal_resumptions rfl _)
  | returnStmt arg span =>
    intro scope due labels d d' d₁ d₁' hscope hd h h'
    rw [Stmt.draw] at h
    rw [Stmt.mapExpr, Stmt.draw, Option.isSome_map] at h'
    cases h
    cases h'
    exact (hR.stable _ _).jumpVia (Expr.compared_option (fun e _ => hf.draw e) hd) _ span
      (JumpRoute.isNormal_edge rfl _) (JumpRoute.isNormal_resumptions rfl _)
  | throwStmt arg span =>
    intro scope due labels d d' d₁ d₁' hscope hd h h'
    rw [Stmt.draw] at h
    rw [Stmt.mapExpr, Stmt.draw, hf.newClass?] at h'
    cases h
    cases h'
    exact hR.throw (hf.draw arg hd) _ span
  | synchronized lock body span ih =>
    intro scope due labels d d' d₁ d₁' hscope hd h h'
    cases body
    rw [Stmt.draw] at h
    rw [Stmt.mapExpr_synchronized, Block.mapExpr, Stmt.draw] at h'
    exact Stmt.compared_all ih hscope ((hR.stable _ _).emit (hf.draw lock hd) _ _) h h'
  | assertStmt test message span | empty span =>
    intro scope due labels d d' d₁ d₁' hscope hd h h'
    rw [Stmt.draw] at h
    rw [Stmt.mapExpr, Stmt.draw] at h'
    cases h
    cases h'
    exact hd
  | localClass ident span =>
    intro scope due labels d d' d₁ d₁' hscope hd h h'
    rw [Stmt.draw] at h
    rw [Stmt.mapExpr, Stmt.draw] at h'
    cases h
    cases h'
    exact (hR.stable _ _).emit hd _ _
  | missing span =>
    intro scope due labels d d' d₁ d₁' hscope hd h h'
    rw [Stmt.draw] at h
    cases h

include hR hf in
/-- The drafts of a body and of its rewriting are related at the end if they are at the start. -/
theorem Graph.draft_compared {body : Block}
    (h₀ : ∀ types, R { types } [] (Draft.begun body.span) (Draft.begun body.span))
    (h : Graph.draft t body = .ok d) (h' : Graph.draft t' (body.mapExpr f) = .ok d') :
    R { types := t } [] d d' := by
  obtain ⟨e, e', he, he', h, h'⟩ := Except.of_bind_ok₂ h h'
  cases h
  cases h'
  have hlevel : ({ types := t } : Scope).Level := nofun
  exact (hR.stable _ _).fallInto
    (Stmt.compared_all (fun s _ => s.compares hR hf) hlevel (h₀ t) he he') _

end Statements

end MethodFlow
