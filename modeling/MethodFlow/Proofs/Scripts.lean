import MethodFlow.Proofs.Bookkeeping
import MethodFlow.Proofs.Induction

/-!
# Drawing, change by change

A draft is drawn by many small changes. `Draft.Change` lists them: a block is made or modified,
another block is the open one, a block is closed, a jump starts to wait or is told what follows it.
A `Script` says which changes are made to a draft, in order, and whether what is drawn fails; it may
look at the draft that the changes so far have led to.

`Stmt.script` and `Graph.script` take the drawing of statements and of bodies apart into single
changes. Running them is drawing (`Stmt.run_script`, `Graph.run_script`). So the drafts that the
script of a body passes through are all the states of its drawing, up to the first jump or label
that does not resolve if there is one.
-/

namespace MethodFlow

namespace Draft

/-- A single change of a draft. -/
inductive Change where
  | create (kind : BlockKind) (span : Option Span)
  | modify (id : BlockId) (f : BasicBlock → BasicBlock)
  /-- The given block is the open one from now on, or none is. -/
  | enter (block : Option BlockId)
  | close (id : BlockId) (terminator : Terminator) (edges : List Edge) (span : Option Span)
  | dangle (id : BlockId)
  | resolve (next : BlockId)
  | mark
  | resume (resumptions : List (BlockId × Edge))
  | report (fault : Fault)

/-- The draft after a change. -/
def Change.apply : Change → Draft → Draft
  | create kind span, d => d.create kind span
  | modify id f, d => d.modify id f
  | enter block, d => { d with current := block }
  | close id terminator edges span, d => d.close id terminator edges span
  | dangle id, d => { d with dangling := d.dangling ++ [id] }
  | resolve next, d => d.resolveDangling next
  | mark, d => d.endCaseGroup
  | resume resumptions, d => d.resumeAt resumptions
  | report fault, d => d.report fault

/-- The draft after several changes. -/
def after (d : Draft) (changes : List Change) : Draft := changes.foldl (fun d c => c.apply d) d

/-- The drafts that changes lead through, the first and the last included. -/
def stages : Draft → List Change → List Draft
  | d, [] => [d]
  | d, c :: changes => d :: stages (c.apply d) changes

theorem after_append (d : Draft) (changes more : List Change) :
    d.after (changes ++ more) = (d.after changes).after more :=
  List.foldl_append

theorem mem_stages_append {d d' : Draft} {changes more : List Change} :
    d' ∈ d.stages (changes ++ more) ↔ d' ∈ d.stages changes ∨
      d' ∈ (d.after changes).stages more := by
  induction changes generalizing d with
  | nil =>
    -- The draft where the two lists meet is a stage of both.
    have hfirst : d ∈ d.stages more := by cases more <;> exact List.mem_cons_self
    simp only [List.nil_append, stages, after, List.foldl_nil, List.mem_singleton]
    exact ⟨Or.inr, fun h => h.elim (fun h => h ▸ hfirst) id⟩
  | cons c changes ih =>
    rw [List.cons_append, stages, stages, List.mem_cons, List.mem_cons, ih, or_assoc]
    rfl

end Draft

/-- What is done to a draft, change by change, and what comes of it. -/
def Script (α : Type) : Type := Draft → List Draft.Change × Except BuildFailure α

namespace Script

variable {α β : Type}

def changes (s : Script α) (d : Draft) : List Draft.Change := (s d).1

def outcome (s : Script α) (d : Draft) : Except BuildFailure α := (s d).2

/-- The draft that a script leads to. -/
def final (s : Script α) (d : Draft) : Draft := d.after (s.changes d)

/-- The drafts that a script leads through. -/
def passed (s : Script α) (d : Draft) : List Draft := d.stages (s.changes d)

/-- A script goes on from where the one before it has led, unless that one has failed. -/
instance : Monad Script where
  pure a := fun _ => ([], .ok a)
  bind s f := fun d =>
    match s.outcome d with
    | .ok a => (s.changes d ++ (f a).changes (s.final d), (f a).outcome (s.final d))
    | .error failure => (s.changes d, .error failure)

/-- The draft that a script leads to, unless it fails. -/
def run (s : Script α) (d : Draft) : Except BuildFailure Draft := do
  let _ ← s.outcome d
  return s.final d

/-- A script that succeeds goes on with the changes of the next. -/
theorem bind_of_ok {s : Script α} {d : Draft} {a : α} (h : s.outcome d = .ok a) (f : α → Script β) :
    (s >>= f) d = (s.changes d ++ (f a).changes (s.final d), (f a).outcome (s.final d)) := by
  change (match s.outcome d with | .ok a => _ | .error failure => _) = _
  rw [h]

/-- A script that fails makes no further change. -/
theorem bind_of_error {s : Script α} {d : Draft} {failure : BuildFailure}
    (h : s.outcome d = .error failure) (f : α → Script β) :
    (s >>= f) d = (s.changes d, .error failure) := by
  change (match s.outcome d with | .ok a => _ | .error failure => _) = _
  rw [h]

-- The parentheses in `(rfl)` keep `simp` from using such an equation as a definitional one. The
-- kernel would have to run the script again to check every such step.
@[simp] theorem run_pure (a : α) (d : Draft) : (pure a : Script α).run d = pure d := (rfl)

theorem run_bind_of_ok {s : Script α} {d : Draft} {a : α} (h : s.outcome d = .ok a)
    (f : α → Script β) :
    (s >>= f).run d = (f a).run (s.final d) := by
  simp only [run, final, outcome, changes, bind_of_ok h, Draft.after_append]

/-- Two scripts one after the other. -/
@[simp] theorem run_seq (s : Script Unit) (f : Unit → Script β) (d : Draft) :
    (s >>= f).run d = s.run d >>= fun d' => (f ()).run d' := by
  cases h : s.outcome d with
  | error failure =>
    have hs : s.run d = .error failure := by rw [run, h]; rfl
    rw [hs, run, outcome, bind_of_error h]
    rfl
  | ok =>
    have hs : s.run d = .ok (s.final d) := by rw [run, h]; rfl
    rw [hs, run_bind_of_ok h]
    rfl

/-- From a draft with `P` the script leads only through drafts with `I`, and to one with `Q` unless
it fails. -/
def Keeps (I P : Draft → Prop) (s : Script α) (Q : Draft → Prop) : Prop :=
  ∀ d, P d → (∀ d' ∈ s.passed d, I d') ∧ ∀ a, s.outcome d = .ok a → Q (s.final d)

namespace Keeps

variable {I P Q R : Draft → Prop}

/-- Less may be assumed before and less be known after. -/
theorem mono {P' Q' : Draft → Prop} {s : Script α} (h : Keeps I P s Q) (hP : ∀ d, P' d → P d)
    (hQ : ∀ d, Q d → Q' d) :
    Keeps I P' s Q' :=
  fun d hd => ⟨(h d (hP d hd)).1, fun a ha => hQ _ ((h d (hP d hd)).2 a ha)⟩

/-- Facts kept by one script and by the next are kept by both. -/
theorem bind {s : Script α} {f : α → Script β} (hs : Keeps I P s R) (hf : ∀ a, Keeps I R (f a) Q) :
    Keeps I P (s >>= f) Q := by
  intro d hd
  obtain ⟨hpassed, hfinal⟩ := hs d hd
  cases h : s.outcome d with
  | error failure =>
    rw [passed, changes, outcome, bind_of_error h]
    exact ⟨hpassed, fun _ hb => nomatch hb⟩
  | ok a =>
    obtain ⟨hpassed', hfinal'⟩ := hf a (s.final d) (hfinal a h)
    rw [passed, final, changes, outcome, bind_of_ok h, Draft.after_append]
    exact ⟨fun d' hd' => (Draft.mem_stages_append.mp hd').elim (hpassed d') (hpassed' d'), hfinal'⟩

theorem seq {s : Script α} {t : Script β} (hs : Keeps I P s R) (ht : Keeps I R t Q) :
    Keeps I P (s >>= fun _ => t) Q :=
  hs.bind fun _ => ht

theorem pure (hI : ∀ d, P d → I d) (a : α) : Keeps I P (pure a) P :=
  fun d hd => ⟨List.forall_mem_singleton.mpr (hI d hd), fun _ _ => hd⟩

end Keeps

/-! ## Scripts for the operations of drawing -/

/-- The draft as it is. -/
def draft : Script Draft := fun d => ([], .ok d)

def change (c : Draft.Change) : Script Unit := fun _ => ([c], .ok ())

/-- Something that may fail and changes nothing. -/
def lift (x : Except BuildFailure α) : Script α := fun _ => ([], x)

def fresh : Script BlockId := do
  let d ← draft
  return d.fresh

-- In the middle of a script `onlyIf` and `Option.elim` stand for `if` and `match`, which would make
-- the rest of the script a function of its own.
def onlyIf (c : Bool) (s : Script Unit) : Script Unit := if c then s else pure ()

/-- Something that is done about the open block, if there is one. -/
def whenOpen (s : BlockId → Script Unit) : Script Unit := do
  let d ← draft
  d.current.elim (pure ()) s

def create (kind : BlockKind) (span : Option Span) : Script Unit := change (.create kind span)

def ensureOpen : Script Unit := do
  let d ← draft
  onlyIf d.current.isNone do
    create .normal none
    change (.resolve d.fresh)
    change (.enter (some d.fresh))

def terminate (terminator : Terminator) (edges : List Edge) (span : Option Span) : Script Unit := do
  let d ← draft
  ensureOpen
  change (.enter none)
  change (.close d.openBlock terminator edges span)

def closeOpen (terminator : Terminator) (edges : List Edge) : Script Unit :=
  whenOpen fun id => do
    change (.enter none)
    change (.close id terminator edges none)

def fallInto (next : BlockId) : Script Unit := do
  closeOpen .fallThrough [.sequential next]
  change (.resolve next)

def goto (kind : EdgeKind) (target : BlockId) : Script Unit := do
  closeOpen (.jump target) [⟨kind, target⟩]
  change (.resolve target)

def loopBack (target : BlockId) : Script Unit := goto .loopBack target

def start (id : BlockId) : Script Unit := do
  whenOpen fun left => change (.report (.leftOpen left id))
  change (.enter (some id))

def continueAt (next : BlockId) : Script Unit := do
  fallInto next
  change (.enter (some next))

def branch (onTrue onFalse : BlockId) (span : Span) : Script Unit :=
  terminate (.branch onTrue onFalse) [⟨.onTrue, onTrue⟩, ⟨.onFalse, onFalse⟩] (some span)

def emit (kind : ElementKind) (span : Span) : Script Unit := do
  let d ← draft
  ensureOpen
  change (.modify d.openBlock fun b => { b with elements := b.elements ++ [⟨kind, span⟩] })

/-- Adds edges to the block that the next element goes to. -/
def link (edges : List Edge) : Script Unit := do
  let d ← draft
  change (.modify d.openBlock fun b => { b with successors := appendAllNew b.successors edges })

def raise (scope : Scope) (declared : List TypeName) : Script Unit := do
  link (scope.raiseRoute declared).edges
  change (.resume (scope.raiseRoute declared).resumptions)

def jump (terminator : Terminator) (edges : List Edge) (span : Span) : Script Unit := do
  let d ← draft
  terminate terminator edges (some span)
  change (.dangle d.openBlock)

def jumpVia (terminator : Terminator) (route : JumpRoute) (span : Span) : Script Unit := do
  jump terminator [route.edge] span
  change (.resume route.resumptions)

def leaveRegion (finalizer : Option BlockId) (after : BlockId) : Script Unit :=
  match finalizer with
  | none => fallInto after
  | some entry => do
    whenOpen fun _ => do
      closeOpen .fallThrough [.sequential entry]
      change (.resume [(entry, .sequential after)])
    change (.resolve after)

def leaveFinalizer (entry after : BlockId) : Script Unit := do
  let d ← draft
  match d.resumptionsOf entry with
  | [] => fallInto after
  | edges => closeOpen .endFinally edges

def leaveArrowGroup (after : BlockId) : Script Unit := do
  closeOpen (.breaking after) [.sequential after]
  change (.resolve after)

def select (groups : List CaseGroup) (first after : BlockId) (span : Span) : Script Unit :=
  let cases := CaseGroup.valueTargets groups first
  let default := some ((CaseGroup.defaultTarget? groups first).getD after)
  terminate (.switch cases default) (Terminator.switchEdges cases default) (some span)

def expectUnchecked (types : Subtyping) (clauses : List CatchTarget) : Script Unit :=
  link ((clauses.filter (·.receivesUnchecked types)).map fun clause => .exceptional clause.entry)

def createGroups : List CaseGroup → Script Unit
  | [] => pure ()
  | group :: groups => do
    create .caseGroup (some group.span)
    createGroups groups

def createClauses : List CatchClause → Script Unit
  | [] => pure ()
  | clause :: clauses => do
    let id ← fresh
    create .handler (some clause.span)
    change (.modify id fun b => { b with elements := [⟨.declaration clause.param, clause.span⟩] })
    createClauses clauses

section Operations

variable (d : Draft)

@[simp] theorem run_draft_bind (f : Draft → Script β) : (draft >>= f).run d = (f d).run d :=
  run_bind_of_ok rfl f

@[simp] theorem run_fresh_bind (f : BlockId → Script β) : (fresh >>= f).run d = (f d.fresh).run d :=
  run_bind_of_ok rfl f

@[simp] theorem run_change (c : Draft.Change) : (change c).run d = pure (c.apply d) := (rfl)

@[simp] theorem run_lift_bind (x : Except BuildFailure α) (f : α → Script β) :
    (lift x >>= f).run d = x >>= fun a => (f a).run d := by
  cases x <;> rfl

@[simp] theorem run_onlyIf (c : Bool) (s : Script Unit) :
    (onlyIf c s).run d = if c then s.run d else pure (d) := by
  unfold onlyIf
  split <;> rfl

theorem run_whenOpen (s : BlockId → Script Unit) :
    (whenOpen s).run d = d.current.elim (pure d) fun id => (s id).run d := by
  rw [whenOpen, run_draft_bind]
  cases d.current <;> rfl

@[simp] theorem run_create (kind : BlockKind) (span : Option Span) :
    (create kind span).run d = pure (d.create kind span) :=
  run_change d _

@[simp] theorem run_ensureOpen : ensureOpen.run d = pure d.ensureOpen := by
  simp only [ensureOpen, run_seq, run_draft_bind, run_onlyIf, run_create, run_change,
    Draft.ensureOpen]
  cases d.current <;> rfl

@[simp] theorem run_terminate (t : Terminator) (edges : List Edge) (span : Option Span) :
    (terminate t edges span).run d = pure (d.terminate t edges span) := by
  simp only [terminate, run_seq, run_draft_bind, run_ensureOpen, run_change]
  rfl

@[simp] theorem run_closeOpen (t : Terminator) (edges : List Edge) :
    (closeOpen t edges).run d = pure (d.closeOpen t edges) := by
  simp only [closeOpen, run_whenOpen, run_seq, run_change, pure_bind, Draft.closeOpen]
  cases d.current <;> rfl

@[simp] theorem run_fallInto (next : BlockId) : (fallInto next).run d = pure (d.fallInto next) := by
  simp only [fallInto, run_seq, run_closeOpen, pure_bind, run_change]
  rfl

@[simp] theorem run_goto (kind : EdgeKind) (target : BlockId) :
    (goto kind target).run d = pure (d.goto kind target) := by
  simp only [goto, run_seq, run_closeOpen, pure_bind, run_change]
  rfl

@[simp] theorem run_loopBack (target : BlockId) :
    (loopBack target).run d = pure (d.loopBack target) :=
  run_goto d .loopBack target

@[simp] theorem run_start (id : BlockId) : (start id).run d = pure (d.start id) := by
  simp only [start, run_seq, run_whenOpen, run_change, Draft.start]
  cases d.current <;> rfl

@[simp] theorem run_continueAt (next : BlockId) :
    (continueAt next).run d = pure (d.continueAt next) := by
  simp only [continueAt, run_seq, run_fallInto, pure_bind, run_change]
  rfl

@[simp] theorem run_branch (onTrue onFalse : BlockId) (span : Span) :
    (branch onTrue onFalse span).run d = pure (d.branch onTrue onFalse span) :=
  run_terminate d ..

@[simp] theorem run_emit (kind : ElementKind) (span : Span) :
    (emit kind span).run d = pure (d.emit kind span) := by
  simp only [emit, run_seq, run_draft_bind, run_ensureOpen, run_change]
  rfl

@[simp] theorem run_link (edges : List Edge) :
    (link edges).run d = pure (d.addEdges d.openBlock edges) := (rfl)

@[simp] theorem run_raise (scope : Scope) (declared : List TypeName) :
    (raise scope declared).run d = pure (d.raise scope declared) := (rfl)

@[simp] theorem run_jump (t : Terminator) (edges : List Edge) (span : Span) :
    (jump t edges span).run d = pure (d.jump t edges span) := by
  simp only [jump, run_seq, run_draft_bind, run_terminate, run_change]
  rfl

@[simp] theorem run_jumpVia (t : Terminator) (route : JumpRoute) (span : Span) :
    (jumpVia t route span).run d = pure (d.jumpVia t route span) := by
  simp only [jumpVia, run_seq, run_jump, pure_bind, run_change]
  rfl

@[simp] theorem run_leaveRegion (finalizer : Option BlockId) (after : BlockId) :
    (leaveRegion finalizer after).run d = pure (d.leaveRegion finalizer after) := by
  cases finalizer with
  | none => exact run_fallInto d after
  | some entry =>
    simp only [leaveRegion, run_seq, run_whenOpen, run_closeOpen, pure_bind, run_change,
      Draft.leaveRegion]
    cases d.current <;> rfl

@[simp] theorem run_leaveFinalizer (entry after : BlockId) :
    (leaveFinalizer entry after).run d = pure (d.leaveFinalizer entry after) := by
  simp only [leaveFinalizer, run_draft_bind, Draft.leaveFinalizer]
  cases d.resumptionsOf entry with
  | nil => exact run_fallInto d after
  | cons e edges => exact run_closeOpen d .endFinally (e :: edges)

@[simp] theorem run_leaveArrowGroup (after : BlockId) :
    (leaveArrowGroup after).run d = pure (d.leaveArrowGroup after) := by
  simp only [leaveArrowGroup, run_seq, run_closeOpen, pure_bind, run_change]
  rfl

@[simp] theorem run_select (groups : List CaseGroup) (first after : BlockId) (span : Span) :
    (select groups first after span).run d = pure (d.select groups first after span) :=
  run_terminate d ..

@[simp] theorem run_expectUnchecked (types : Subtyping) (clauses : List CatchTarget) :
    (expectUnchecked types clauses).run d = pure (d.expectUnchecked types clauses) :=
  run_link d _

@[simp] theorem run_createGroups (groups : List CaseGroup) :
    (createGroups groups).run d = pure (CaseGroup.createBlocks groups d) := by
  induction groups generalizing d with
  | nil => rfl
  | cons group groups ih =>
    simp only [createGroups, run_seq, run_create, pure_bind, ih]
    rfl

@[simp] theorem run_createClauses (clauses : List CatchClause) :
    (createClauses clauses).run d = pure (CatchClause.createBlocks clauses d) := by
  induction clauses generalizing d with
  | nil => rfl
  | cons clause clauses ih =>
    simp only [createClauses, run_seq, run_fresh_bind, run_create, run_change, pure_bind, ih]
    rfl

end Operations

namespace Keeps

variable {I P Q : Draft → Prop}

/-- A script may use all that is known of the draft which it looks at. -/
theorem draft_bind {f : Draft → Script β} (h : ∀ d, P d → Keeps I (· = d) (f d) Q) :
    Keeps I P (draft >>= f) Q :=
  fun d hd => h d hd d rfl

theorem read {f : Draft → Script β} (h : ∀ d, Keeps I P (f d) Q) : Keeps I P (draft >>= f) Q :=
  fun d hd => h d d hd

/-- A single change keeps a fact when it leads from one draft with it to another. -/
theorem change {c : Draft.Change} (h : ∀ d, P d → I d ∧ I (c.apply d) ∧ Q (c.apply d)) :
    Keeps I P (change c) Q := by
  intro d hd
  obtain ⟨hfirst, hlast, hq⟩ := h d hd
  exact ⟨List.forall_mem_cons.mpr ⟨hfirst, List.forall_mem_singleton.mpr hlast⟩, fun _ _ => hq⟩

theorem lift (hI : ∀ d, P d → I d) (x : Except BuildFailure α) : Keeps I P (lift x) P :=
  fun d hd => ⟨List.forall_mem_singleton.mpr (hI d hd), fun _ _ => hd⟩

theorem fresh (hI : ∀ d, P d → I d) : Keeps I P fresh P :=
  fun d hd => ⟨List.forall_mem_singleton.mpr (hI d hd), fun _ _ => hd⟩

theorem onlyIf (hI : ∀ d, P d → I d) {s : Script Unit} (h : Keeps I P s P) (c : Bool) :
    Keeps I P (onlyIf c s) P := by
  cases c with
  | false => exact pure hI ()
  | true => exact h

theorem whenOpen (hI : ∀ d, P d → I d) {s : BlockId → Script Unit} (h : ∀ id, Keeps I P (s id) P) :
    Keeps I P (whenOpen s) P := by
  refine draft_bind fun d hd => ?_
  have here : ∀ d', d' = d → P d' := fun _ he => he ▸ hd
  cases d.current with
  | none => exact (pure hI ()).mono here fun _ h => h
  | some id => exact (h id).mono here fun _ h => h

end Keeps

end Script

/-! ## Scripts for expressions, statements and bodies -/

section

open Script

mutual

/-- Drawing an expression. -/
def Expr.script (scope : Scope) : Expr → Script Unit
  | .name ident span => emit (.identifier ident) span
  | .this span => emit .this span
  | .literal value span => emit (.literal value) span
  | .binary op left right span => do
    left.script scope
    right.script scope
    emit (.binary op) span
    onlyIf op.mayThrow (raise scope [])
  | .unary op arg span => do
    arg.script scope
    emit (.unary op) span
  | .assign op target value span => do
    onlyIf target.plainName?.isNone (target.script scope)
    value.script scope
    emit (.assignment target.plainName? op) span
    onlyIf op.mayThrow (raise scope [])
  | .cond test cons alt _ => do
    test.script scope
    let onTrue ← fresh
    create .normal (some cons.span)
    create .normal (some alt.span)
    create .join none
    branch onTrue (onTrue + 1) test.span
    start onTrue
    cons.script scope
    fallInto (onTrue + 2)
    start (onTrue + 1)
    alt.script scope
    fallInto (onTrue + 2)
    start (onTrue + 2)
  | .call receiver method args throws span => do
    Expr.scriptOption scope receiver
    Expr.scriptAll scope args
    emit (.invocation method throws) span
    raise scope throws
  | .new cls args throws span => do
    Expr.scriptAll scope args
    emit (.newClass cls throws) span
    raise scope throws
  | .newArray elem dims init span => do
    Expr.scriptAll scope dims
    Expr.scriptAll scope init
    emit (.newArray elem) span
    raise scope []
  | .member object field span => do
    object.script scope
    emit (.fieldAccess field) span
    raise scope []
  | .index array offset span => do
    array.script scope
    offset.script scope
    emit .arrayAccess span
    raise scope []
  | .cast ty e span => do
    e.script scope
    emit (.typeCast ty) span
    raise scope []
  | .instanceOf e ty span => do
    e.script scope
    emit (.instanceOf ty) span
  | .lambda span => emit .lambda span
  | .paren e _ => e.script scope

def Expr.scriptOption (scope : Scope) : Option Expr → Script Unit
  | none => pure ()
  | some e => e.script scope

def Expr.scriptAll (scope : Scope) : List Expr → Script Unit
  | [] => pure ()
  | e :: es => do
    e.script scope
    Expr.scriptAll scope es

end

def LocalVar.script (scope : Scope) (decl : LocalVar) : Script Unit := do
  Expr.scriptOption scope decl.init
  emit (.declaration decl.name) decl.span

def LocalVar.scriptResources (scope : Scope) : List LocalVar → Script Unit
  | [] => pure ()
  | decl :: decls => do
    decl.script scope
    raise scope [Throwable.exception]
    LocalVar.scriptResources scope decls

mutual

/-- Drawing a statement. -/
def Stmt.script : Stmt → Scope → List String → Script Unit
  | .block ⟨stmts, _⟩, scope, _ => Stmt.scriptAll stmts scope
  | .expr e _, scope, _ => e.script scope
  | .localVar decl, scope, _ => decl.script scope
  | .ifStmt test cons alt _, scope, _ => do
    test.script scope
    let onTrue ← fresh
    create .normal (some cons.span)
    create .join none
    alt.elim (pure ()) fun alt => create .normal (some alt.span)
    branch onTrue (alt.elim (onTrue + 1) fun _ => onTrue + 2) test.span
    start onTrue
    cons.script scope []
    Stmt.scriptElse alt scope (onTrue + 1)
    fallInto (onTrue + 1)
    start (onTrue + 1)
  | .whileStmt test body _, scope, labels => do
    let header ← fresh
    create .loopHeader (some test.span)
    continueAt header
    test.script scope
    let inner ← fresh
    create .normal (some body.span)
    create .normal none
    branch inner (inner + 1) test.span
    start inner
    body.script (scope.inside labels (.loop header) (inner + 1)) []
    loopBack header
    start (inner + 1)
  | .doWhile body test _, scope, labels => do
    let header ← fresh
    create .loopHeader (some body.span)
    create .condition (some test.span)
    create .normal none
    continueAt header
    body.script (scope.inside labels (.loop (header + 1)) (header + 2)) []
    continueAt (header + 1)
    test.script scope
    branch header (header + 2) test.span
    start (header + 2)
  | .forStmt init test update body span, scope, labels => do
    Stmt.scriptAll init scope
    let header ← fresh
    create .loopHeader (some (test.elim span (·.span)))
    continueAt header
    create .normal (some body.span)
    create .normal none
    onlyIf (!update.isEmpty) (create .normal none)
    test.elim (terminate (.jump (header + 1)) [.sequential (header + 1)] none) fun test => do
      test.script scope
      branch (header + 1) (header + 2) test.span
    start (header + 1)
    let next := if update.isEmpty then header else header + 3
    body.script (scope.inside labels (.loop next) (header + 2)) []
    onlyIf (!update.isEmpty) do
      loopBack next
      start next
      Expr.scriptAll scope update
    loopBack header
    start (header + 2)
  | .forEach var iterable body span, scope, labels => do
    iterable.script scope
    let header ← fresh
    create .loopHeader (some span)
    continueAt header
    create .normal (some body.span)
    create .normal none
    branch (header + 1) (header + 2) iterable.span
    start (header + 1)
    emit (.declaration var) span
    body.script (scope.inside labels (.loop header) (header + 2)) []
    loopBack header
    start (header + 2)
  | .switch selector groups _, scope, labels => do
    selector.script scope
    let after ← fresh
    create .normal none
    createGroups groups
    select groups (after + 1) after selector.span
    CaseGroup.scriptAll groups (scope.inside labels .switch after) (after + 1) after
    continueAt after
  | .tryStmt resources ⟨stmts, blockSpan⟩ catches finalizer _, scope, _ => do
    let after ← fresh
    let finalEntry := finalizer.map fun _ => after + 1
    let first := after + 1 + finalEntry.toList.length
    let clauses := CatchClause.targets catches first
    create .normal none
    finalizer.elim (pure ()) fun block => create .finalizer (some block.span)
    createClauses catches
    create .normal (some blockSpan)
    continueAt (first + catches.length)
    expectUnchecked scope.types clauses
    LocalVar.scriptResources (scope.guarded ⟨clauses, finalEntry⟩) resources
    Stmt.scriptAll stmts (scope.guarded ⟨clauses, finalEntry⟩)
    leaveRegion finalEntry after
    CatchClause.scriptAll catches (scope.guarded ⟨[], finalEntry⟩) finalEntry first after
    Block.scriptFinalizer finalizer scope after
    continueAt after
  | .labeled label body span, scope, labels =>
    if labels.contains label || scope.hasLabel label
      then lift (.error (.duplicateLabel label span.line))
    else if body.carriesLabels then body.script scope (labels ++ [label])
    else do
      let after ← fresh
      create .normal none
      body.script (scope.inside (labels ++ [label]) .labeled after) []
      continueAt after
  | .breakStmt label span, scope, _ => do
    let target ← lift (scope.breakTarget label span.line)
    jumpVia (.breaking target.breakTo) (scope.breakRoute target) span
  | .continueStmt label span, scope, _ => do
    let target ← lift (scope.continueTarget label span.line)
    jumpVia (.continuing target.2) (scope.continueRoute target.1 target.2) span
  | .returnStmt arg span, scope, _ => do
    Expr.scriptOption scope arg
    jumpVia (.returning arg.isSome) scope.returnRoute span
  | .throwStmt arg span, scope, _ => do
    let route := scope.throwRoute (arg.newClass?.getD Throwable.root)
    arg.script scope
    jump .throwing route.edges span
    change (.resume route.resumptions)
  | .synchronized lock ⟨stmts, _⟩ span, scope, _ => do
    lock.script scope
    emit .synchronized span
    Stmt.scriptAll stmts scope
  | .assertStmt _ _ _, _, _ => pure ()
  | .localClass ident span, _, _ => emit (.classDecl ident) span
  | .empty _, _, _ => pure ()
  | .missing span, _, _ => lift (.error (.partialBody span.line))

def Stmt.scriptAll : List Stmt → Scope → Script Unit
  | [], _ => pure ()
  | stmt :: stmts, scope => do
    stmt.script scope []
    Stmt.scriptAll stmts scope

def Stmt.scriptElse : Option Stmt → Scope → (join : BlockId) → Script Unit
  | none, _, _ => pure ()
  | some alt, scope, join => do
    goto .sequential join
    start (join + 1)
    alt.script scope []

def Block.scriptFinalizer : Option Block → Scope → (after : BlockId) → Script Unit
  | none, _, _ => pure ()
  | some ⟨stmts, _⟩, scope, after => do
    start (after + 1)
    Stmt.scriptAll stmts scope
    leaveFinalizer (after + 1) after

def CaseGroup.scriptAll : List CaseGroup → Scope → (block after : BlockId) → Script Unit
  | [], _, _, _ => pure ()
  | ⟨_, body, arrow, _⟩ :: groups, scope, block, after => do
    continueAt block
    Stmt.scriptAll body scope
    bif arrow then leaveArrowGroup after else change .mark
    CaseGroup.scriptAll groups scope (block + 1) after

def CatchClause.scriptAll : List CatchClause → Scope → (finalizer : Option BlockId) →
    (entry after : BlockId) → Script Unit
  | [], _, _, _, _ => pure ()
  | ⟨_, _, ⟨stmts, _⟩, _⟩ :: clauses, scope, finalizer, entry, after => do
    start entry
    Stmt.scriptAll stmts scope
    leaveRegion finalizer after
    CatchClause.scriptAll clauses scope finalizer (entry + 1) after

end

/-- Drawing a body up to its end. -/
def Graph.script (types : Subtyping) (body : Block) : Script Unit := do
  change (.modify entry fun b => { b with span := some body.span })
  Stmt.scriptAll body.stmts { types }
  fallInto exit

/-! ## Running a script is drawing -/

section Expressions

variable (scope : Scope)

/-- Running the script of an expression is drawing the expression. -/
def Expr.Scripted (e : Expr) : Prop := ∀ d, (e.script scope).run d = pure (e.draw scope d)

theorem Expr.run_scriptOption_of {o : Option Expr} (h : ∀ e, o = some e → e.Scripted scope)
    (d : Draft) :
    (Expr.scriptOption scope o).run d = pure (Expr.drawOption scope o d) := by
  cases o with
  | none => rw [Expr.scriptOption, Expr.drawOption, run_pure]
  | some e => rw [Expr.scriptOption, Expr.drawOption, h e rfl]

theorem Expr.run_scriptAll_of {es : List Expr} (h : ∀ e ∈ es, e.Scripted scope) (d : Draft) :
    (Expr.scriptAll scope es).run d = pure (Expr.drawAll scope es d) := by
  induction es generalizing d with
  | nil => rw [Expr.scriptAll, Expr.drawAll, run_pure]
  | cons e es ih =>
    rw [Expr.scriptAll, Expr.drawAll, run_seq, h e List.mem_cons_self, pure_bind]
    exact ih (fun e' he => h e' (List.mem_cons_of_mem _ he)) _

/-- The script of an expression draws the expression. -/
@[simp] theorem Expr.run_script (e : Expr) (d : Draft) :
    (e.script scope).run d = pure (e.draw scope d) := by
  induction e using Expr.induct generalizing d with
  | name | this | literal | lambda => rw [Expr.script, Expr.draw, run_emit]
  | binary op left right span ihl ihr =>
    cases h : op.mayThrow <;> simp [Expr.script, Expr.draw, ihl, ihr, h]
  | unary op arg span ih => simp [Expr.script, Expr.draw, ih]
  | assign op target value span iht ihv =>
    cases h : op.mayThrow <;> cases hname : target.plainName? <;>
      simp [Expr.script, Expr.draw, iht, ihv, h, hname]
  | cond test cons alt span iht ihc iha => simp [Expr.script, Expr.draw, iht, ihc, iha]
  | call receiver method args throws span ihr iha =>
    simp [Expr.script, Expr.draw, Expr.run_scriptOption_of scope ihr,
      Expr.run_scriptAll_of scope iha]
  | new cls args throws span ih => simp [Expr.script, Expr.draw, Expr.run_scriptAll_of scope ih]
  | newArray elem dims init span ihd ihi =>
    simp [Expr.script, Expr.draw, Expr.run_scriptAll_of scope ihd, Expr.run_scriptAll_of scope ihi]
  | member object field span ih => simp [Expr.script, Expr.draw, ih]
  | index array offset span iha iho => simp [Expr.script, Expr.draw, iha, iho]
  | cast ty e span ih | instanceOf e ty span ih => simp [Expr.script, Expr.draw, ih]
  | paren e span ih => rw [Expr.script, Expr.draw, ih]

@[simp] theorem Expr.run_scriptOption (o : Option Expr) (d : Draft) :
    (Expr.scriptOption scope o).run d = pure (Expr.drawOption scope o d) :=
  Expr.run_scriptOption_of scope (fun e _ => e.run_script scope) d

@[simp] theorem Expr.run_scriptAll (es : List Expr) (d : Draft) :
    (Expr.scriptAll scope es).run d = pure (Expr.drawAll scope es d) :=
  Expr.run_scriptAll_of scope (fun e _ => e.run_script scope) d

@[simp] theorem LocalVar.run_script (decl : LocalVar) (d : Draft) :
    (decl.script scope).run d = pure (decl.draw scope d) := by
  simp [LocalVar.script, LocalVar.draw]

@[simp] theorem LocalVar.run_scriptResources (decls : List LocalVar) (d : Draft) :
    (LocalVar.scriptResources scope decls).run d = pure (LocalVar.drawResources scope decls d) := by
  induction decls generalizing d with
  | nil => rfl
  | cons decl decls ih => simp [LocalVar.scriptResources, LocalVar.drawResources, ih]

end Expressions

section Statements

/-- Running the script of a statement is drawing the statement. -/
def Stmt.Scripted (s : Stmt) : Prop :=
  ∀ scope labels d, (s.script scope labels).run d = s.draw scope labels d

variable (scope : Scope)

/-- The script of statements draws the statements. -/
theorem Stmt.run_scriptAll_of {stmts : List Stmt} (h : ∀ s ∈ stmts, s.Scripted) (d : Draft) :
    (Stmt.scriptAll stmts scope).run d = Stmt.drawAll stmts scope d := by
  induction stmts generalizing d with
  | nil =>
    rw [Stmt.scriptAll, Stmt.drawAll]
    rfl
  | cons s stmts ih =>
    simp [Stmt.scriptAll, Stmt.drawAll, h s List.mem_cons_self scope,
      ih fun s' hs => h s' (List.mem_cons_of_mem _ hs)]

theorem Stmt.run_scriptElse_of {alt : Option Stmt} (h : ∀ s, alt = some s → s.Scripted)
    (join : BlockId) (d : Draft) :
    (Stmt.scriptElse alt scope join).run d = Stmt.drawElse alt scope join d := by
  cases alt with
  | none =>
    rw [Stmt.scriptElse, Stmt.drawElse]
    rfl
  | some s => simp [Stmt.scriptElse, Stmt.drawElse, h s rfl scope]

theorem Block.run_scriptFinalizer_of {finalizer : Option Block}
    (h : ∀ final, finalizer = some final → ∀ s ∈ final.stmts, s.Scripted) (after : BlockId)
    (d : Draft) :
    (Block.scriptFinalizer finalizer scope after).run d =
      Block.drawFinalizer finalizer scope after d := by
  cases finalizer with
  | none =>
    rw [Block.scriptFinalizer, Block.drawFinalizer]
    rfl
  | some final =>
    have hs := h final rfl
    cases final
    simp [Block.scriptFinalizer, Block.drawFinalizer, Stmt.run_scriptAll_of scope hs]

theorem CaseGroup.run_scriptAll_of {groups : List CaseGroup}
    (h : ∀ group ∈ groups, ∀ s ∈ group.body, s.Scripted) (block after : BlockId) (d : Draft) :
    (CaseGroup.scriptAll groups scope block after).run d =
      CaseGroup.drawAll groups scope block after d := by
  induction groups generalizing block d with
  | nil =>
    rw [CaseGroup.scriptAll, CaseGroup.drawAll]
    rfl
  | cons group groups ih =>
    have hs := h group List.mem_cons_self
    have ih := ih fun group hg => h group (List.mem_cons_of_mem _ hg)
    obtain ⟨_, body, arrow, _⟩ := group
    cases arrow <;>
      simp [CaseGroup.scriptAll, CaseGroup.drawAll, Stmt.run_scriptAll_of scope hs, ih,
        Draft.Change.apply]

theorem CatchClause.run_scriptAll_of {clauses : List CatchClause}
    (h : ∀ clause ∈ clauses, ∀ s ∈ clause.body.stmts, s.Scripted) (finalizer : Option BlockId)
    (entry after : BlockId) (d : Draft) :
    (CatchClause.scriptAll clauses scope finalizer entry after).run d =
      CatchClause.drawAll clauses scope finalizer entry after d := by
  induction clauses generalizing entry d with
  | nil =>
    rw [CatchClause.scriptAll, CatchClause.drawAll]
    rfl
  | cons clause clauses ih =>
    have hs := h clause List.mem_cons_self
    have ih := ih fun clause hc => h clause (List.mem_cons_of_mem _ hc)
    obtain ⟨_, _, ⟨stmts, _⟩, _⟩ := clause
    simp [CatchClause.scriptAll, CatchClause.drawAll, Stmt.run_scriptAll_of scope hs, ih]

/-- The script of a statement draws the statement, or fails as drawing does. -/
theorem Stmt.run_script (s : Stmt) (labels : List String) (d : Draft) :
    (s.script scope labels).run d = s.draw scope labels d := by
  induction s using Stmt.induct generalizing scope labels d with
  | block b ih =>
    cases b
    rw [Stmt.script, Stmt.draw, Stmt.run_scriptAll_of scope ih]
  | expr e span =>
    rw [Stmt.script, Stmt.draw, Expr.run_script]
    rfl
  | localVar decl =>
    rw [Stmt.script, Stmt.draw, LocalVar.run_script]
    rfl
  | ifStmt test cons alt span ihc iha =>
    cases alt <;> simp [Stmt.script, Stmt.draw, ihc, Stmt.run_scriptElse_of scope iha]
  | whileStmt test body span ih | doWhile body test span ih => simp [Stmt.script, Stmt.draw, ih]
  | forStmt init test update body span ihi ih =>
    cases test <;> cases update <;>
      simp [Stmt.script, Stmt.draw, ih, Stmt.run_scriptAll_of scope ihi]
  | forEach var iterable body span ih => simp [Stmt.script, Stmt.draw, ih]
  | switch selector groups span ih => simp [Stmt.script, Stmt.draw, CaseGroup.run_scriptAll_of _ ih]
  | tryStmt resources block catches finalizer span ihb ihc ihf =>
    cases block
    cases finalizer <;>
      simp [Stmt.script, Stmt.draw, Stmt.run_scriptAll_of _ ihb, CatchClause.run_scriptAll_of _ ihc,
        Block.run_scriptFinalizer_of scope ihf]
  | labeled label body span ih =>
    rw [Stmt.script, Stmt.draw_labeled]
    split
    · rfl
    · split
      · exact ih _ _ _
      · simp [ih]
  | breakStmt label span | continueStmt label span => simp [Stmt.script, Stmt.draw]
  | returnStmt arg span =>
    rw [Stmt.script, Stmt.draw, run_seq, Expr.run_scriptOption, pure_bind, run_jumpVia]
    rfl
  | throwStmt arg span =>
    rw [Stmt.script, Stmt.draw, run_seq, Expr.run_script, pure_bind, run_seq, run_jump,
      pure_bind, run_change]
    rfl
  | synchronized lock body span ih =>
    cases body
    simp [Stmt.script, Stmt.draw, Stmt.run_scriptAll_of scope ih]
  | assertStmt | empty | missing =>
    rw [Stmt.script, Stmt.draw]
    rfl
  | localClass ident span =>
    rw [Stmt.script, Stmt.draw, run_emit]
    rfl

/-- The script of a body draws the body. -/
theorem Graph.run_script (types : Subtyping) (body : Block) :
    (Graph.script types body).run .initial = Graph.draft types body := by
  simp [Graph.script, Graph.draft, Stmt.run_scriptAll_of { types } fun s _ scope =>
    s.run_script scope, Draft.Change.apply]

end Statements

end

end MethodFlow
