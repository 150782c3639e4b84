import MethodFlow.Proofs.Writing
import MethodFlow.Proofs.DeadTails
import MethodFlow.Proofs.Searching

/-!
# Decisions in the text and in the graph

`Block.decisions` counts the decision points of a body by recursion on the tree. The graph has them
in two places: a terminator stands for a branch or for the choice of a `switch`, and an element for
each `&&` and `||`.

`Draft.decided` is what the terminators given out so far amount to. Each construct adds its own
branches to it, and since its elements are in the text anyway (`Stmt.writes`), the short circuits
among them can be counted along: `Stmt.decides` says that both together make up the decisions of the
statement.

Main result: `Graph.build_decisions`.
-/

namespace MethodFlow

/-! ## Decision points of a tree -/

mutual

/-- The decision points of an expression. What a lambda does is not counted. -/
@[simp] def Expr.decisions : Expr → Nat
  | .binary op left right _ => left.decisions + right.decisions + if op.isShortCircuit then 1 else 0
  | .cond test cons alt _ => 1 + test.decisions + cons.decisions + alt.decisions
  | .assign _ target value _ => target.decisions + value.decisions
  | .unary _ e _ | .member e _ _ | .cast _ e _ | .instanceOf e _ _ | .paren e _ => e.decisions
  | .call receiver _ args _ _ => Expr.decisionsOption receiver + Expr.decisionsAll args
  | .new _ args _ _ => Expr.decisionsAll args
  | .newArray _ dims init _ => Expr.decisionsAll dims + Expr.decisionsAll init
  | .index array offset _ => array.decisions + offset.decisions
  | .name .. | .this .. | .literal .. | .lambda .. => 0

@[simp] def Expr.decisionsOption : Option Expr → Nat
  | none => 0
  | some e => e.decisions

@[simp] def Expr.decisionsAll : List Expr → Nat
  | [] => 0
  | e :: es => e.decisions + Expr.decisionsAll es

end

def LocalVar.decisions (decl : LocalVar) : Nat := Expr.decisionsOption decl.init

mutual

/-- The decision points of a statement: branches, loops that have a test, and the values of a
`switch`. Assertions and local classes are not counted. -/
@[simp] def Stmt.decisions : Stmt → Nat
  | .block ⟨stmts, _⟩ => Stmt.decisionsAll stmts
  | .expr e _ => e.decisions
  | .localVar decl => decl.decisions
  | .ifStmt test cons alt _ => 1 + test.decisions + cons.decisions + Stmt.decisionsOption alt
  | .whileStmt test body _ | .doWhile body test _ => 1 + test.decisions + body.decisions
  | .forStmt init test update body _ =>
    test.toList.length + Stmt.decisionsAll init + Expr.decisionsOption test +
      Expr.decisionsAll update +
      body.decisions
  | .forEach _ iterable body _ => 1 + iterable.decisions + body.decisions
  | .switch selector groups _ => selector.decisions + CaseGroup.decisionsAll groups
  | .tryStmt resources ⟨stmts, _⟩ catches finalizer _ =>
    (resources.map (·.decisions)).sum + Stmt.decisionsAll stmts + CatchClause.decisionsAll catches +
      Block.decisionsOption finalizer
  | .labeled _ body _ => body.decisions
  | .returnStmt arg _ => Expr.decisionsOption arg
  | .throwStmt arg _ => arg.decisions
  | .synchronized lock ⟨stmts, _⟩ _ => lock.decisions + Stmt.decisionsAll stmts
  | .breakStmt .. | .continueStmt .. | .assertStmt .. | .localClass .. | .empty .. | .missing .. =>
    0

@[simp] def Stmt.decisionsAll : List Stmt → Nat
  | [] => 0
  | stmt :: stmts => stmt.decisions + Stmt.decisionsAll stmts

@[simp] def Stmt.decisionsOption : Option Stmt → Nat
  | none => 0
  | some stmt => stmt.decisions

@[simp] def Block.decisionsOption : Option Block → Nat
  | none => 0
  | some ⟨stmts, _⟩ => Stmt.decisionsAll stmts

/-- The groups of a `switch` count one for each of their values, whatever expressions these are. -/
@[simp] def CaseGroup.decisionsAll : List CaseGroup → Nat
  | [] => 0
  | ⟨labels, body, _, _⟩ :: groups =>
    (labels.flatMap (·.values)).length + Stmt.decisionsAll body + CaseGroup.decisionsAll groups

@[simp] def CatchClause.decisionsAll : List CatchClause → Nat
  | [] => 0
  | ⟨_, _, ⟨stmts, _⟩, _⟩ :: clauses => Stmt.decisionsAll stmts + CatchClause.decisionsAll clauses

end

/-- The decision points of a body. -/
def Block.decisions (body : Block) : Nat := Stmt.decisionsAll body.stmts

theorem Block.decisionsOption_some (block : Block) :
    Block.decisionsOption (some block) = block.decisions := by
  cases block
  rw [Block.decisionsOption, Block.decisions]

theorem CaseGroup.decisionsAll_cons (group : CaseGroup) (groups : List CaseGroup) :
    CaseGroup.decisionsAll (group :: groups) =
      group.valueCount + Stmt.decisionsAll group.body + CaseGroup.decisionsAll groups := by
  cases group
  rw [CaseGroup.decisionsAll]
  rfl

theorem CatchClause.decisionsAll_cons (clause : CatchClause) (clauses : List CatchClause) :
    CatchClause.decisionsAll (clause :: clauses) =
      clause.body.decisions + CatchClause.decisionsAll clauses := by
  obtain ⟨_, _, ⟨_, _⟩, _⟩ := clause
  rw [CatchClause.decisionsAll]
  rfl

/-- A plain name, in whatever parentheses, decides nothing. -/
theorem Expr.decisions_of_plainName {e : Expr} (h : e.plainName?.isSome = true) :
    e.decisions = 0 := by
  induction e using Expr.induct with
  | paren inner span ih =>
    rw [Expr.decisions]
    exact ih h
  | name => rw [Expr.decisions]
  | _ => exact nomatch h

/-! ## Short circuits among elements -/

namespace Element

/-- How many of the elements are `&&` or `||`. -/
def shortCircuits (es : List Element) : Nat := es.countP (·.isShortCircuit)

@[simp] theorem shortCircuits_nil : shortCircuits [] = 0 := rfl

@[simp] theorem shortCircuits_append (es es' : List Element) :
    shortCircuits (es ++ es') = shortCircuits es + shortCircuits es' :=
  List.countP_append

theorem shortCircuits_binary (op : BinaryOp) (span : Span) :
    shortCircuits [⟨.binary op, span⟩] = if op.isShortCircuit then 1 else 0 :=
  List.countP_singleton

/-- No other kind of element counts. -/
theorem shortCircuits_plain {e : Element} (h : e.isShortCircuit = false) : shortCircuits [e] = 0 :=
  List.countP_eq_zero.mpr fun e' he' => by simp [List.mem_singleton.mp he', h]

end Element

/-! ## What the terminators of a draft amount to -/

namespace Draft

/-- The decisions of the terminator of a block. -/
def endingDecisions (d : Draft) (id : BlockId) : Nat :=
    (d.graph.block? id).elim 0 (·.terminator.decisions)

/-- The decisions of the terminators that have been given out so far. -/
def decided (d : Draft) : Nat := (d.closed.map d.endingDecisions).sum

variable {d d' : Draft}

/-- Decisions read the closed blocks only. -/
theorem decided_congr (closed : d'.closed = d.closed)
    (h : ∀ id ∈ d.closed, d'.endingDecisions id = d.endingDecisions id) :
      d'.decided = d.decided := by
  unfold decided
  rw [closed, List.map_congr_left h]

/-- An added block is not closed yet, so it decides nothing. -/
theorem decided_add (hd : d.Steady) (b : BasicBlock) : (d.add b).decided = d.decided := by
  refine decided_congr rfl fun id hid => ?_
  rw [endingDecisions, block?_add_of_lt (hd.closed_lt id hid)]
  rfl

theorem decided_create (hd : d.Steady) (kind : BlockKind) (span : Option Span) :
    (d.create kind span).decided = d.decided :=
  decided_add hd _

/-- Changing blocks otherwise than in their terminators decides nothing. -/
theorem decided_modify (id : BlockId) {f : BasicBlock → BasicBlock}
    (hf : ∀ b, (f b).terminator = b.terminator) :
    (d.modify id f).decided = d.decided := by
  refine decided_congr rfl fun i _ => ?_
  unfold endingDecisions
  rw [block?_modify]
  split
  · cases d.graph.block? i with
    | none => rfl
    | some b => exact congrArg Terminator.decisions (hf b)
  · rfl

/-- Decisions read the cores of closed blocks only. -/
theorem decided_of_cores (closed : d'.closed = d.closed)
    (cores : ∀ id, (d'.graph.block? id).map (·.core) = (d.graph.block? id).map (·.core)) :
    d'.decided = d.decided := by
  refine decided_congr closed fun id _ => ?_
  have hcore := congrArg (Option.elim · 0 (·.terminator.decisions)) (cores id)
  unfold endingDecisions
  cases hd' : d'.graph.block? id <;> cases hd : d.graph.block? id <;>
    rw [hd, hd'] at hcore <;> exact hcore

theorem decided_resolveDangling (d : Draft) (next : BlockId) :
    (d.resolveDangling next).decided = d.decided :=
  decided_of_cores (by simp) (d.core_resolveDangling next)

theorem decided_endCaseGroup (d : Draft) : d.endCaseGroup.decided = d.decided :=
  decided_of_cores (by simp) d.core_endCaseGroup

theorem decided_start (d : Draft) (next : BlockId) : (d.start next).decided = d.decided := by
  unfold start
  split <;> rfl

/-- Closing the open block adds what its terminator decides. -/
theorem decided_sealed (hd : d.Steady) {id : BlockId} (isOpen : d.current = some id)
    (t : Terminator) (edges : List Edge) (span : Option Span) :
    (d.sealed id t edges span).decided = d.decided + t.decisions := by
  obtain ⟨b, hb⟩ := Graph.exists_block? (hd.current_lt id isOpen)
  have hsealed : (d.sealed id t edges span).endingDecisions id = t.decisions := by
    rw [endingDecisions, block?_sealed, if_pos rfl, hb]
    rfl
  have hothers : ∀ i ∈ d.closed, (d.sealed id t edges span).endingDecisions i =
      d.endingDecisions i := by
    intro i hi
    have hne : id ≠ i := fun he => hd.current_open id isOpen (he ▸ hi)
    rw [endingDecisions, block?_sealed, if_neg hne]
    rfl
  show ((id :: d.closed).map _).sum = _
  rw [List.map_cons, List.sum_cons, hsealed, List.map_congr_left hothers, Nat.add_comm]
  rfl

theorem decided_ensureOpen (hd : d.Steady) : d.ensureOpen.decided = d.decided := by
  cases hc : d.current with
  | some id => rw [ensureOpen_of_some hc]
  | none =>
    rw [ensureOpen_of_none hc]
    exact (decided_resolveDangling _ _).trans (decided_add hd _)

theorem decided_emit (hd : d.Steady) (kind : ElementKind) (span : Span) :
    (d.emit kind span).decided = d.decided := by
  rw [← decided_ensureOpen hd]
  exact decided_modify _ fun _ => rfl

theorem decided_addEdges (d : Draft) (id : BlockId) (edges : List Edge) :
    (d.addEdges id edges).decided = d.decided :=
  decided_modify id fun _ => rfl

theorem decided_raise (d : Draft) (scope : Scope) (declared : List TypeName) :
    (d.raise scope declared).decided = d.decided :=
  d.decided_addEdges _ _

theorem decided_emit_raise (hd : d.Steady) (kind : ElementKind) (span : Span) (scope : Scope)
    (declared : List TypeName) : ((d.emit kind span).raise scope declared).decided = d.decided := by
  rw [decided_raise, decided_emit hd]

theorem decided_operator (hd : d.Steady) (kind : ElementKind) (span : Span) (scope : Scope)
    (mayThrow : Bool) :
    (if mayThrow then (d.emit kind span).raise scope [] else d.emit kind span).decided =
      d.decided := by
  split
  · exact decided_emit_raise hd kind span scope []
  · exact decided_emit hd kind span

/-- Ending a block decides what its terminator decides. -/
theorem decided_terminate (hd : d.Steady) (t : Terminator) (edges : List Edge)
    (span : Option Span) :
    (d.terminate t edges span).decided = d.decided + t.decisions := by
  rw [terminate_eq_sealed hd, decided_sealed ((Run.ensureOpen hd).steady hd) d.current_ensureOpen,
    decided_ensureOpen hd]

/-- A branch is one decision. -/
theorem decided_branch (hd : d.Steady) (onTrue onFalse : BlockId) (span : Span) :
    (d.branch onTrue onFalse span).decided = d.decided + 1 :=
  decided_terminate hd _ _ _

theorem decided_closeOpen (hd : d.Steady) {t : Terminator} (ht : t.decisions = 0)
    (edges : List Edge) :
    (d.closeOpen t edges).decided = d.decided := by
  cases hc : d.current with
  | none => rw [closeOpen_of_none hc]
  | some id => rw [closeOpen_of_some hd hc, decided_sealed hd hc, ht, Nat.add_zero]

theorem decided_fallInto (hd : d.Steady) (next : BlockId) :
    (d.fallInto next).decided = d.decided := by
  rw [fallInto, decided_resolveDangling, decided_closeOpen hd rfl]

theorem decided_continueAt (hd : d.Steady) (next : BlockId) :
    (d.continueAt next).decided = d.decided :=
  decided_fallInto hd next

theorem decided_turn (hd : d.Steady) (kind : EdgeKind) (target next : BlockId) :
    (d.turn kind target next).decided = d.decided := by
  rw [turn, decided_start, goto, decided_resolveDangling, decided_closeOpen hd rfl]

/-- A jump decides nothing. -/
theorem decided_jump (hd : d.Steady) {t : Terminator} (ht : t.decisions = 0) (edges : List Edge)
    (span : Span) :
    (d.jump t edges span).decided = d.decided := by
  have hterm := decided_terminate hd t edges (some span)
  rw [ht] at hterm
  exact hterm

theorem decided_leaveRegion (hd : d.Steady) (finalizer : Option BlockId) (after : BlockId) :
    (d.leaveRegion finalizer after).decided = d.decided := by
  cases finalizer with
  | none => exact decided_fallInto hd after
  | some entry =>
    simp only [leaveRegion]
    rw [decided_resolveDangling]
    split
    · exact decided_closeOpen hd rfl _
    · rfl

/-- Leaving a `finally` clause decides nothing, however many places it resumes. -/
theorem decided_leaveFinalizer (hd : d.Steady) (entry after : BlockId) :
    (d.leaveFinalizer entry after).decided = d.decided := by
  unfold leaveFinalizer
  split
  · exact decided_fallInto hd after
  · exact decided_closeOpen hd rfl _

theorem decided_finishGroup (hd : d.Steady) (group : CaseGroup) (after : BlockId) :
    (group.finish d after).decided = d.decided := by
  unfold CaseGroup.finish
  split
  · rw [leaveArrowGroup, decided_resolveDangling, decided_closeOpen hd rfl]
  · exact d.decided_endCaseGroup

/-! ## The pieces between the parts of a construct -/

/-- New blocks were made, and nothing was decided. -/
structure MadeIdly (d₀ d : Draft) : Prop where
  steady : d.Steady
  decided : d.decided = d₀.decided

namespace MadeIdly

variable {d₀ : Draft}

theorem refl (hd : d.Steady) : MadeIdly d d := ⟨hd, rfl⟩

theorem add (h : MadeIdly d₀ d) (kind : BlockKind) (elements : List Element) (span : Option Span) :
    MadeIdly d₀ (d.add { kind, elements, span }) :=
  ⟨Move.steady (.add kind elements span) h.steady, (decided_add h.steady _).trans h.decided⟩

theorem create (h : MadeIdly d₀ d) (kind : BlockKind) (span : Option Span) :
    MadeIdly d₀ (d.create kind span) :=
  h.add kind [] span

theorem createGroups (h : MadeIdly d₀ d) (groups : List CaseGroup) :
    MadeIdly d₀ (CaseGroup.createBlocks groups d) := by
  unfold CaseGroup.createBlocks
  induction groups generalizing d with
  | nil => exact h
  | cons group groups ih => exact ih (h.create .caseGroup (some group.span))

theorem createClauses (h : MadeIdly d₀ d) (clauses : List CatchClause) :
    MadeIdly d₀ (CatchClause.createBlocks clauses d) := by
  unfold CatchClause.createBlocks
  induction clauses generalizing d with
  | nil => exact h
  | cons clause clauses ih =>
    rw [List.foldl_cons, createClause_eq]
    exact ih (h.add .handler _ (some clause.span))

theorem fork (h : MadeIdly d₀ d) (onTrue onFalse : BlockId) (span : Span) :
    ((d.branch onTrue onFalse span).start onTrue).decided = d₀.decided + 1 := by
  rw [decided_start, decided_branch h.steady, h.decided]

theorem continueAt (h : MadeIdly d₀ d) (next : BlockId) :
    (d.continueAt next).decided = d₀.decided :=
  (decided_continueAt h.steady next).trans h.decided

end MadeIdly

theorem decided_openHeader (hd : d.Steady) (span : Option Span) :
    (d.openHeader span).decided = d.decided :=
  ((MadeIdly.refl hd).create _ _).continueAt _

theorem decided_openBody (hd : d.Steady) (body test : Span) :
    (d.openBody body test).decided = d.decided + 1 :=
  (((MadeIdly.refl hd).create _ _).create _ _).fork _ _ _

theorem decided_openCond (hd : d.Steady) (cons alt test : Span) :
    (d.openCond cons alt test).decided = d.decided + 1 :=
  ((((MadeIdly.refl hd).create _ _).create _ _).create _ _).fork _ _ _

theorem decided_openIf (hd : d.Steady) (cons : Stmt) (alt : Option Stmt) (test : Span) :
    (d.openIf cons alt test).decided = d.decided + 1 := by
  have hmade := ((MadeIdly.refl hd).create .normal (some cons.span)).create .join none
  cases alt with
  | none => exact hmade.fork _ _ _
  | some alt => exact (hmade.create .normal (some alt.span)).fork _ _ _

theorem decided_openDo (hd : d.Steady) (body test : Span) :
    (d.openDo body test).decided = d.decided :=
  ((((MadeIdly.refl hd).create _ _).create _ _).create _ _).continueAt _

theorem decided_closeDo (hd : d.Steady) (header after : BlockId) (test : Span) :
    (d.closeDo header after test).decided = d.decided + 1 := by
  rw [closeDo, decided_start, decided_branch hd]

theorem decided_makeFor (hd : d.Steady) (updates : Bool) (body : Span) :
    (d.makeFor updates body).decided = d.decided := by
  have hmade := ((MadeIdly.refl hd).create .normal (some body)).create .normal none
  cases updates with
  | false => exact hmade.decided
  | true => exact (hmade.create .normal none).decided

/-- There is always a default, so a `switch` decides as often as it has values. -/
theorem decided_openSwitch (hd : d.Steady) (groups : List CaseGroup) (selector : Span) :
    (d.openSwitch groups selector).decided = d.decided + (groups.map (·.valueCount)).sum := by
  have hmade := ((MadeIdly.refl hd).create .normal none).createGroups groups
  have hlength : ∀ first, (CaseGroup.valueTargets groups first).length =
      (groups.map (·.valueCount)).sum := by
    clear hmade
    induction groups with
    | nil => exact fun _ => rfl
    | cons group groups ih =>
      intro first
      rw [CaseGroup.valueTargets, List.length_append, List.length_replicate, ih, List.map_cons,
        List.sum_cons]
  rw [openSwitch, select, decided_terminate hmade.steady, hmade.decided,
    Terminator.decisions, hlength]
  rfl

theorem decided_openTry (hd : d.Steady) (types : Subtyping) (catches : List CatchClause)
    (finalizer : Option Block) (block : Span) :
    (d.openTry types catches finalizer block).decided = d.decided := by
  have hmade : MadeIdly d (d.makeTry catches finalizer) := by
    have hmade := (MadeIdly.refl hd).create .normal none
    cases finalizer with
    | none => exact hmade.createClauses catches
    | some block => exact (hmade.create .finalizer (some block.span)).createClauses catches
  rw [openTry, expectUnchecked, decided_addEdges]
  exact (hmade.create .normal (some block)).continueAt _

end Draft

/-! ## Expressions -/

open Draft (Drawn)
open Element (shortCircuits)

/-- The branches that drawing an expression adds, and the short circuits among its elements, are its
decisions. -/
def Expr.Decides (e : Expr) : Prop :=
  ∀ {scope : Scope} {d : Draft}, d.Steady → scope.Fits d →
    (e.draw scope d).decided + shortCircuits e.elements = d.decided + e.decisions

section Expressions

variable {scope : Scope} {d : Draft}

theorem Expr.decides_option_of {e : Option Expr} (ih : ∀ e', e = some e' → e'.Decides)
    (hd : d.Steady) (hfit : scope.Fits d) :
    (Expr.drawOption scope e d).decided + shortCircuits (Expr.elementsOption e) =
      d.decided + Expr.decisionsOption e := by
  cases e with
  | none =>
    rw [Expr.drawOption, Expr.elementsOption, Expr.decisionsOption, Element.shortCircuits_nil]
  | some e =>
    rw [Expr.drawOption, Expr.elementsOption, Expr.decisionsOption]
    exact ih e rfl hd hfit

theorem Expr.decides_all_of {es : List Expr} (ih : ∀ e ∈ es, e.Decides) (hd : d.Steady)
    (hfit : scope.Fits d) :
    (Expr.drawAll scope es d).decided + shortCircuits (Expr.elementsAll es) =
      d.decided + Expr.decisionsAll es := by
  induction es generalizing d with
  | nil => rw [Expr.drawAll, Expr.elementsAll, Expr.decisionsAll, Element.shortCircuits_nil]
  | cons e es ihs =>
    obtain ⟨hd₁, hfit₁⟩ := e.settled hd hfit
    have he := ih e List.mem_cons_self hd hfit
    have hes := ihs (fun e' hm => ih e' (List.mem_cons_of_mem _ hm)) hd₁ hfit₁
    rw [Expr.drawAll, Expr.elementsAll, Expr.decisionsAll, Element.shortCircuits_append]
    omega

/-- A conditional expression adds the one decision of its test. -/
theorem Expr.decides_cond {test cons alt : Expr} (span : Span) (iht : test.Decides)
    (ihc : cons.Decides) (iha : alt.Decides) : (Expr.cond test cons alt span).Decides := by
  intro scope d hd hfit
  rw [Expr.draw_cond, Expr.elements, Expr.decisions, Element.shortCircuits_append,
    Element.shortCircuits_append]
  obtain ⟨hdt, hfitt⟩ := test.settled hd hfit
  have ht := iht hd hfit
  generalize test.draw scope d = dt at *
  have h : Draft.CondDrawn scope dt _ _ cons.span alt.span test.span :=
    .of_parts hdt hfitt (fun hd hfit => (cons.faithful hd hfit).drawn)
      fun hd hfit => (alt.faithful hd hfit).drawn
  have hc := ihc h.opened.steady h.fits_cons
  have ha := iha h.turned.steady h.fits_alt
  have hopen := Draft.decided_openCond hdt cons.span alt.span test.span
  dsimp only
  generalize cons.draw scope (dt.openCond cons.span alt.span test.span) = dc at *
  rw [Draft.decided_start, Draft.decided_fallInto h.after_cons.steady] at ha
  rw [Draft.decided_continueAt h.after_alt.steady]
  omega

/-- Every expression takes its decisions. -/
theorem Expr.decides (e : Expr) : e.Decides := by
  induction e using Expr.induct with
  | name ident span | this span | literal value span | lambda span =>
    intro scope d hd hfit
    rw [Expr.draw, Expr.elements, Expr.decisions, Draft.decided_emit hd,
      Element.shortCircuits_plain rfl]
  | binary op left right span ihl ihr =>
    intro scope d hd hfit
    obtain ⟨hd₁, hfit₁⟩ := left.settled hd hfit
    obtain ⟨hd₂, _⟩ := right.settled hd₁ hfit₁
    have hl := ihl hd hfit
    have hr := ihr hd₁ hfit₁
    rw [Expr.draw, Expr.elements, Expr.decisions, Element.shortCircuits_append,
      Element.shortCircuits_append, Element.shortCircuits_binary, Draft.decided_operator hd₂]
    omega
  | assign op target value span iht ihv =>
    intro scope d hd hfit
    -- A plain name is not drawn as a target, and it takes no decisions either.
    have ht : ∃ d₁, (if target.plainName?.isSome then d else target.draw scope d) = d₁ ∧
        d₁.Steady ∧ scope.Fits d₁ ∧
        d₁.decided + shortCircuits (if target.plainName?.isSome then [] else target.elements) =
          d.decided + target.decisions := by
      refine ⟨_, rfl, ?_⟩
      split
      · rename_i hplain
        rw [Expr.decisions_of_plainName hplain]
        exact ⟨hd, hfit, rfl⟩
      · obtain ⟨hd₁, hfit₁⟩ := target.settled hd hfit
        exact ⟨hd₁, hfit₁, iht hd hfit⟩
    obtain ⟨d₁, he, hd₁, hfit₁, htarget⟩ := ht
    obtain ⟨hd₂, _⟩ := value.settled hd₁ hfit₁
    have hvalue := ihv hd₁ hfit₁
    rw [Expr.draw, Expr.elements, Expr.decisions, he, Element.shortCircuits_append,
      Element.shortCircuits_append, Element.shortCircuits_plain (e := ⟨.assignment _ op, span⟩) rfl]
    have hop := Draft.decided_operator hd₂ (.assignment target.plainName? op) span scope op.mayThrow
    omega
  | cond test cons alt span iht ihc iha => exact Expr.decides_cond span iht ihc iha
  | call receiver method args throws span ihr iha =>
    intro scope d hd hfit
    obtain ⟨hd₁, hfit₁⟩ := Expr.settled_option receiver hd hfit
    obtain ⟨hd₂, _⟩ := Expr.settled_all args hd₁ hfit₁
    have hr := Expr.decides_option_of ihr hd hfit
    have ha := Expr.decides_all_of iha hd₁ hfit₁
    rw [Expr.draw, Expr.elements, Expr.decisions, Draft.decided_emit_raise hd₂,
      Element.shortCircuits_append, Element.shortCircuits_append, Element.shortCircuits_plain rfl]
    omega
  | new cls args throws span ih =>
    intro scope d hd hfit
    obtain ⟨hd₁, _⟩ := Expr.settled_all args hd hfit
    rw [Expr.draw, Expr.elements, Expr.decisions, Draft.decided_emit_raise hd₁,
      Element.shortCircuits_append, Element.shortCircuits_plain rfl]
    exact Expr.decides_all_of ih hd hfit
  | newArray elem dims init span ihd ihi =>
    intro scope d hd hfit
    obtain ⟨hd₁, hfit₁⟩ := Expr.settled_all dims hd hfit
    obtain ⟨hd₂, _⟩ := Expr.settled_all init hd₁ hfit₁
    have hdims := Expr.decides_all_of ihd hd hfit
    have hinit := Expr.decides_all_of ihi hd₁ hfit₁
    rw [Expr.draw, Expr.elements, Expr.decisions, Draft.decided_emit_raise hd₂,
      Element.shortCircuits_append, Element.shortCircuits_append, Element.shortCircuits_plain rfl]
    omega
  | index array offset span iha iho =>
    intro scope d hd hfit
    obtain ⟨hd₁, hfit₁⟩ := array.settled hd hfit
    obtain ⟨hd₂, _⟩ := offset.settled hd₁ hfit₁
    have ha := iha hd hfit
    have ho := iho hd₁ hfit₁
    rw [Expr.draw, Expr.elements, Expr.decisions, Draft.decided_emit_raise hd₂,
      Element.shortCircuits_append, Element.shortCircuits_append, Element.shortCircuits_plain rfl]
    omega
  | member inner _ span ih | cast _ inner span ih =>
    intro scope d hd hfit
    obtain ⟨hd₁, _⟩ := inner.settled hd hfit
    rw [Expr.draw, Expr.elements, Expr.decisions, Draft.decided_emit_raise hd₁,
      Element.shortCircuits_append, Element.shortCircuits_plain rfl]
    exact ih hd hfit
  | unary _ inner span ih | instanceOf inner _ span ih =>
    intro scope d hd hfit
    obtain ⟨hd₁, _⟩ := inner.settled hd hfit
    rw [Expr.draw, Expr.elements, Expr.decisions, Draft.decided_emit hd₁,
      Element.shortCircuits_append, Element.shortCircuits_plain rfl]
    exact ih hd hfit
  | paren inner span ih =>
    intro scope d hd hfit
    rw [Expr.draw, Expr.elements, Expr.decisions]
    exact ih hd hfit

theorem Expr.decides_option (e : Option Expr) (hd : d.Steady) (hfit : scope.Fits d) :
    (Expr.drawOption scope e d).decided + shortCircuits (Expr.elementsOption e) =
      d.decided + Expr.decisionsOption e :=
  Expr.decides_option_of (fun e _ => e.decides) hd hfit

/-- The decisions of expressions, short circuits apart, are branches that were drawn. -/
theorem Expr.decides_all (es : List Expr) (hd : d.Steady) (hfit : scope.Fits d) :
    (Expr.drawAll scope es d).decided + shortCircuits (Expr.elementsAll es) =
      d.decided + Expr.decisionsAll es :=
  Expr.decides_all_of (fun e _ => e.decides) hd hfit

end Expressions

/-! ## Statements -/

/-- The branches that drawing a statement adds, and the short circuits among its elements, are its
decisions. -/
def Stmt.Decides (s : Stmt) : Prop :=
  ∀ {scope : Scope} {labels : List String} {d d' : Draft}, d.Steady → scope.Fits d →
    s.draw scope labels d = .ok d' → d'.decided + shortCircuits s.elements = d.decided + s.decisions

section Lists

variable {scope : Scope} {d d' : Draft}

theorem LocalVar.decides (decl : LocalVar) (hd : d.Steady) (hfit : scope.Fits d) :
    (decl.draw scope d).decided + shortCircuits decl.elements = d.decided + decl.decisions := by
  obtain ⟨hd₁, _⟩ := Expr.settled_option decl.init hd hfit
  rw [LocalVar.draw, LocalVar.elements, Draft.decided_emit hd₁, Element.shortCircuits_append,
    Element.shortCircuits_plain rfl]
  exact Expr.decides_option decl.init hd hfit

theorem LocalVar.decides_resources (decls : List LocalVar) (hd : d.Steady) (hfit : scope.Fits d) :
    (LocalVar.drawResources scope decls d).decided + shortCircuits (decls.flatMap (·.elements)) =
      d.decided + (decls.map (·.decisions)).sum := by
  induction decls generalizing d with
  | nil => rfl
  | cons decl decls ih =>
    have hp := decl.part hd hfit
    have hraise := Draft.Part.raise hp.drawn.steady (hp.fits hd hfit) (Draft.current_emit ..)
      [Throwable.exception]
    have hdecl := decl.decides hd hfit
    have hrest := ih hraise.drawn.steady (hraise.fits hp.drawn.steady (hp.fits hd hfit))
    rw [Draft.decided_raise] at hrest
    rw [LocalVar.drawResources, List.flatMap_cons, Element.shortCircuits_append, List.map_cons,
      List.sum_cons]
    omega

/-- Statements drawn one after another decide what they decide in the text. -/
theorem Stmt.decides_all_of {stmts : List Stmt} (ih : ∀ s ∈ stmts, s.Decides) (hd : d.Steady)
    (hfit : scope.Fits d) (h : Stmt.drawAll stmts scope d = .ok d') :
    d'.decided + shortCircuits (Stmt.elementsAll stmts) = d.decided + Stmt.decisionsAll stmts := by
  induction stmts generalizing d with
  | nil =>
    rw [Stmt.drawAll] at h
    cases h
    rw [Stmt.elementsAll, Stmt.decisionsAll, Element.shortCircuits_nil]
  | cons s stmts ihs =>
    rw [Stmt.drawAll] at h
    obtain ⟨d₁, h₁, h⟩ := Except.of_bind_ok h
    have hp := s.draws h₁ hd hfit
    have hs := ih s List.mem_cons_self hd hfit h₁
    have hrest := ihs (fun s hm => ih s (List.mem_cons_of_mem _ hm)) hp.steady
      (hp.fits hd hfit fun _ _ hid => hid) h
    rw [Stmt.elementsAll, Stmt.decisionsAll, Element.shortCircuits_append]
    omega

/-- The values of the groups have been decided on already. -/
theorem CaseGroup.decides_all_of {groups : List CaseGroup} {block after : BlockId}
    (ih : ∀ group ∈ groups, ∀ s ∈ group.body, s.Decides)
    (hr : CaseGroup.Ready scope groups block after d)
    (h : CaseGroup.drawAll groups scope block after d = .ok d') :
    d'.decided + shortCircuits (CaseGroup.elementsAll groups) + (groups.map (·.valueCount)).sum =
      d.decided + CaseGroup.decisionsAll groups := by
  induction groups generalizing d block with
  | nil =>
    rw [CaseGroup.drawAll] at h
    cases h
    rw [CaseGroup.elementsAll, CaseGroup.decisionsAll]
    rfl
  | cons group groups ihg =>
    rw [CaseGroup.drawAll_cons] at h
    obtain ⟨d₁, h₁, h⟩ := Except.of_bind_ok h
    obtain ⟨hs, hp, _, hr'⟩ := hr.step (fun s _ => s.faithful) h₁
    have hbody := Stmt.decides_all_of (ih group List.mem_cons_self) hs hr.fits_opened h₁
    have hrest := ihg (fun g hm => ih g (List.mem_cons_of_mem _ hm)) hr' h
    rw [Draft.decided_continueAt hr.steady] at hbody
    rw [Draft.decided_finishGroup hp.drawn.steady] at hrest
    rw [CaseGroup.elementsAll_cons, CaseGroup.decisionsAll_cons, Element.shortCircuits_append,
      List.map_cons, List.sum_cons]
    omega

/-- Catch clauses add the decisions of their bodies and none of their own. -/
theorem CatchClause.decides_all_of {clauses : List CatchClause} {d₀ : Draft}
    {finalizer : Option BlockId} {block after : BlockId} {W : BlockId → Prop}
    (ih : ∀ clause ∈ clauses, ∀ s ∈ clause.body.stmts, s.Decides)
    (hr : CatchClause.Ready scope d₀ finalizer after clauses block W d)
    (h : CatchClause.drawAll clauses (scope.guarded ⟨[], finalizer⟩) finalizer block after d =
      .ok d') :
    d'.decided + shortCircuits (CatchClause.elementsAll clauses) =
      d.decided + CatchClause.decisionsAll clauses := by
  induction clauses generalizing d block W with
  | nil =>
    rw [CatchClause.drawAll] at h
    cases h
    rw [CatchClause.elementsAll, CatchClause.decisionsAll, Element.shortCircuits_nil]
  | cons clause clauses ihc =>
    rw [CatchClause.drawAll_cons] at h
    obtain ⟨d₁, h₁, h⟩ := Except.of_bind_ok h
    obtain ⟨hs, hp, hr'⟩ := hr.step (fun s _ => s.faithful) h₁
    have hbody := Stmt.decides_all_of (ih clause List.mem_cons_self) hs hr.opened_clause.2 h₁
    have hrest := ihc (fun c hm => ih c (List.mem_cons_of_mem _ hm)) hr' h
    rw [Draft.decided_start] at hbody
    rw [Draft.decided_leaveRegion hp.drawn.steady] at hrest
    rw [CatchClause.elementsAll_cons, CatchClause.decisionsAll_cons, Block.elements,
      Block.decisions, Element.shortCircuits_append, Element.shortCircuits_append,
        Element.shortCircuits_plain rfl]
    omega

/-- A `finally` clause adds the decisions of its body, once. -/
theorem Block.decides_finalizer_of {d₀ : Draft} {finalizer : Option Block} {after block : BlockId}
    {W : BlockId → Prop}
    (hr : CatchClause.Ready scope d₀ (finalizer.map fun _ => after + 1) after [] block W d)
    (ih : ∀ final, finalizer = some final → ∀ s ∈ final.stmts, s.Decides)
    (h : Block.drawFinalizer finalizer scope after d = .ok d') :
    d'.decided + shortCircuits (Block.elementsOption finalizer) = d.decided +
      Block.decisionsOption finalizer := by
  cases finalizer with
  | none =>
    rw [Block.drawFinalizer] at h
    cases h
    rw [Block.elementsOption, Block.decisionsOption, Element.shortCircuits_nil]
  | some final =>
    rw [Block.drawFinalizer_some] at h
    obtain ⟨d₁, h₁, h⟩ := Except.of_bind_ok h
    cases h
    obtain ⟨hs, hfit⟩ := hr.opened_finally
    obtain ⟨_, hp, _⟩ := hr.finally (fun s _ => s.faithful) h₁
    have hbody := Stmt.decides_all_of (ih final rfl) hs.steady hfit h₁
    rw [Draft.decided_start] at hbody
    rw [Draft.decided_leaveFinalizer hp.drawn.steady, Block.elementsOption_some,
      Block.decisionsOption_some]
    exact hbody

end Lists

theorem Stmt.decides_if (test : Expr) {cons : Stmt} {alt : Option Stmt} (span : Span)
    (ihc : cons.Decides) (iha : ∀ s, alt = some s → s.Decides) :
    (Stmt.ifStmt test cons alt span).Decides := by
  intro scope labels d d' hd hfit h
  rw [Stmt.draw_if] at h
  obtain ⟨d₁, h₁, h⟩ := Except.of_bind_ok h
  obtain ⟨d₂, h₂, h⟩ := Except.of_bind_ok h
  cases h
  obtain ⟨hdt, hfitt⟩ := test.settled hd hfit
  have ht := test.decides hd hfit
  generalize test.draw scope d = dt at *
  have hopen := Draft.decided_openIf hdt cons alt test.span
  rw [Stmt.elements, Stmt.decisions, Element.shortCircuits_append, Element.shortCircuits_append]
  cases alt with
  | none =>
    rw [Stmt.drawElse] at h₂
    cases h₂
    have hi := Draft.IfDrawn.of_parts hdt hfitt (cons.draws h₁)
    have hc := ihc hi.opened.steady hi.fits h₁
    rw [Stmt.elementsOption, Stmt.decisionsOption, Draft.decided_continueAt hi.after_cons.steady,
      Element.shortCircuits_nil]
    omega
  | some alt =>
    rw [Stmt.drawElse] at h₂
    have hi := Draft.IfElseDrawn.of_parts hdt hfitt (cons.draws h₁) (alt.draws h₂)
    have hc := ihc hi.opened.steady hi.fits_cons h₁
    have ha := iha alt rfl hi.turned.steady hi.fits_alt h₂
    rw [Draft.decided_turn hi.after_cons.steady] at ha
    rw [Stmt.elementsOption, Stmt.decisionsOption, Draft.decided_continueAt hi.after_alt.steady]
    omega

/-- A `while` loop adds the one decision of its test. -/
theorem Stmt.decides_while (test : Expr) {body : Stmt} (span : Span) (ih : body.Decides) :
    (Stmt.whileStmt test body span).Decides := by
  intro scope labels d d' hd hfit h
  obtain ⟨d₁, h₁, rfl, hw⟩ := Stmt.drawn_while hd hfit h
  have ht := test.decides hw.opened.steady hw.fits_test
  rw [Draft.decided_openHeader hd] at ht
  generalize test.draw scope (d.openHeader (some test.span)) = dt at *
  have hb := ih hw.entered.steady hw.fits_body h₁
  rw [Draft.decided_openBody hw.after_test.steady] at hb
  rw [Stmt.elements, Stmt.decisions, Draft.decided_turn hw.after_body.steady,
    Element.shortCircuits_append]
  omega

theorem Stmt.decides_doWhile {body : Stmt} (test : Expr) (span : Span) (ih : body.Decides) :
    (Stmt.doWhile body test span).Decides := by
  intro scope labels d d' hd hfit h
  obtain ⟨d₁, h₁, rfl, hw⟩ := Stmt.drawn_doWhile hd hfit h
  have hb := ih hw.opened.steady hw.fits_body h₁
  have ht := test.decides hw.turned.steady hw.fits_test
  rw [Draft.decided_openDo hd] at hb
  rw [Draft.decided_continueAt hw.after_body.steady] at ht
  rw [Stmt.elements, Stmt.decisions, Draft.decided_closeDo hw.after_test.steady,
    Element.shortCircuits_append]
  omega

/-- A `for` loop decides at its header if it has a test there. -/
theorem Draft.decides_testFor {scope : Scope} {d : Draft} (hd : d.Steady) (hfit : scope.Fits d)
    (test : Option Expr) (inner after : BlockId) :
    (d.testFor scope test inner after).decided + shortCircuits (Expr.elementsOption test) =
      d.decided + (test.toList.length + Expr.decisionsOption test) := by
  unfold Draft.testFor
  rw [decided_start]
  cases test with
  | none => exact decided_terminate hd _ _ _
  | some test =>
    have ht := test.decides hd hfit
    have hbranch := decided_branch (test.settled hd hfit).1 inner after test.span
    rw [Expr.elementsOption, Expr.decisionsOption, Option.toList_some, List.length_singleton]
    dsimp only
    omega

theorem Draft.decides_updateFor {scope : Scope} {d : Draft} (hd : d.Steady) (hfit : scope.Fits d)
    (update : List Expr) {next : BlockId}
    (hnext : update.isEmpty = false → d.Waiting next ∧ ∀ id, scope.Names id → id ≠ next) :
    (d.updateFor scope update next).decided + shortCircuits (Expr.elementsAll update) =
      d.decided + Expr.decisionsAll update := by
  unfold Draft.updateFor
  split
  · rename_i hempty
    rw [List.isEmpty_iff.mp hempty, Expr.elementsAll, Expr.decisionsAll, Element.shortCircuits_nil]
  · rename_i hempty
    obtain ⟨hw, hnew⟩ := hnext (Bool.eq_false_iff.mpr hempty)
    obtain ⟨hd₁, hfit₁⟩ := hfit.turn hd hw hnew
    rw [Expr.decides_all update hd₁ hfit₁, decided_turn hd]

/-- A `for` loop adds a decision exactly when it has a test. -/
theorem Stmt.decides_for {init : List Stmt} (test : Option Expr) (update : List Expr) {body : Stmt}
    (span : Span) (ihi : ∀ s ∈ init, s.Decides) (ih : body.Decides) :
    (Stmt.forStmt init test update body span).Decides := by
  intro scope labels d d' hd hfit h
  obtain ⟨d₀, d₁, h₀, hinit, h₁, rfl, hw⟩ := Stmt.drawn_for hd hfit h
  have hi := Stmt.decides_all_of ihi hd hfit h₀
  have ht := Draft.decides_testFor hw.made.steady hw.fits_test test (d₀.fresh + 1) (d₀.fresh + 2)
  have hb := ih hw.entered.steady hw.fits_body h₁
  have hu := Draft.decides_updateFor hw.after_body.steady hw.fits_update update hw.next
  have hmake := Draft.decided_makeFor hw.opened.steady (!update.isEmpty) body.span
  have hheader := Draft.decided_openHeader hinit.steady (some (test.elim span (·.span)))
  have hturn := Draft.decided_turn hw.updated.steady .loopBack d₀.fresh (d₀.fresh + 2)
  rw [Stmt.elements, Stmt.decisions, Element.shortCircuits_append, Element.shortCircuits_append,
    Element.shortCircuits_append]
  omega

theorem Stmt.decides_forEach (var : String) (iterable : Expr) {body : Stmt} (span : Span)
    (ih : body.Decides) :
    (Stmt.forEach var iterable body span).Decides := by
  intro scope labels d d' hd hfit h
  obtain ⟨d₁, h₁, rfl, hw⟩ := Stmt.drawn_forEach hd hfit h
  obtain ⟨hdi, _⟩ := iterable.settled hd hfit
  have hi := iterable.decides hd hfit
  generalize iterable.draw scope d = di at *
  have hopen : Drawn scope (di.openHeader (some span)) _ _ :=
    (Drawn.refl hw.opened.steady).openBody body.span iterable.span
  have hb := ih hw.entered.steady hw.fits_body h₁
  rw [Draft.decided_emit hopen.steady, Draft.decided_openBody hw.opened.steady,
    Draft.decided_openHeader hdi] at hb
  rw [Stmt.elements, Stmt.decisions, Draft.decided_turn hw.after_body.steady,
    Element.shortCircuits_append, Element.shortCircuits_append, Element.shortCircuits_plain rfl]
  omega

/-- A switch adds a decision for each value that a group selects. -/
theorem Stmt.decides_switch (selector : Expr) {groups : List CaseGroup} (span : Span)
    (ih : ∀ group ∈ groups, ∀ s ∈ group.body, s.Decides) :
    (Stmt.switch selector groups span).Decides := by
  intro scope labels d d' hd hfit h
  rw [Stmt.draw_switch] at h
  obtain ⟨d₁, h₁, h⟩ := Except.of_bind_ok h
  cases h
  obtain ⟨hds, hfits⟩ := selector.settled hd hfit
  have hs := selector.decides hd hfit
  generalize selector.draw scope d = ds at *
  have hready := CaseGroup.ready_openSwitch hds hfits labels groups selector.span
  have hall := CaseGroup.drawn_all hready (fun _ _ s _ => s.faithful) h₁
  have hgroups := CaseGroup.decides_all_of ih hready h₁
  rw [Draft.decided_openSwitch hds] at hgroups
  rw [Stmt.elements, Stmt.decisions, Draft.decided_continueAt hall.steady,
    Element.shortCircuits_append]
  omega

/-- A `try` statement adds the decisions of its parts and none of its own. -/
theorem Stmt.decides_try (resources : List LocalVar) {block : Block} {catches : List CatchClause}
    {finalizer : Option Block} (span : Span) (ihb : ∀ s ∈ block.stmts, s.Decides)
    (ihc : ∀ clause ∈ catches, ∀ s ∈ clause.body.stmts, s.Decides)
    (ihf : ∀ final, finalizer = some final → ∀ s ∈ final.stmts, s.Decides) :
    (Stmt.tryStmt resources block catches finalizer span).Decides := by
  intro scope labels d d' hd hfit h
  obtain ⟨stmts, blockSpan⟩ := block
  rw [Stmt.draw_try] at h
  obtain ⟨d₁, h₁, h⟩ := Except.of_bind_ok h
  obtain ⟨d₂, h₂, h⟩ := Except.of_bind_ok h
  obtain ⟨d₃, h₃, h⟩ := Except.of_bind_ok h
  cases h
  obtain ⟨hdo, hbody, hready⟩ := CatchClause.Ready.body hd hfit resources (fun s _ => s.faithful) h₁
  have hfito := Draft.fits_openTry hd hfit catches finalizer blockSpan
  have hres := LocalVar.part_resources resources rfl hdo hfito
  obtain ⟨hdone, _⟩ := hready.all (fun _ _ s _ => s.faithful) h₂
  obtain ⟨hended, _⟩ := hdone.drawFinalizer (fun _ _ s _ => s.faithful) h₃
  have hr := LocalVar.decides_resources resources hdo hfito
  have hb := Stmt.decides_all_of ihb hres.drawn.steady (hres.fits hdo hfito) h₁
  dsimp only at hb
  have hc := CatchClause.decides_all_of ihc hready h₂
  have hf := Block.decides_finalizer_of hdone ihf h₃
  rw [Draft.decided_openTry hd] at hr
  rw [Draft.decided_leaveRegion hbody.drawn.steady] at hc
  rw [Stmt.elements, Stmt.decisions, Draft.decided_continueAt hended.steady,
    Element.shortCircuits_append, Element.shortCircuits_append, Element.shortCircuits_append]
  omega

theorem Stmt.decides_labeled (label : String) {body : Stmt} (span : Span) (ih : body.Decides) :
    (Stmt.labeled label body span).Decides := by
  intro scope labels d d' hd hfit h
  rw [Stmt.draw_labeled] at h
  rw [Stmt.elements, Stmt.decisions]
  split at h
  · exact nomatch h
  split at h
  · exact ih hd hfit h
  · obtain ⟨d₁, h₁, h⟩ := Except.of_bind_ok h
    cases h
    have hw := Draft.LabelDrawn.of_parts hd hfit (body.draws h₁)
    rw [Draft.decided_continueAt hw.after_body.steady, ih hw.made.steady hw.fits h₁,
      Draft.decided_create hd]

/-- Every statement takes its decisions. -/
theorem Stmt.decides (s : Stmt) : s.Decides := by
  -- Simple statements only write elements or end a block; the others have lemmas of their own.
  induction s using Stmt.induct with
  | block b ih =>
    intro scope labels d d' hd hfit h
    cases b
    rw [Stmt.draw] at h
    rw [Stmt.elements, Stmt.decisions]
    exact Stmt.decides_all_of ih hd hfit h
  | expr e span =>
    intro scope labels d d' hd hfit h
    rw [Stmt.draw] at h
    cases h
    rw [Stmt.elements, Stmt.decisions]
    exact e.decides hd hfit
  | localVar decl =>
    intro scope labels d d' hd hfit h
    rw [Stmt.draw] at h
    cases h
    rw [Stmt.elements, Stmt.decisions]
    exact decl.decides hd hfit
  | ifStmt test cons alt span ihc iha => exact Stmt.decides_if test span ihc iha
  | whileStmt test body span ih => exact Stmt.decides_while test span ih
  | doWhile body test span ih => exact Stmt.decides_doWhile test span ih
  | forStmt init test update body span ihi ih => exact Stmt.decides_for test update span ihi ih
  | forEach var iterable body span ih => exact Stmt.decides_forEach var iterable span ih
  | switch selector groups span ih => exact Stmt.decides_switch selector span ih
  | tryStmt resources block catches finalizer span ihb ihc ihf =>
    exact Stmt.decides_try resources span ihb ihc ihf
  | labeled label body span ih => exact Stmt.decides_labeled label span ih
  | breakStmt label span | continueStmt label span =>
    intro scope labels d d' hd hfit h
    rw [Stmt.draw] at h
    obtain ⟨target, _, h⟩ := Except.of_bind_ok h
    cases h
    rw [Stmt.elements, Stmt.decisions]
    exact Draft.decided_jump hd rfl _ span
  | returnStmt arg span =>
    intro scope labels d d' hd hfit h
    rw [Stmt.draw] at h
    cases h
    rw [Stmt.elements, Stmt.decisions, ← Expr.decides_option arg hd hfit]
    exact congrArg (· + _) (Draft.decided_jump (Expr.settled_option arg hd hfit).1 rfl _ span)
  | throwStmt arg span =>
    intro scope labels d d' hd hfit h
    rw [Stmt.draw] at h
    cases h
    rw [Stmt.elements, Stmt.decisions, ← arg.decides hd hfit]
    exact congrArg (· + _) (Draft.decided_jump (arg.settled hd hfit).1 rfl _ span)
  | synchronized lock body span ih =>
    intro scope labels d d' hd hfit h
    cases body
    rw [Stmt.draw] at h
    obtain ⟨hd₁, hfit₁⟩ := lock.settled hd hfit
    have hemit : Draft.Part scope [] _ _ _ := .emit hd₁ .synchronized span
    have hl := lock.decides hd hfit
    have hb := Stmt.decides_all_of ih hemit.drawn.steady (hemit.fits hd₁ hfit₁) h
    rw [Draft.decided_emit hd₁] at hb
    dsimp only at hb
    rw [Stmt.elements, Stmt.decisions, Element.shortCircuits_append, Element.shortCircuits_append,
      Element.shortCircuits_plain rfl]
    omega
  | assertStmt _ _ span | empty span =>
    intro scope labels d d' hd hfit h
    rw [Stmt.draw] at h
    cases h
    rw [Stmt.elements, Stmt.decisions, Element.shortCircuits_nil]
  | localClass ident span =>
    intro scope labels d d' hd hfit h
    rw [Stmt.draw] at h
    cases h
    rw [Stmt.elements, Stmt.decisions, Draft.decided_emit hd, Element.shortCircuits_plain rfl]
  | missing span =>
    intro scope labels d d' hd hfit h
    rw [Stmt.draw] at h
    cases h

/-! ## Bodies -/

namespace Graph

variable {types : Subtyping} {body : Block} {d : Draft}

/-- A finished draft decides what the body decides, short circuits apart. -/
theorem decided_draft (h : draft types body = .ok d) :
    d.decided + shortCircuits body.elements = body.decisions := by
  obtain ⟨d₁, h₁, h⟩ := Except.of_bind_ok h
  cases h
  have hd := Draft.steady_begun body.span
  have hfit := Scope.fits_empty types (.begun body.span)
  have hp := Stmt.part_all (fun s _ => s.faithful) hd hfit h₁
  -- Only the exit is closed at the start, and it decides nothing.
  have hbegun : (Draft.begun body.span).decided = 0 := rfl
  have hall := Stmt.decides_all_of (fun s _ => s.decides) hd hfit h₁
  rw [hbegun, Nat.zero_add] at hall
  rw [Draft.decided_fallInto hp.drawn.steady]
  exact hall

/-- The decisions of blocks, apart in those of their terminators and those of their elements. -/
theorem decisions_eq_add (d : Draft) (ids : List BlockId) :
    d.graph.decisions ids =
      (ids.map d.endingDecisions).sum + shortCircuits (ids.flatMap d.graph.elementsOf) := by
  induction ids with
  | nil => rfl
  | cons id ids ih =>
    have hblock : (d.graph.block? id).elim 0 (·.decisions) =
        d.endingDecisions id + shortCircuits (d.graph.elementsOf id) := by
      unfold Draft.endingDecisions elementsOf
      cases d.graph.block? id <;> rfl
    rw [decisions] at ih ⊢
    rw [List.foldr_cons, ih, hblock, List.map_cons, List.sum_cons, List.flatMap_cons,
      Element.shortCircuits_append]
    omega

/-- All blocks of a finished draft together decide what the body decides. -/
theorem decisions_draft (h : draft types body = .ok d) :
    d.graph.decisions d.graph.ids = body.decisions := by
  obtain ⟨_, idle, _⟩ := draft_settled h
  have hopened : d.opened = d.closed.reverse := by
    rw [Draft.opened, idle, Option.toList_none, List.append_nil]
  have hsum : (d.opened.map d.endingDecisions).sum = d.decided := by
    rw [hopened]
    exact ((List.reverse_perm d.closed).map _).sum_nat
  rw [← decisions_perm _ (opened_draft h), decisions_eq_add, hsum, ← decided_draft h,
    ← text_draft h]
  rfl

theorem decisions_filter_le (g : Graph) (p : BlockId → Bool) (ids : List BlockId) :
    g.decisions (ids.filter p) ≤ g.decisions ids := by
  unfold decisions
  induction ids with
  | nil => exact Nat.le_refl _
  | cons id ids ih =>
    rw [List.filter_cons, List.foldr_cons]
    split
    · exact Nat.add_le_add_left ih _
    · exact Nat.le_trans ih (Nat.le_add_left _ _)

/-- The decisions in all blocks of a graph are the decision points of the body. The complexity is no
more than these, and comes up to them if all code is reachable, whatever is known of the types of
exceptions. -/
theorem build_decisions {g : Graph} (hg : build types body = .ok g) :
    g.decisions g.ids = body.decisions ∧ g.complexity ≤ 1 + body.decisions ∧
      (g.reachability.unreachable = [] → g.complexity = 1 + body.decisions) ∧
      ∀ types' g', build types' body = .ok g' → g.reachability.unreachable = [] →
        g'.reachability.unreachable = [] → g'.complexity = g.complexity := by
  have hall : ∀ {types g}, build types body = .ok g → g.decisions g.ids = body.decisions := by
    intro types g hg
    obtain ⟨d, hd, rfl⟩ := exists_draft hg
    exact decisions_draft hd
  have hlive : ∀ {types g}, build types body = .ok g → g.reachability.unreachable = [] →
      g.complexity = 1 + body.decisions := by
    intro types g hg hnone
    rw [complexity, complexityWithin, filter_isReachable hnone, hall hg]
  refine ⟨hall hg, ?_, hlive hg,
    fun types' g' hg' hnone hnone' => (hlive hg' hnone').trans (hlive hg hnone).symm⟩
  rw [← hall hg]
  exact Nat.add_le_add_left (g.decisions_filter_le _ _) 1

/-- Six decisions: a loop, an `if` with a conditional operator and `&&` in its test, and a `switch`
with two values. The `||` of the assertion is not one. -/
def choices : Block where
  stmts :=
    [.doWhile
      (.tryStmt []
        ⟨[.ifStmt
            (.cond (.binary .logicalAnd (.name "a" {}) (.name "b" {}) {}) (.name "c" {})
              (.name "d" {}) {})
            (.switch (.name "k" {})
              [⟨[.case [.literal "1" {}, .literal "2" {}]],
                [.expr (.call none "x" [] ["IOException"] {}) {}], true, {}⟩] {})
            (some (.assertStmt (.binary .logicalOr (.name "p" {}) (.name "q" {}) {}) none {})) {}],
              {}⟩
        [⟨"e", ["IOException"], ⟨[.breakStmt none {}], {}⟩, {}⟩] none {})
      (.name "more" {}) {}]
  span := {}

/-- Six decisions make a complexity of seven, with or without knowing the exceptions. -/
theorem build_decisions_choices :
    choices.decisions = 6 ∧
      ∃ g g', build ClassHierarchy.javaLang.subtyping choices = .ok g ∧
        build ClassHierarchy.empty.subtyping choices = .ok g' ∧ g.complexity = 7 ∧
        g'.complexity = g.complexity := by
  have hsix : choices.decisions = 6 := rfl
  have hlive :
    (build ClassHierarchy.javaLang.subtyping choices).toOption.map (·.reachability.unreachable) =
      some [] := by
    decide +kernel
  have hlive' :
    (build ClassHierarchy.empty.subtyping choices).toOption.map (·.reachability.unreachable) =
      some [] := by
    decide +kernel
  obtain ⟨g, hg⟩ := Except.failure?_eq_none_iff.mp
    ((failure?_build ClassHierarchy.javaLang.subtyping choices).trans rfl)
  obtain ⟨g', hg'⟩ := Except.failure?_eq_none_iff.mp
    ((failure?_build ClassHierarchy.empty.subtyping choices).trans rfl)
  rw [hg] at hlive
  rw [hg'] at hlive'
  obtain ⟨_, _, hcomplexity, hsame⟩ := build_decisions hg
  refine ⟨hsix, g, g', hg, hg', ?_, hsame _ g' hg' (Option.some.inj hlive) (Option.some.inj hlive')⟩
  rw [hcomplexity (Option.some.inj hlive), hsix]

end Graph

end MethodFlow
