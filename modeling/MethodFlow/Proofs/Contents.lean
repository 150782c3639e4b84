import MethodFlow.Proofs.Consistency

/-!
# The text of a draft

`Block.elements` lists the elements of a body in the order in which its text is evaluated, by
recursion on the tree and with no regard to blocks. A draft is read in the order in which its blocks
were opened; what has been written so far is `Draft.text`. Making blocks, closing them and adding
edges leave the text alone, and opening a block adds what the block has already: nothing, except for
a catch clause, whose block has had its parameter from the start.
-/

namespace MethodFlow

/-! ## The elements of a tree -/

mutual

/-- The elements of an expression. A target of an assignment that is a plain name is part of the
assignment. -/
@[simp] def Expr.elements : Expr → List Element
  | .name ident span => [⟨.identifier ident, span⟩]
  | .this span => [⟨.this, span⟩]
  | .literal value span => [⟨.literal value, span⟩]
  | .binary op left right span => left.elements ++ right.elements ++ [⟨.binary op, span⟩]
  | .unary op arg span => arg.elements ++ [⟨.unary op, span⟩]
  | .assign op target value span =>
    (if target.plainName?.isSome then [] else target.elements) ++ value.elements ++
      [⟨.assignment target.plainName? op, span⟩]
  | .cond test cons alt _ => test.elements ++ cons.elements ++ alt.elements
  | .call receiver method args throws span =>
    Expr.elementsOption receiver ++ Expr.elementsAll args ++ [⟨.invocation method throws, span⟩]
  | .new cls args throws span => Expr.elementsAll args ++ [⟨.newClass cls throws, span⟩]
  | .newArray elem dims init span =>
    Expr.elementsAll dims ++ Expr.elementsAll init ++ [⟨.newArray elem, span⟩]
  | .member object field span => object.elements ++ [⟨.fieldAccess field, span⟩]
  | .index array offset span => array.elements ++ offset.elements ++ [⟨.arrayAccess, span⟩]
  | .cast ty e span => e.elements ++ [⟨.typeCast ty, span⟩]
  | .instanceOf e ty span => e.elements ++ [⟨.instanceOf ty, span⟩]
  | .lambda span => [⟨.lambda, span⟩]
  | .paren e _ => e.elements

@[simp] def Expr.elementsOption : Option Expr → List Element
  | none => []
  | some e => e.elements

@[simp] def Expr.elementsAll : List Expr → List Element
  | [] => []
  | e :: es => e.elements ++ Expr.elementsAll es

end

namespace LocalVar

/-- The initial value, then the variable. -/
def elements (decl : LocalVar) : List Element :=
  Expr.elementsOption decl.init ++ [⟨.declaration decl.name, decl.span⟩]

end LocalVar

mutual

/-- The elements of a statement. -/
@[simp] def Stmt.elements : Stmt → List Element
  | .block ⟨stmts, _⟩ => Stmt.elementsAll stmts
  | .expr e _ => e.elements
  | .localVar decl => decl.elements
  | .ifStmt test cons alt _ => test.elements ++ cons.elements ++ Stmt.elementsOption alt
  | .whileStmt test body _ => test.elements ++ body.elements
  | .doWhile body test _ => body.elements ++ test.elements
  | .forStmt init test update body _ =>
    Stmt.elementsAll init ++ Expr.elementsOption test ++ body.elements ++ Expr.elementsAll update
  | .forEach var iterable body span =>
    iterable.elements ++ [⟨.declaration var, span⟩] ++ body.elements
  | .switch selector groups _ => selector.elements ++ CaseGroup.elementsAll groups
  | .tryStmt resources ⟨stmts, _⟩ catches finalizer _ =>
    resources.flatMap (·.elements) ++ Stmt.elementsAll stmts ++ CatchClause.elementsAll catches ++
      Block.elementsOption finalizer
  | .labeled _ body _ => body.elements
  | .returnStmt arg _ => Expr.elementsOption arg
  | .throwStmt arg _ => arg.elements
  | .synchronized lock ⟨stmts, _⟩ span =>
    lock.elements ++ [⟨.synchronized, span⟩] ++ Stmt.elementsAll stmts
  | .localClass ident span => [⟨.classDecl ident, span⟩]
  | .breakStmt _ _ | .continueStmt _ _ | .assertStmt _ _ _ | .empty _ | .missing _ => []

@[simp] def Stmt.elementsAll : List Stmt → List Element
  | [] => []
  | stmt :: stmts => stmt.elements ++ Stmt.elementsAll stmts

@[simp] def Stmt.elementsOption : Option Stmt → List Element
  | none => []
  | some stmt => stmt.elements

@[simp] def Block.elementsOption : Option Block → List Element
  | none => []
  | some ⟨stmts, _⟩ => Stmt.elementsAll stmts

/-- The elements of the groups of a `switch`; the values of their labels have none. -/
@[simp] def CaseGroup.elementsAll : List CaseGroup → List Element
  | [] => []
  | ⟨_, body, _, _⟩ :: groups => Stmt.elementsAll body ++ CaseGroup.elementsAll groups

/-- The elements of catch clauses, each of which begins by declaring its parameter. -/
@[simp] def CatchClause.elementsAll : List CatchClause → List Element
  | [] => []
  | ⟨param, _, ⟨stmts, _⟩, span⟩ :: clauses =>
    ⟨.declaration param, span⟩ :: Stmt.elementsAll stmts ++ CatchClause.elementsAll clauses

end

/-- The elements of a body in the order of evaluation. -/
def Block.elements (body : Block) : List Element := Stmt.elementsAll body.stmts

theorem Block.elementsOption_some (block : Block) :
    Block.elementsOption (some block) = block.elements := by
  cases block
  rw [Block.elementsOption, Block.elements]

theorem CaseGroup.elementsAll_cons (group : CaseGroup) (groups : List CaseGroup) :
    CaseGroup.elementsAll (group :: groups) =
      Stmt.elementsAll group.body ++ CaseGroup.elementsAll groups := by
  cases group
  rw [CaseGroup.elementsAll]

theorem CatchClause.elementsAll_cons (clause : CatchClause) (clauses : List CatchClause) :
    CatchClause.elementsAll (clause :: clauses) =
      [⟨.declaration clause.param, clause.span⟩] ++ clause.body.elements ++
        CatchClause.elementsAll clauses := by
  obtain ⟨_, _, ⟨_, _⟩, _⟩ := clause
  rw [CatchClause.elementsAll]
  rfl

/-! ## The text of a draft -/

/-- The elements of a block, none for a number that is no block. -/
def Graph.elementsOf (g : Graph) (id : BlockId) : List Element := (g.block? id).elim [] (·.elements)

namespace Draft

/-- The blocks that have been opened, first things first. -/
def opened (d : Draft) : List BlockId := d.closed.reverse ++ d.current.toList

/-- What has been written so far. -/
def text (d : Draft) : List Element := d.opened.flatMap d.graph.elementsOf

variable {d d' : Draft}

theorem Steady.opened_lt (hd : d.Steady) {id : BlockId} (h : id ∈ d.opened) : id < d.fresh := by
  rcases List.mem_append.mp h with h | h
  · exact hd.closed_lt id (List.mem_reverse.mp h)
  · exact hd.current_lt id (Option.mem_toList.mp h)

theorem Contains.elementsOf {id : BlockId} {es : List Element} (h : d.Contains id es) :
    d.graph.elementsOf id = es := by
  obtain ⟨b, hb, rfl⟩ := contains_iff.mp h
  rw [Graph.elementsOf, hb]
  rfl

/-- The text depends on the blocks that have been opened only. -/
theorem text_congr (hopened : d'.opened = d.opened)
    (h : ∀ id ∈ d.opened, d'.graph.elementsOf id = d.graph.elementsOf id) : d'.text = d.text := by
  unfold text
  rw [hopened, List.flatMap_def, List.flatMap_def, List.map_congr_left h]

theorem text_add (hd : d.Steady) (b : BasicBlock) : (d.add b).text = d.text := by
  refine text_congr rfl fun id hid => ?_
  rw [Graph.elementsOf, block?_add_of_lt (hd.opened_lt hid)]
  rfl

theorem text_create (hd : d.Steady) (kind : BlockKind) (span : Option Span) :
    (d.create kind span).text = d.text :=
  text_add hd _

/-- Changing blocks otherwise than in their elements leaves the text alone. -/
theorem text_modify (id : BlockId) {f : BasicBlock → BasicBlock}
    (hf : ∀ b, (f b).elements = b.elements) :
    (d.modify id f).text = d.text := by
  refine text_congr rfl fun i _ => ?_
  unfold Graph.elementsOf
  rw [block?_modify]
  split
  · cases d.graph.block? i with
    | none => rfl
    | some b => exact hf b
  · rfl

/-- The text reads the cores of closed and open blocks only. -/
theorem text_of_cores (closed : d'.closed = d.closed) (current : d'.current = d.current)
    (cores : ∀ id, (d'.graph.block? id).map (·.core) = (d.graph.block? id).map (·.core)) :
    d'.text = d.text := by
  refine text_congr (by rw [opened, opened, closed, current]) fun id _ => ?_
  have hcore := congrArg (Option.elim · [] (·.elements)) (cores id)
  unfold Graph.elementsOf
  cases hd' : d'.graph.block? id <;> cases hd : d.graph.block? id <;>
    rw [hd, hd'] at hcore <;> exact hcore

theorem text_resolveDangling (d : Draft) (next : BlockId) :
    (d.resolveDangling next).text = d.text :=
  text_of_cores (by simp) (by simp) (d.core_resolveDangling next)

theorem text_endCaseGroup (d : Draft) : d.endCaseGroup.text = d.text :=
  text_of_cores (by simp) (by simp) d.core_endCaseGroup

theorem text_addEdges (d : Draft) (id : BlockId) (edges : List Edge) :
    (d.addEdges id edges).text = d.text :=
  text_modify id fun _ => rfl

/-- Opening a block adds what it has already. -/
theorem text_start (idle : d.current = none) {next : BlockId} {es : List Element}
    (hc : d.Contains next es) : (d.start next).text = d.text ++ es := by
  rw [start_of_none idle]
  unfold text opened
  rw [idle, Option.toList_none, List.append_nil, Option.toList_some, List.flatMap_append,
    List.flatMap_singleton]
  exact congrArg (d.closed.reverse.flatMap d.graph.elementsOf ++ ·) hc.elementsOf

/-- Starting a block without elements leaves the text as it is. -/
theorem text_start_nil (idle : d.current = none) {next : BlockId} (hc : d.Contains next []) :
    (d.start next).text = d.text := by
  rw [text_start idle hc, List.append_nil]

/-- Closing the open block does not move it. -/
theorem text_sealed {id : BlockId} (isOpen : d.current = some id) (t : Terminator)
    (edges : List Edge) (span : Option Span) : (d.sealed id t edges span).text = d.text := by
  have hopened : (d.sealed id t edges span).opened = d.opened := by
    unfold opened
    rw [isOpen]
    exact (List.append_nil _).trans List.reverse_cons
  rw [← text_modify (d := d) id (f := endBlock t edges span) fun _ => rfl]
  exact text_congr hopened fun _ _ => rfl

theorem text_ensureOpen (hd : d.Steady) : d.ensureOpen.text = d.text := by
  cases hc : d.current with
  | some id => rw [ensureOpen_of_some hc]
  | none =>
    have hnew : (d.add {}).Contains d.fresh [] := d.contains_add {}
    have hidle : ((d.create .normal none).resolveDangling d.fresh).current = none := by
      rw [current_resolveDangling]
      exact hc
    have hnew' : ((d.create .normal none).resolveDangling d.fresh).Contains d.fresh [] := by
      refine hnew.of_waiting (extends_resolveDangling _ _) ((waiting_resolveDangling _ _ _).mpr ?_)
      exact (waiting_add hd _ _).mpr (Or.inr rfl)
    have hstart :
        d.ensureOpen = ((d.create .normal none).resolveDangling d.fresh).start d.fresh := by
      rw [start_of_none hidle, ensureOpen, hc]
    rw [hstart, text_start_nil hidle hnew', text_resolveDangling, text_create hd]

theorem text_terminate (hd : d.Steady) (t : Terminator) (edges : List Edge) (span : Option Span) :
    (d.terminate t edges span).text = d.text := by
  rw [terminate_eq_sealed hd, text_sealed d.current_ensureOpen, text_ensureOpen hd]

theorem text_closeOpen (hd : d.Steady) (t : Terminator) (edges : List Edge) :
    (d.closeOpen t edges).text = d.text := by
  cases hc : d.current with
  | none => rw [closeOpen_of_none hc]
  | some id => rw [closeOpen_of_some hd hc, text_sealed hc]

theorem text_fallInto (hd : d.Steady) (next : BlockId) : (d.fallInto next).text = d.text := by
  rw [fallInto, text_resolveDangling, text_closeOpen hd]

theorem text_goto (hd : d.Steady) (kind : EdgeKind) (target : BlockId) :
    (d.goto kind target).text = d.text := by
  rw [goto, text_resolveDangling, text_closeOpen hd]

/-- An element comes at the end of the text, since it goes to the end of the block opened last. -/
theorem text_emit (hd : d.Steady) (kind : ElementKind) (span : Span) :
    (d.emit kind span).text = d.text ++ [⟨kind, span⟩] := by
  have hsteady := (Run.ensureOpen hd).steady hd
  have hcurrent := d.current_ensureOpen
  rw [emit, ← text_ensureOpen hd]
  generalize d.ensureOpen = d₁ at *
  generalize d.openBlock = id at *
  obtain ⟨b, hb⟩ := Graph.exists_block? (hsteady.current_lt id hcurrent)
  unfold text opened
  rw [show (d₁.modify id _).current = some id from hcurrent, hcurrent, Option.toList_some,
    List.flatMap_append, List.flatMap_append, List.flatMap_singleton, List.flatMap_singleton,
    List.append_assoc]
  congr 1
  · -- The blocks that are closed are not the open one.
    rw [List.flatMap_def, List.flatMap_def]
    congr 1
    refine List.map_congr_left fun i hi => ?_
    have hne : id ≠ i := fun he =>
      hsteady.current_open id hcurrent (he ▸ List.mem_reverse.mp hi)
    rw [Graph.elementsOf, block?_modify, if_neg hne]
    rfl
  · rw [Graph.elementsOf, Graph.elementsOf, block?_modify, if_pos rfl, hb]
    rfl

/-- Raising draws edges, not elements. -/
theorem text_raise (d : Draft) (scope : Scope) (declared : List TypeName) :
    (d.raise scope declared).text = d.text :=
  d.text_addEdges _ _

/-- An element that may throw is appended to the text once. -/
theorem text_emit_raise (hd : d.Steady) (kind : ElementKind) (span : Span) (scope : Scope)
    (declared : List TypeName) :
    ((d.emit kind span).raise scope declared).text = d.text ++ [⟨kind, span⟩] := by
  rw [text_raise, text_emit hd]

theorem text_jump (hd : d.Steady) (t : Terminator) (edges : List Edge) (span : Span) :
    (d.jump t edges span).text = d.text :=
  text_terminate hd t edges (some span)

/-- A jump leaves the text as it is, however many clauses it crosses. -/
theorem text_jumpVia (hd : d.Steady) (t : Terminator) (route : JumpRoute) (span : Span) :
    (d.jumpVia t route span).text = d.text :=
  text_jump hd t _ span

theorem text_leaveRegion (hd : d.Steady) (finalizer : Option BlockId) (after : BlockId) :
    (d.leaveRegion finalizer after).text = d.text := by
  cases finalizer with
  | none => exact text_fallInto hd after
  | some entry =>
    simp only [leaveRegion]
    rw [text_resolveDangling]
    split
    · exact text_closeOpen hd _ _
    · rfl

theorem text_leaveFinalizer (hd : d.Steady) (entry after : BlockId) :
    (d.leaveFinalizer entry after).text = d.text := by
  unfold leaveFinalizer
  split
  · exact text_fallInto hd after
  · exact text_closeOpen hd _ _

theorem text_finishGroup (hd : d.Steady) (group : CaseGroup) (after : BlockId) :
    (group.finish d after).text = d.text := by
  unfold CaseGroup.finish
  split
  · rw [leaveArrowGroup, text_resolveDangling, text_closeOpen hd]
  · exact d.text_endCaseGroup

/-! ## Going on in a blank block -/

section Blank

variable {n next : BlockId}

/-- Going on in a blank block that waits leaves the text as it is. -/
theorem text_continueAt (hd : d.Steady) (hw : d.Waiting next) (hc : d.Contains next []) :
    (d.continueAt next).text = d.text := by
  have hw' := (waiting_fallInto hd next next).mpr hw
  rw [← fallInto_start, text_start_nil (d.current_fallInto next)
    (hc.of_waiting (extends_fallInto hd next) hw'), text_fallInto hd]

theorem text_turn (hd : d.Steady) (kind : EdgeKind) (target : BlockId) (hw : d.Waiting next)
    (hc : d.Contains next []) : (d.turn kind target next).text = d.text := by
  have hw' := (waiting_goto hd kind target next).mpr hw
  rw [turn, text_start_nil (d.current_goto kind target)
    (hc.of_waiting (extends_goto hd kind target) hw'), text_goto hd]

theorem text_terminate_start (hd : d.Steady) (t : Terminator) (edges : List Edge)
    (span : Option Span) (hw : d.Waiting next) (hc : d.Contains next []) :
    ((d.terminate t edges span).start next).text = d.text := by
  have hw' := (waiting_terminate hd t edges span next).mpr hw
  rw [text_start_nil (d.current_terminate t edges span)
    (hc.of_waiting (extends_terminate hd t edges span) hw'), text_terminate hd]

end Blank

/-! ## The pieces between the parts of a construct -/

/-- New blocks were made, and the text has stayed as it was. -/
structure MadeOnly (d₀ d : Draft) : Prop where
  made : Made d₀ d
  text : d.text = d₀.text

namespace MadeOnly

variable {d₀ : Draft}

theorem refl (hd : d.Steady) : MadeOnly d d := ⟨.refl hd, rfl⟩

theorem create (h : MadeOnly d₀ d) (kind : BlockKind) (span : Option Span) :
    MadeOnly d₀ (d.create kind span) :=
  ⟨h.made.create kind span, (text_create h.made.steady kind span).trans h.text⟩

theorem createGroups (h : MadeOnly d₀ d) (groups : List CaseGroup) :
    MadeOnly d₀ (CaseGroup.createBlocks groups d) := by
  unfold CaseGroup.createBlocks
  induction groups generalizing d with
  | nil => exact h
  | cons group groups ih => exact ih (h.create .caseGroup (some group.span))

/-- The block is one of those that were made. -/
theorem blank (h : MadeOnly d₀ d) {id : BlockId} (hle : d₀.fresh ≤ id) (hlt : id < d.fresh) :
    d.Waiting id ∧ d.Contains id [] :=
  ⟨h.made.waiting id hle hlt, h.made.blank id hle (h.made.waiting id hle hlt)⟩

/-- A fork after making blocks adds no text. -/
theorem fork (h : MadeOnly d₀ d) {onTrue : BlockId} (hle : d₀.fresh ≤ onTrue)
    (hlt : onTrue < d.fresh) (onFalse : BlockId) (span : Span) :
    ((d.branch onTrue onFalse span).start onTrue).text = d₀.text := by
  obtain ⟨hw, hc⟩ := h.blank hle hlt
  exact (text_terminate_start h.made.steady _ _ _ hw hc).trans h.text

theorem continueAt (h : MadeOnly d₀ d) {next : BlockId} (hle : d₀.fresh ≤ next)
    (hlt : next < d.fresh) :
    (d.continueAt next).text = d₀.text := by
  obtain ⟨hw, hc⟩ := h.blank hle hlt
  exact (text_continueAt h.made.steady hw hc).trans h.text

end MadeOnly

theorem text_openHeader (hd : d.Steady) (span : Option Span) : (d.openHeader span).text = d.text :=
  ((MadeOnly.refl hd).create _ _).continueAt (Nat.le_refl _) (by simp)

theorem text_openBody (hd : d.Steady) (body test : Span) : (d.openBody body test).text = d.text :=
  (((MadeOnly.refl hd).create _ _).create _ _).fork (Nat.le_refl _) (by grind [fresh_create]) _ _

theorem text_openCond (hd : d.Steady) (cons alt test : Span) :
    (d.openCond cons alt test).text = d.text :=
  ((((MadeOnly.refl hd).create _ _).create _ _).create _ _).fork (Nat.le_refl _)
    (by grind [fresh_create]) _ _

theorem text_openIf (hd : d.Steady) (cons : Stmt) (alt : Option Stmt) (test : Span) :
    (d.openIf cons alt test).text = d.text := by
  have hmade := ((MadeOnly.refl hd).create .normal (some cons.span)).create .join none
  cases alt with
  | none => exact hmade.fork (Nat.le_refl _) (by grind [fresh_create]) _ _
  | some alt =>
    exact (hmade.create .normal (some alt.span)).fork (Nat.le_refl _) (by grind [fresh_create]) _ _

theorem text_openDo (hd : d.Steady) (body test : Span) : (d.openDo body test).text = d.text :=
  ((((MadeOnly.refl hd).create _ _).create _ _).create _ _).continueAt (Nat.le_refl _)
    (by grind [fresh_create])

theorem text_makeFor (hd : d.Steady) (updates : Bool) (body : Span) :
    (d.makeFor updates body).text = d.text := by
  have hmade := ((MadeOnly.refl hd).create .normal (some body)).create .normal none
  cases updates with
  | false => exact hmade.text
  | true => exact (hmade.create .normal none).text

theorem text_openSwitch (hd : d.Steady) (groups : List CaseGroup) (selector : Span) :
    (d.openSwitch groups selector).text = d.text := by
  have hmade := ((MadeOnly.refl hd).create .normal none).createGroups groups
  exact (text_terminate hmade.made.steady _ _ _).trans hmade.text

/-- The parameters of catch clauses are written when the clauses are opened, not when they are
made. -/
theorem text_createClauses (hd : d.Steady) (clauses : List CatchClause) :
    (CatchClause.createBlocks clauses d).text = d.text := by
  unfold CatchClause.createBlocks
  induction clauses generalizing d with
  | nil => rfl
  | cons clause clauses ih =>
    have hadd :=
      Move.steady (.add .handler [⟨.declaration clause.param, clause.span⟩] (some clause.span)) hd
    rw [List.foldl_cons, createClause_eq, ih hadd, text_add hd]

/-- Opening a `try` statement adds no text. -/
theorem text_openTry (hd : d.Steady) (types : Subtyping) (catches : List CatchClause)
    (finalizer : Option Block) (block : Span) :
    (d.openTry types catches finalizer block).text = d.text := by
  have hmade : MadeOnly d (finalizer.elim (d.create .normal none) fun block =>
      (d.create .normal none).create .finalizer (some block.span)) := by
    have hmade := (MadeOnly.refl hd).create .normal none
    cases finalizer with
    | none => exact hmade
    | some block => exact hmade.create .finalizer (some block.span)
  have hclauses := text_createClauses hmade.made.steady catches
  have hsteady := (madeClauses hmade.made.steady catches).steady
  have hin := (MadeOnly.refl hsteady).create .normal (some block)
  have hfresh : (d.makeTry catches finalizer).fresh = firstCatch d.fresh finalizer +
      catches.length :=
    d.fresh_makeTry catches finalizer
  rw [openTry, expectUnchecked, text_addEdges, ← hfresh]
  exact (hin.continueAt (Nat.le_refl _) (by grind [fresh_create])).trans (hclauses.trans hmade.text)

end Draft

end MethodFlow
