import MethodFlow.Build.Expr

/-!
# Drawing statements

A statement is drawn into a draft within a scope. The labels written directly in front of it are
passed along, so that a loop or a `switch` carries them; every other statement gets none. Blocks
take their numbers in the order in which they are made, and a construct makes the blocks it needs
before it draws its parts, so their numbers are known beforehand.

The result is a draft, or the first jump or label that does not resolve, or the first place where
the text could not be read. Main function: `Graph.build`.
-/

namespace MethodFlow

namespace LocalVar

/-- Adds a declaration: its initial value, then the variable. -/
def draw (scope : Scope) (decl : LocalVar) (d : Draft) : Draft :=
  (Expr.drawOption scope decl.init d).emit (.declaration decl.name) decl.span

/-- Adds the declarations of resources. Closing a resource may throw any exception. -/
def drawResources (scope : Scope) : List LocalVar → Draft → Draft
  | [], d => d
  | decl :: decls, d =>
    drawResources scope decls ((decl.draw scope d).raise scope [Throwable.exception])

end LocalVar

namespace CaseGroup

/-- The number of values that lead to a group. -/
def valueCount (group : CaseGroup) : Nat := (group.labels.flatMap (·.values)).length

/-- The blocks that the values of all groups lead to, where `first` is the block of the first group
and the others follow it. -/
def valueTargets : List CaseGroup → BlockId → List BlockId
  | [], _ => []
  | group :: groups, first =>
    List.replicate group.valueCount first ++ valueTargets groups (first + 1)

/-- The block of the last group with a default label. -/
def defaultTarget? : List CaseGroup → BlockId → Option BlockId
  | [], _ => none
  | group :: groups, first =>
    (defaultTarget? groups (first + 1)).or (if group.hasDefault then some first else none)

/-- Makes one block for every group. -/
def createBlocks (groups : List CaseGroup) (d : Draft) : Draft :=
  groups.foldl (fun d group => d.create .caseGroup (some group.span)) d

end CaseGroup

namespace CatchClause

/-- Makes one block for every clause, which starts by declaring the parameter. -/
def createBlocks (clauses : List CatchClause) (d : Draft) : Draft :=
  clauses.foldl
    (fun d clause =>
      (d.create .handler (some clause.span)).modify d.fresh fun b =>
        { b with elements := [⟨.declaration clause.param, clause.span⟩] })
    d

/-- The clauses as targets of exceptions, where `first` is the block of the first one. -/
def targets (clauses : List CatchClause) (first : BlockId) : List CatchTarget :=
  clauses.mapIdx fun index clause => ⟨first + index, clause.types⟩

end CatchClause

namespace Draft

/-- Ends the open block with the choice of a `switch` whose groups have the blocks from `first` on.
Without a default label control goes on after the `switch`. -/
def select (d : Draft) (groups : List CaseGroup) (first after : BlockId) (span : Span) : Draft :=
  let cases := CaseGroup.valueTargets groups first
  let default := some ((CaseGroup.defaultTarget? groups first).getD after)
  d.terminate (.switch cases default) (Terminator.switchEdges cases default) (some span)

/-- An unchecked exception may come from anywhere in a `try` block, so its first block has an edge
to every clause that can receive one. -/
def expectUnchecked (d : Draft) (types : Subtyping) (clauses : List CatchTarget) : Draft :=
  d.addEdges d.openBlock
    ((clauses.filter (·.receivesUnchecked types)).map fun clause => .exceptional clause.entry)

/-- Leaves a block by a route. -/
def jumpVia (d : Draft) (terminator : Terminator) (route : JumpRoute) (span : Span) : Draft :=
  (d.jump terminator [route.edge] span).resumeAt route.resumptions

end Draft

mutual

/-- Adds a statement to a draft. -/
def Stmt.draw : Stmt → Scope → List String → Draft → Except BuildFailure Draft
  | .block ⟨stmts, _⟩, scope, _, d => Stmt.drawAll stmts scope d
  | .expr e _, scope, _, d => .ok (e.draw scope d)
  | .localVar decl, scope, _, d => .ok (decl.draw scope d)
  | .ifStmt test cons alt _, scope, _, d => do
    let d := test.draw scope d
    let onTrue := d.fresh
    let join := onTrue + 1
    let onFalse := alt.elim join fun _ => join + 1
    let d := (d.create .normal (some cons.span)).create .join none
    let d := alt.elim d fun alt => d.create .normal (some alt.span)
    let d ← cons.draw scope [] ((d.branch onTrue onFalse test.span).start onTrue)
    let d ← Stmt.drawElse alt scope join d
    return (d.fallInto join).start join
  | .whileStmt test body _, scope, labels, d => do
    let header := d.fresh
    let d := (d.create .loopHeader (some test.span)).continueAt header
    let d := test.draw scope d
    let inner := d.fresh
    let after := inner + 1
    let d := (d.create .normal (some body.span)).create .normal none
    let d := (d.branch inner after test.span).start inner
    let d ← body.draw (scope.inside labels (.loop header) after) [] d
    return (d.loopBack header).start after
  | .doWhile body test _, scope, labels, d => do
    let header := d.fresh
    let condition := header + 1
    let after := header + 2
    let d := d.create .loopHeader (some body.span)
    let d := d.create .condition (some test.span)
    let d := (d.create .normal none).continueAt header
    let d ← body.draw (scope.inside labels (.loop condition) after) [] d
    let d := test.draw scope (d.continueAt condition)
    return (d.branch header after test.span).start after
  | .forStmt init test update body span, scope, labels, d => do
    let d ← Stmt.drawAll init scope d
    let header := d.fresh
    let inner := header + 1
    let after := header + 2
    let next := if update.isEmpty then header else header + 3
    let d := d.create .loopHeader (some (test.elim span (·.span)))
    let d := d.continueAt header
    let d := (d.create .normal (some body.span)).create .normal none
    let d := if update.isEmpty then d else d.create .normal none
    let d :=
      match test with
      | some test => (test.draw scope d).branch inner after test.span
      | none => d.terminate (.jump inner) [.sequential inner] none
    let d ← body.draw (scope.inside labels (.loop next) after) [] (d.start inner)
    let d :=
      if update.isEmpty then d else Expr.drawAll scope update ((d.loopBack next).start next)
    return (d.loopBack header).start after
  | .forEach var iterable body span, scope, labels, d => do
    let d := iterable.draw scope d
    let header := d.fresh
    let inner := header + 1
    let after := header + 2
    let d := (d.create .loopHeader (some span)).continueAt header
    let d := (d.create .normal (some body.span)).create .normal none
    let d := ((d.branch inner after iterable.span).start inner).emit (.declaration var) span
    let d ← body.draw (scope.inside labels (.loop header) after) [] d
    return (d.loopBack header).start after
  | .switch selector groups _, scope, labels, d => do
    let d := selector.draw scope d
    let after := d.fresh
    let first := after + 1
    let d := CaseGroup.createBlocks groups (d.create .normal none)
    let d := d.select groups first after selector.span
    let d ← CaseGroup.drawAll groups (scope.inside labels .switch after) first after d
    return d.continueAt after
  | .tryStmt resources ⟨stmts, blockSpan⟩ catches finalizer _, scope, _, d => do
    let after := d.fresh
    let finalEntry := finalizer.map fun _ => after + 1
    let first := after + 1 + finalEntry.toList.length
    let clauses := CatchClause.targets catches first
    let inner := first + catches.length
    let d := d.create .normal none
    let d := finalizer.elim d fun block => d.create .finalizer (some block.span)
    let d := CatchClause.createBlocks catches d
    let d := (d.create .normal (some blockSpan)).continueAt inner
    let d := d.expectUnchecked scope.types clauses
    let guarded := scope.guarded ⟨clauses, finalEntry⟩
    let d := LocalVar.drawResources guarded resources d
    let d ← Stmt.drawAll stmts guarded d
    let d := d.leaveRegion finalEntry after
    let d ← CatchClause.drawAll catches (scope.guarded ⟨[], finalEntry⟩) finalEntry first after d
    let d ← Block.drawFinalizer finalizer scope after d
    return d.continueAt after
  | .labeled label body span, scope, labels, d =>
    if labels.contains label || scope.hasLabel label then .error (.duplicateLabel label span.line)
    else if body.carriesLabels then body.draw scope (labels ++ [label]) d
    else do
      let after := d.fresh
      let d ← body.draw (scope.inside (labels ++ [label]) .labeled after) [] (d.create .normal none)
      return d.continueAt after
  | .breakStmt label span, scope, _, d => do
    let target ← scope.breakTarget label span.line
    return d.jumpVia (.breaking target.breakTo) (scope.breakRoute target) span
  | .continueStmt label span, scope, _, d => do
    let (target, continueTo) ← scope.continueTarget label span.line
    return d.jumpVia (.continuing continueTo) (scope.continueRoute target continueTo) span
  | .returnStmt arg span, scope, _, d =>
    let d := Expr.drawOption scope arg d
    .ok (d.jumpVia (.returning arg.isSome) scope.returnRoute span)
  | .throwStmt arg span, scope, _, d =>
    let route := scope.throwRoute (arg.newClass?.getD Throwable.root)
    .ok (((arg.draw scope d).jump .throwing route.edges span).resumeAt route.resumptions)
  | .synchronized lock ⟨stmts, _⟩ span, scope, _, d =>
    Stmt.drawAll stmts scope ((lock.draw scope d).emit .synchronized span)
  -- Assertions are off unless a program is started with them, so they are no part of its flow.
  | .assertStmt _ _ _, _, _, d => .ok d
  | .localClass ident span, _, _, d => .ok (d.emit (.classDecl ident) span)
  | .empty _, _, _, d => .ok d
  | .missing span, _, _, _ => .error (.partialBody span.line)

/-- Adds statements one after the other. -/
def Stmt.drawAll : List Stmt → Scope → Draft → Except BuildFailure Draft
  | [], _, d => .ok d
  | stmt :: stmts, scope, d => do
    let d ← stmt.draw scope [] d
    Stmt.drawAll stmts scope d

/-- Adds the `else` branch of an `if`, whose block is the one after `join`. -/
def Stmt.drawElse : Option Stmt → Scope → (join : BlockId) → Draft → Except BuildFailure Draft
  | none, _, _, d => .ok d
  | some alt, scope, join, d => alt.draw scope [] ((d.goto .sequential join).start (join + 1))

/-- Adds the finalizer of a `try` statement, whose first block is the one after `after`. -/
def Block.drawFinalizer : Option Block → Scope → (after : BlockId) → Draft →
    Except BuildFailure Draft
  | none, _, _, d => .ok d
  | some ⟨stmts, _⟩, scope, after, d => do
    let entry := after + 1
    let d ← Stmt.drawAll stmts scope (d.start entry)
    return d.leaveFinalizer entry after

/-- Adds the groups of a `switch`, where `block` is the block of the first one. -/
def CaseGroup.drawAll : List CaseGroup → Scope → (block after : BlockId) → Draft →
    Except BuildFailure Draft
  | [], _, _, _, d => .ok d
  | ⟨_, body, arrow, _⟩ :: groups, scope, block, after, d => do
    let d ← Stmt.drawAll body scope (d.continueAt block)
    let d := if arrow then d.leaveArrowGroup after else d.endCaseGroup
    CaseGroup.drawAll groups scope (block + 1) after d

/-- Adds the catch clauses of a `try` statement, where `entry` is the block of the first one. -/
def CatchClause.drawAll : List CatchClause → Scope → (finalizer : Option BlockId) →
    (entry after : BlockId) → Draft → Except BuildFailure Draft
  | [], _, _, _, _, d => .ok d
  | ⟨_, _, ⟨stmts, _⟩, _⟩ :: clauses, scope, finalizer, entry, after, d => do
    let d ← Stmt.drawAll stmts scope (d.start entry)
    let d := d.leaveRegion finalizer after
    CatchClause.drawAll clauses scope finalizer (entry + 1) after d

end

section Equations

variable (scope : Scope) (labels : List String) (d : Draft)

/-- A labelled statement passes its label on, or becomes a target of its own. -/
theorem Stmt.draw_labeled (label : String) (body : Stmt) (span : Span) :
    (Stmt.labeled label body span).draw scope labels d =
      if labels.contains label || scope.hasLabel label then .error (.duplicateLabel label span.line)
      else if body.carriesLabels then body.draw scope (labels ++ [label]) d
      else do
        let d₁ ← body.draw (scope.inside (labels ++ [label]) .labeled d.fresh) []
          (d.create .normal none)
        return d₁.continueAt d.fresh := by
  rw [Stmt.draw]

theorem CaseGroup.drawAll_cons (group : CaseGroup) (groups : List CaseGroup)
    (block after : BlockId) :
    CaseGroup.drawAll (group :: groups) scope block after d =
      (do
        let d₁ ← Stmt.drawAll group.body scope (d.continueAt block)
        CaseGroup.drawAll groups scope (block + 1) after
          (if group.arrow then d₁.leaveArrowGroup after else d₁.endCaseGroup)) := by
  cases group
  rw [CaseGroup.drawAll]

theorem CatchClause.drawAll_cons (clause : CatchClause) (clauses : List CatchClause)
    (finalizer : Option BlockId) (entry after : BlockId) :
    CatchClause.drawAll (clause :: clauses) scope finalizer entry after d =
      (do
        let d₁ ← Stmt.drawAll clause.body.stmts scope (d.start entry)
        CatchClause.drawAll clauses scope finalizer (entry + 1) after
          (d₁.leaveRegion finalizer after)) := by
  obtain ⟨_, _, ⟨_, _⟩, _⟩ := clause
  rw [CatchClause.drawAll]

theorem Block.drawFinalizer_some (block : Block) (after : BlockId) :
    Block.drawFinalizer (some block) scope after d =
      (do
        let d₁ ← Stmt.drawAll block.stmts scope (d.start (after + 1))
        return d₁.leaveFinalizer (after + 1) after) := by
  cases block
  rw [Block.drawFinalizer]

end Equations

namespace Graph

/-- Draws a body up to its end, where control runs on into the exit. -/
def draft (types : Subtyping) (body : Block) : Except BuildFailure Draft := do
  let d := Draft.initial.modify entry fun b => { b with span := some body.span }
  let d ← Stmt.drawAll body.stmts { types } d
  return d.fallInto exit

/-- The control flow graph of a body. -/
def build (types : Subtyping) (body : Block) : Except BuildFailure Graph := do
  let d ← draft types body
  d.finish

/-- The control flow graph of a method, if it has a body. -/
def ofMethod? (types : Subtyping) (method : Method) : Option (Except BuildFailure Graph) :=
  method.body.map (build types)

end Graph

end MethodFlow
