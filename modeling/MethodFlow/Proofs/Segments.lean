import MethodFlow.Proofs.Drawn

/-!
# The pieces between the parts of a construct

Between two parts of a construct, drawing makes blocks, closes the open one and goes on in another.
Each such piece is a function on drafts here, and `Stmt.draw_*` say how the drawing of a construct
is put together from them and from the drawings of its parts. For each piece one lemma says, as a
`Drawn` fact, which blocks wait after it. What is proved about a construct later on is proved piece
by piece.
-/

namespace MethodFlow

namespace Draft

/-- Begins a loop: control runs on into its header. -/
def openHeader (d : Draft) (span : Option Span) : Draft :=
  (d.create .loopHeader span).continueAt d.fresh

/-- Branches into a body or past it, and goes on in the body. The block after `d.fresh` is the one
past the body. -/
def openBody (d : Draft) (body test : Span) : Draft :=
  (((d.create .normal (some body)).create .normal none).branch d.fresh (d.fresh + 1)
    test).start d.fresh

/-- Makes the blocks of a conditional operator and goes on with the first branch; the second one and
the join come after it. -/
def openCond (d : Draft) (cons alt test : Span) : Draft :=
  let made := ((d.create .normal (some cons)).create .normal (some alt)).create .join none
  (made.branch d.fresh (d.fresh + 1) test).start d.fresh

/-- Makes the blocks of an `if` and goes on with the first branch; the join comes after it. -/
def openIf (d : Draft) (cons : Stmt) (alt : Option Stmt) (test : Span) : Draft :=
  let made := (d.create .normal (some cons.span)).create .join none
  let made := alt.elim made fun alt => made.create .normal (some alt.span)
  (made.branch d.fresh (alt.elim (d.fresh + 1) fun _ => d.fresh + 2) test).start d.fresh

/-- Sends control to one block and goes on drawing in another. -/
def turn (d : Draft) (kind : EdgeKind) (target next : BlockId) : Draft :=
  (d.goto kind target).start next

/-- Makes the header, the condition and the block after a `do` loop, and goes on in the header. -/
def openDo (d : Draft) (body test : Span) : Draft :=
  (((d.create .loopHeader (some body)).create .condition (some test)).create .normal
    none).continueAt
    d.fresh

/-- Goes back to the header of a `do` loop or on after it. -/
def closeDo (d : Draft) (header after : BlockId) (test : Span) : Draft :=
  (d.branch header after test).start after

/-- Makes the body of a `for` loop, the block after it and, if there are updates, the one for
them. -/
def makeFor (d : Draft) (updates : Bool) (body : Span) : Draft :=
  let made := (d.create .normal (some body)).create .normal none
  if updates then made.create .normal none else made

/-- Tests whether a `for` loop goes on, and goes on in its body. -/
def testFor (d : Draft) (scope : Scope) (test : Option Expr) (inner after : BlockId) : Draft :=
  (match test with
    | some test => (test.draw scope d).branch inner after test.span
    | none => d.terminate (.jump inner) [.sequential inner] none).start inner

/-- Adds the updates of a `for` loop in their own block, if there are any. -/
def updateFor (d : Draft) (scope : Scope) (update : List Expr) (next : BlockId) : Draft :=
  if update.isEmpty then d else Expr.drawAll scope update (d.turn .loopBack next next)

/-- Makes the blocks of a `switch` and selects among them. The block after it comes first. -/
def openSwitch (d : Draft) (groups : List CaseGroup) (selector : Span) : Draft :=
  (CaseGroup.createBlocks groups (d.create .normal none)).select groups (d.fresh + 1)
    d.fresh selector

/-- The blocks of the handlers of a `try` statement, where `after` is the block after it. -/
def handlerAt (after : BlockId) (catches : List CatchClause) (finalizer : Option Block) : Handler :=
  let finalEntry := finalizer.map fun _ => after + 1
  ⟨CatchClause.targets catches (after + 1 + finalEntry.toList.length), finalEntry⟩

/-- The block of the first catch clause of a `try` statement. -/
def firstCatch (after : BlockId) (finalizer : Option Block) : BlockId :=
  after + 1 + (finalizer.map fun _ => after + 1).toList.length

/-- Makes the blocks of a `try` statement: the one after it, that of its `finally` clause and those
of its catch clauses. -/
def makeTry (d : Draft) (catches : List CatchClause) (finalizer : Option Block) : Draft :=
  let made := d.create .normal none
  CatchClause.createBlocks catches
    (finalizer.elim made fun block => made.create .finalizer (some block.span))

/-- Makes the blocks of a `try` statement and goes on in the one for its `try` block. -/
def openTry (d : Draft) (types : Subtyping) (catches : List CatchClause) (finalizer : Option Block)
    (block : Span) : Draft :=
  (((d.makeTry catches finalizer).create .normal (some block)).continueAt
    (firstCatch d.fresh finalizer + catches.length)).expectUnchecked types
      (handlerAt d.fresh catches finalizer).catches

theorem fallInto_start (d : Draft) (next : BlockId) :
    (d.fallInto next).start next = d.continueAt next := by
  rw [start_of_none (by simp)]
  rfl

end Draft

/-! ## How the constructs are put together -/

section Equations

variable (scope : Scope) (labels : List String) (d : Draft)

theorem Expr.draw_cond (test cons alt : Expr) (span : Span) :
    (Expr.cond test cons alt span).draw scope d =
      let dt := test.draw scope d
      let d₁ := cons.draw scope (dt.openCond cons.span alt.span test.span)
      (alt.draw scope ((d₁.fallInto (dt.fresh + 2)).start (dt.fresh + 1))).continueAt
      (dt.fresh + 2) := by
  rw [Expr.draw, Draft.fallInto_start]
  rfl

/-- An `if` statement opens its branches, draws them and joins them. -/
theorem Stmt.draw_if (test : Expr) (cons : Stmt) (alt : Option Stmt) (span : Span) :
    (Stmt.ifStmt test cons alt span).draw scope labels d =
      let dt := test.draw scope d
      (do
        let d₁ ← cons.draw scope [] (dt.openIf cons alt test.span)
        let d₂ ← Stmt.drawElse alt scope (dt.fresh + 1) d₁
        return d₂.continueAt (dt.fresh + 1)) := by
  rw [Stmt.draw]
  simp only [Draft.fallInto_start]
  rfl

/-- A `while` loop draws its test in the header and goes back there after the body. -/
theorem Stmt.draw_while (test : Expr) (body : Stmt) (span : Span) :
    (Stmt.whileStmt test body span).draw scope labels d =
      let dt := test.draw scope (d.openHeader (some test.span))
      let after := dt.fresh + 1
      (do
        let d₁ ← body.draw (scope.inside labels (.loop d.fresh) after) []
          (dt.openBody body.span test.span)
        return d₁.turn .loopBack d.fresh after) := by
  rw [Stmt.draw]
  rfl

theorem Stmt.draw_doWhile (body : Stmt) (test : Expr) (span : Span) :
    (Stmt.doWhile body test span).draw scope labels d =
      let after := d.fresh + 2
      (do
        let d₁ ← body.draw (scope.inside labels (.loop (d.fresh + 1)) after) []
          (d.openDo body.span test.span)
        return (test.draw scope (d₁.continueAt (d.fresh + 1))).closeDo d.fresh after
          test.span) := by
  rw [Stmt.draw]
  rfl

/-- A `for` loop has a header, a body, what follows, and a block for its updates if any. -/
theorem Stmt.draw_for (init : List Stmt) (test : Option Expr) (update : List Expr) (body : Stmt)
    (span : Span) :
    (Stmt.forStmt init test update body span).draw scope labels d =
      (do
        let d₀ ← Stmt.drawAll init scope d
        let header := d₀.fresh
        let after := header + 2
        let next := if update.isEmpty then header else header + 3
        let dh :=
          (d₀.openHeader (some (test.elim span (·.span)))).makeFor (!update.isEmpty) body.span
        let d₁ ← body.draw (scope.inside labels (.loop next) after) []
          (dh.testFor scope test (header + 1) after)
        return (d₁.updateFor scope update next).turn .loopBack header after) := by
  rw [Stmt.draw]
  cases update <;> rfl

theorem Stmt.draw_forEach (var : String) (iterable : Expr) (body : Stmt) (span : Span) :
    (Stmt.forEach var iterable body span).draw scope labels d =
      let header := (iterable.draw scope d).fresh
      let dh := (iterable.draw scope d).openHeader (some span)
      (do
        let d₁ ← body.draw (scope.inside labels (.loop header) (header + 2)) []
          ((dh.openBody body.span iterable.span).emit (.declaration var) span)
        return d₁.turn .loopBack header (header + 2)) := by
  rw [Stmt.draw]
  simp only [Draft.openBody, Draft.openHeader, Draft.fresh_continueAt, Draft.fresh_create]
  rfl

theorem Stmt.draw_switch (selector : Expr) (groups : List CaseGroup) (span : Span) :
    (Stmt.switch selector groups span).draw scope labels d =
      let ds := selector.draw scope d
      (do
        let d₁ ← CaseGroup.drawAll groups (scope.inside labels .switch ds.fresh)
          (ds.fresh + 1) ds.fresh
          (ds.openSwitch groups selector.span)
        return d₁.continueAt ds.fresh) := by
  rw [Stmt.draw]
  rfl

/-- A `try` statement is drawn in three stages, in this order. -/
theorem Stmt.draw_try (resources : List LocalVar) (stmts : List Stmt) (block : Span)
    (catches : List CatchClause) (finalizer : Option Block) (span : Span) :
    (Stmt.tryStmt resources ⟨stmts, block⟩ catches finalizer span).draw scope labels d =
      let handler := Draft.handlerAt d.fresh catches finalizer
      (do
        let d₁ ← Stmt.drawAll stmts (scope.guarded handler)
          (LocalVar.drawResources (scope.guarded handler) resources
            (d.openTry scope.types catches finalizer block))
        let d₂ ← CatchClause.drawAll catches (scope.guarded ⟨[], handler.finalizer⟩)
          handler.finalizer
          (Draft.firstCatch d.fresh finalizer) d.fresh (d₁.leaveRegion handler.finalizer d.fresh)
        let d₃ ← Block.drawFinalizer finalizer scope d.fresh d₂
        return d₃.continueAt d.fresh) := by
  rw [Stmt.draw]
  rfl

end Equations

/-! ## What waits after each piece -/

namespace CaseGroup

theorem mem_valueTargets {groups : List CaseGroup} {first id : BlockId}
    (h : id ∈ valueTargets groups first) : first ≤ id ∧ id < first + groups.length := by
  induction groups generalizing first with
  | nil => exact nomatch h
  | cons group groups ih =>
    rw [List.length_cons]
    rcases List.mem_append.mp h with h | h
    · rw [List.eq_of_mem_replicate h]
      exact ⟨Nat.le_refl _, Nat.lt_add_of_pos_right (Nat.succ_pos _)⟩
    · obtain ⟨hl, hr⟩ := ih h
      grind

theorem defaultTarget?_range {groups : List CaseGroup} {first id : BlockId}
    (h : defaultTarget? groups first = some id) : first ≤ id ∧ id < first + groups.length := by
  induction groups generalizing first with
  | nil => exact nomatch h
  | cons group groups ih =>
    rw [List.length_cons]
    rcases Option.or_eq_some_iff.mp h with h | ⟨_, h⟩
    · obtain ⟨hl, hr⟩ := ih h
      grind
    · split at h
      · rw [← Option.some.inj h]
        exact ⟨Nat.le_refl _, Nat.lt_add_of_pos_right (Nat.succ_pos _)⟩
      · exact nomatch h

end CaseGroup

theorem Terminator.mem_switchEdges {cases : List BlockId} {default : Option BlockId} {e : Edge}
    (h : e ∈ switchEdges cases default) : e.target ∈ cases ∨ default = some e.target := by
  rcases List.mem_append.mp h with h | h
  · obtain ⟨i, hi, rfl⟩ := List.mem_mapIdx.mp h
    exact Or.inl (List.getElem_mem hi)
  · obtain ⟨target, ht, rfl⟩ := List.mem_map.mp h
    exact Or.inr (Option.mem_toList.mp ht)

/-- Clauses are entered in blocks numbered in a row. -/
theorem CatchClause.mem_targets {clauses : List CatchClause} {first : BlockId} {c : CatchTarget}
    (h : c ∈ targets clauses first) : first ≤ c.entry ∧ c.entry < first + clauses.length := by
  obtain ⟨i, hi, rfl⟩ := List.mem_mapIdx.mp h
  exact ⟨Nat.le_add_right _ _, Nat.add_lt_add_left hi first⟩

namespace Draft

/-- The blocks of the handlers of a `try` statement lie between the block after it and the one for
its `try` block. -/
theorem hasEntry_handlerAt {after id : BlockId} {catches : List CatchClause}
    {finalizer : Option Block} (h : (handlerAt after catches finalizer).HasEntry id) :
    after < id ∧ id < firstCatch after finalizer + catches.length := by
  unfold firstCatch
  rcases h with ⟨c, hc, rfl⟩ | h
  · obtain ⟨hl, hr⟩ := CatchClause.mem_targets hc
    grind
  · cases finalizer with
    | none => exact nomatch h
    | some block =>
      cases h
      simp only [Option.map_some, Option.toList_some, List.length_singleton]
      grind

theorem lt_firstCatch (after : BlockId) (finalizer : Option Block) :
    after < firstCatch after finalizer := by
  unfold firstCatch
  grind

theorem firstCatch_le_handlerAt {after : BlockId} {catches : List CatchClause}
    {finalizer : Option Block} {c : CatchTarget}
    (hc : c ∈ (handlerAt after catches finalizer).catches) :
    firstCatch after finalizer ≤ c.entry :=
  (CatchClause.mem_targets hc).1

/-- The `finally` clause comes first among the handlers. -/
theorem finalizer_handlerAt {after entry : BlockId} {catches : List CatchClause}
    {finalizer : Option Block} (h : (handlerAt after catches finalizer).finalizer = some entry) :
    entry = after + 1 ∧ entry < firstCatch after finalizer := by
  cases finalizer with
  | none => exact nomatch h
  | some final =>
    cases h
    refine ⟨rfl, ?_⟩
    simp only [firstCatch, Option.map_some, Option.toList_some, List.length_singleton]
    exact Nat.lt_succ_self _

theorem fresh_createClauses (d : Draft) (clauses : List CatchClause) :
    (CatchClause.createBlocks clauses d).fresh = d.fresh + clauses.length := by
  unfold CatchClause.createBlocks
  induction clauses generalizing d with
  | nil => rfl
  | cons clause clauses ih =>
    rw [List.foldl_cons, ih, fresh_modify, fresh_create, List.length_cons]
    grind

theorem resumptions_createClauses (d : Draft) (clauses : List CatchClause) :
    (CatchClause.createBlocks clauses d).resumptions = d.resumptions := by
  unfold CatchClause.createBlocks
  induction clauses generalizing d with
  | nil => rfl
  | cons clause clauses ih =>
    rw [List.foldl_cons, ih]
    rfl

@[simp] theorem fresh_makeTry (d : Draft) (catches : List CatchClause) (finalizer : Option Block) :
    (d.makeTry catches finalizer).fresh = firstCatch d.fresh finalizer + catches.length := by
  rw [makeTry, fresh_createClauses]
  cases finalizer <;> simp [firstCatch]

@[simp] theorem fresh_openTry (d : Draft) (types : Subtyping) (catches : List CatchClause)
    (finalizer : Option Block) (block : Span) :
    (d.openTry types catches finalizer block).fresh = firstCatch d.fresh finalizer +
      catches.length + 1 := by
  rw [openTry, expectUnchecked, fresh_addEdges, fresh_continueAt, fresh_create, fresh_makeTry]

theorem resumptions_openTry (d : Draft) (types : Subtyping) (catches : List CatchClause)
    (finalizer : Option Block) (block : Span) :
    (d.openTry types catches finalizer block).resumptions = d.resumptions := by
  refine Eq.trans (resumptions_continueAt _ _) (Eq.trans (resumptions_createClauses _ catches) ?_)
  cases finalizer <;> rfl

@[simp] theorem fresh_openHeader (d : Draft) (span : Option Span) :
    (d.openHeader span).fresh = d.fresh + 1 := by
  simp [openHeader]

/-- The header of a loop is marked as one. -/
theorem isLoopHeader_create (d : Draft) (span : Option Span) :
    (d.create .loopHeader span).graph.isLoopHeader d.fresh = true := by
  refine Graph.isLoopHeader_eq_true_iff.mpr ⟨{ kind := .loopHeader, span }, ?_, rfl⟩
  exact (block?_add d _ _).trans (if_pos rfl)

@[simp] theorem current_openHeader (d : Draft) (span : Option Span) :
    (d.openHeader span).current = some d.fresh := rfl

@[simp] theorem current_turn (d : Draft) (kind : EdgeKind) (target next : BlockId) :
    (d.turn kind target next).current = some next :=
  current_start ..

namespace Drawn

variable {scope : Scope} {d d₁ : Draft} {W : BlockId → Prop}

/-- Opening a header leaves no further block waiting. -/
theorem openHeader (h : Drawn scope d d₁ W) (span : Option Span) :
    Drawn scope d (d₁.openHeader span) W := by
  have hlt : ∀ id, W id → id < d₁.fresh := fun _ hid => h.lt hid
  exact ((h.create .loopHeader span).continueAt d₁.fresh (Or.inr rfl)).congr (by grind)

theorem isLoopHeader_openHeader (h : Drawn scope d d₁ W) (span : Option Span) :
    (d₁.openHeader span).graph.isLoopHeader d₁.fresh = true := by
  have hc := h.create .loopHeader span
  have hk : Drawn scope (d₁.create .loopHeader span) (d₁.openHeader span) _ :=
    (Drawn.refl hc.steady).continueAt d₁.fresh ((hc.waiting _).mpr (Or.inr rfl))
  exact (hk.run.extends hc.steady).isLoopHeader (d₁.isLoopHeader_create span)

theorem openBody (h : Drawn scope d d₁ W) (body test : Span) :
    Drawn scope d (d₁.openBody body test) fun id => W id ∨ id = d₁.fresh + 1 := by
  have hlt : ∀ id, W id → id < d₁.fresh := fun _ hid => h.lt hid
  have hmade := (h.create .normal (some body)).create .normal none
  simp only [fresh_create] at hmade
  have hb := hmade.branch d₁.fresh (d₁.fresh + 1) test (hmade.awaits (by grind))
    (hmade.awaits (by grind))
  exact (hb.start d₁.fresh (by simp) (by grind)).congr (by grind)

theorem openCond (h : Drawn scope d d₁ W) (cons alt test : Span) :
    Drawn scope d (d₁.openCond cons alt test)
      fun id => W id ∨ id = d₁.fresh + 1 ∨ id = d₁.fresh + 2 := by
  have hlt : ∀ id, W id → id < d₁.fresh := fun _ hid => h.lt hid
  have hmade := ((h.create .normal (some cons)).create .normal (some alt)).create .join none
  simp only [fresh_create] at hmade
  have hb := hmade.branch d₁.fresh (d₁.fresh + 1) test (hmade.awaits (by grind))
    (hmade.awaits (by grind))
  exact (hb.start d₁.fresh (by simp) (by grind)).congr (by grind)

theorem openIf (h : Drawn scope d d₁ W) (cons : Stmt) (alt : Option Stmt) (test : Span) :
    Drawn scope d (d₁.openIf cons alt test)
      fun id => W id ∨ id = d₁.fresh + 1 ∨ alt.isSome ∧ id = d₁.fresh + 2 := by
  have hlt : ∀ id, W id → id < d₁.fresh := fun _ hid => h.lt hid
  have hmade := (h.create .normal (some cons.span)).create .join none
  simp only [fresh_create] at hmade
  cases alt with
  | none =>
    have hb := hmade.branch d₁.fresh (d₁.fresh + 1) test (hmade.awaits (by grind))
      (hmade.awaits (by grind))
    exact (hb.start d₁.fresh (by simp) (by grind)).congr (by grind)
  | some alt =>
    have hmade := hmade.create .normal (some alt.span)
    simp only [fresh_create] at hmade
    have hb := hmade.branch d₁.fresh (d₁.fresh + 2) test (hmade.awaits (by grind))
      (hmade.awaits (by grind))
    exact (hb.start d₁.fresh (by simp) (by grind)).congr (by grind)

theorem turn (h : Drawn scope d d₁ W) {kind : EdgeKind} {target next : BlockId}
    (hkind : kind = .sequential ∨ kind = .loopBack) (ahead : d₁.Awaits target) (hnext : W next) :
    Drawn scope d (d₁.turn kind target next) fun id => W id ∧ id ≠ next :=
  (h.goto kind target hkind ahead).start next (by simp) hnext

theorem openDo (h : Drawn scope d d₁ W) (body test : Span) :
    Drawn scope d (d₁.openDo body test)
      fun id => W id ∨ id = d₁.fresh + 1 ∨ id = d₁.fresh + 2 := by
  have hlt : ∀ id, W id → id < d₁.fresh := fun _ hid => h.lt hid
  have hmade :=
    ((h.create .loopHeader (some body)).create .condition (some test)).create .normal none
  simp only [fresh_create] at hmade
  exact (hmade.continueAt d₁.fresh (by grind)).congr (by grind)

theorem isLoopHeader_openDo (h : Drawn scope d d₁ W) (body test : Span) :
    (d₁.openDo body test).graph.isLoopHeader d₁.fresh = true := by
  have hc := h.create .loopHeader (some body)
  have hk : Drawn scope (d₁.create .loopHeader (some body)) (d₁.openDo body test) _ :=
    (((Drawn.refl hc.steady).create .condition (some test)).create .normal none).continueAt d₁.fresh
      (Or.inl (Or.inl ((hc.waiting _).mpr (Or.inr rfl))))
  exact (hk.run.extends hc.steady).isLoopHeader (d₁.isLoopHeader_create (some body))

/-- The end of a `do` loop goes back to its header or on. -/
theorem closeDo (h : Drawn scope d d₁ W) {header after : BlockId} (test : Span)
    (ahead : d₁.Awaits header) (hafter : W after) :
    Drawn scope d (d₁.closeDo header after test) fun id => W id ∧ id ≠ after :=
  (h.branch header after test ahead (h.awaits hafter)).start after (by simp) hafter

theorem makeFor (h : Drawn scope d d₁ W) (updates : Bool) (body : Span) :
    Drawn scope d (d₁.makeFor updates body)
      fun id => W id ∨ id = d₁.fresh ∨ id = d₁.fresh + 1 ∨ updates ∧ id = d₁.fresh + 2 := by
  have hmade := (h.create .normal (some body)).create .normal none
  simp only [fresh_create] at hmade
  unfold Draft.makeFor
  split
  · have hmade := hmade.create .normal none
    simp only [fresh_create] at hmade
    exact hmade.congr (by grind)
  · exact hmade.congr (by grind)

/-- Opening a switch leaves its groups and what follows waiting. -/
theorem openSwitch (h : Drawn scope d d₁ W) (groups : List CaseGroup) (selector : Span) :
    Drawn scope d (d₁.openSwitch groups selector)
      fun id => W id ∨ d₁.fresh ≤ id ∧ id < d₁.fresh + 1 + groups.length := by
  have hmade := (h.create .normal none).createGroups groups
  simp only [fresh_create] at hmade
  refine (hmade.terminate (.switch _ _) (fun e he => hmade.awaits ?_) (Or.inl rfl)).congr (by grind)
  rcases Terminator.mem_switchEdges he with ht | ht
  · have hrange := CaseGroup.mem_valueTargets ht
    grind
  -- Without a default label control goes on after the statement.
  · cases hdef : CaseGroup.defaultTarget? groups (d₁.fresh + 1) with
    | none =>
      rw [hdef] at ht
      exact Or.inl (Or.inr (Option.some.inj ht).symm)
    | some id =>
      have hrange := CaseGroup.defaultTarget?_range hdef
      rw [hdef] at ht
      cases ht
      exact Or.inr hrange

theorem makeTry (h : Drawn scope d d₁ W) (catches : List CatchClause) (finalizer : Option Block) :
    Drawn scope d (d₁.makeTry catches finalizer)
      fun id => W id ∨ d₁.fresh ≤ id ∧ id < firstCatch d₁.fresh finalizer + catches.length := by
  have hmade := h.create .normal none
  cases finalizer with
  | none =>
    have hmade := hmade.createClauses catches
    simp only [fresh_create] at hmade
    exact hmade.congr (by grind [firstCatch])
  | some final =>
    have hmade := (hmade.create .finalizer (some final.span)).createClauses catches
    simp only [fresh_create] at hmade
    exact hmade.congr (by grind [firstCatch])

/-- Opening a `try` statement leaves its clauses and what follows waiting. -/
theorem openTry (h : Drawn scope d d₁ W) (types : Subtyping) (catches : List CatchClause)
    (finalizer : Option Block) (block : Span) :
    Drawn scope d (d₁.openTry types catches finalizer block)
      fun id => W id ∨ d₁.fresh ≤ id ∧ id < firstCatch d₁.fresh finalizer + catches.length := by
  have hlt : ∀ id, W id → id < d₁.fresh := fun _ hid => h.lt hid
  have hin := (h.makeTry catches finalizer).create .normal (some block)
  rw [fresh_makeTry] at hin
  have hopen := hin.continueAt (firstCatch d₁.fresh finalizer + catches.length) (Or.inr rfl)
  refine (hopen.expectUnchecked (current_continueAt _ _) types fun c hc => ?_).congr ?_
  · have hrange := hasEntry_handlerAt (Or.inl ⟨c, hc, rfl⟩)
    grind
  · have hle := lt_firstCatch d₁.fresh finalizer
    grind

end Drawn

end Draft

/-! ## Constructs whose parts have the same heads

A `switch` or a `try` statement makes its blocks before its parts are drawn, so these blocks depend
only on what is read off the parts at once: spans, case labels, and the parameters and types of
catch clauses. -/

structure CaseGroup.KeepsHead (f : CaseGroup → CaseGroup) : Prop where
  valueCount : ∀ group, (f group).valueCount = group.valueCount
  hasDefault : ∀ group, (f group).hasDefault = group.hasDefault
  span : ∀ group, (f group).span = group.span

structure CatchClause.KeepsHead (f : CatchClause → CatchClause) : Prop where
  param : ∀ clause, (f clause).param = clause.param
  types : ∀ clause, (f clause).types = clause.types
  span : ∀ clause, (f clause).span = clause.span

namespace CaseGroup.KeepsHead

variable {f : CaseGroup → CaseGroup} (hf : CaseGroup.KeepsHead f) (groups : List CaseGroup)

include hf

theorem valueTargets (first : BlockId) :
    valueTargets (groups.map f) first = CaseGroup.valueTargets groups first := by
  induction groups generalizing first with
  | nil => rfl
  | cons group groups ih =>
    rw [List.map_cons, CaseGroup.valueTargets, CaseGroup.valueTargets, ih, hf.valueCount]

theorem defaultTarget? (first : BlockId) :
    defaultTarget? (groups.map f) first = CaseGroup.defaultTarget? groups first := by
  induction groups generalizing first with
  | nil => rfl
  | cons group groups ih =>
    rw [List.map_cons, CaseGroup.defaultTarget?, CaseGroup.defaultTarget?, ih, hf.hasDefault]

/-- A switch is opened by the heads of its groups only. -/
theorem openSwitch (d : Draft) (selector : Span) :
    d.openSwitch (groups.map f) selector = d.openSwitch groups selector := by
  unfold Draft.openSwitch Draft.select createBlocks
  simp only [hf.valueTargets, hf.defaultTarget?, List.foldl_map, hf.span]

end CaseGroup.KeepsHead

theorem Draft.openIf_map {f : Stmt → Stmt} (hf : ∀ s, (f s).span = s.span) (d : Draft) (cons : Stmt)
    (alt : Option Stmt) (test : Span) :
      d.openIf (f cons) (alt.map f) test = d.openIf cons alt test := by
  cases alt <;> simp only [openIf, hf, Option.map_none, Option.map_some, Option.elim]

theorem Draft.firstCatch_map (f : Block → Block) (after : BlockId) (finalizer : Option Block) :
    firstCatch after (finalizer.map f) = firstCatch after finalizer := by
  cases finalizer <;> rfl

namespace CatchClause.KeepsHead

variable {f : CatchClause → CatchClause} (hf : CatchClause.KeepsHead f) (clauses : List CatchClause)

include hf

theorem targets (first : BlockId) :
    targets (clauses.map f) first = CatchClause.targets clauses first := by
  refine List.ext_getElem (by simp [CatchClause.targets]) fun i hi hi' => ?_
  simp only [CatchClause.targets, List.getElem_mapIdx, List.getElem_map, hf.types]

theorem handlerAt (f' : Block → Block) (after : BlockId) (finalizer : Option Block) :
    Draft.handlerAt after (clauses.map f) (finalizer.map f') =
      Draft.handlerAt after clauses finalizer := by
  simp only [Draft.handlerAt, hf.targets, Option.map_map]
  rfl

/-- A `try` statement is opened by the heads of its clauses only. -/
theorem openTry {f' : Block → Block} (hspan : ∀ block, (f' block).span = block.span) (d : Draft)
    (types : Subtyping) (finalizer : Option Block) (block : Span) :
    d.openTry types (clauses.map f) (finalizer.map f') block =
      d.openTry types clauses finalizer block := by
  unfold Draft.openTry Draft.makeTry createBlocks
  rw [hf.handlerAt, Draft.firstCatch_map, List.length_map, List.foldl_map]
  simp only [hf.span, hf.param]
  cases finalizer with
  | none => rfl
  | some final => simp only [Option.map_some, Option.elim, hspan]

end CatchClause.KeepsHead

end MethodFlow
