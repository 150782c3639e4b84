import MethodFlow.Proofs.Decisions
import MethodFlow.Proofs.Executions

/-!
# Edges and decisions

Outside of `try` statements no element adds an edge. So a block has the edges that its terminator
gives it, one more than the decisions that the terminator takes; only the exit has none.
`Draft.Balanced` says so of a draft, and code without `try` statements keeps it (`Stmt.balances`).

Counting edges over the reachable blocks then gives the cyclomatic number, edges less blocks and two
more. These edges do not leave the reachable part (`Graph.isReachable_target`).

Main result: `Graph.build_complexity_eq_edges_sub_blocks`.
-/

namespace MethodFlow

/-- The edges are different, and one more than the decisions. -/
structure Terminator.Forks (t : Terminator) (edges : List Edge) : Prop where
  nodup : edges.Nodup
  length : edges.length = t.decisions + 1

namespace Terminator

theorem forks_single {t : Terminator} (h : t.decisions = 0) (e : Edge) : t.Forks [e] :=
  ⟨by simp, by rw [h]; rfl⟩

/-- The two edges of a branch are one more than its one decision. -/
theorem forks_branch (onTrue onFalse : BlockId) :
    (branch onTrue onFalse).Forks [⟨.onTrue, onTrue⟩, ⟨.onFalse, onFalse⟩] :=
  ⟨by simp, rfl⟩

theorem forks_switch (cases : List BlockId) (default : BlockId) :
    (switch cases (some default)).Forks (switchEdges cases (some default)) := by
  refine ⟨nodup_switchEdges _ _, ?_⟩
  rw [switchEdges, List.length_append, List.length_mapIdx, List.length_map]
  rfl

end Terminator

namespace Draft

/-- Open blocks have no edges, and a block that has been given its terminator has one edge more than
that takes decisions. Only the exit, which is closed from the start, has none. -/
structure Balanced (d : Draft) : Prop where
  exit : Graph.exit ∈ d.closed
  pending : ∀ id b, d.graph.block? id = some b → id ∉ d.closed → b.successors = []
  ended : ∀ id b, d.graph.block? id = some b → b.terminator = .fallThrough ∧ b.successors = [] ∨
    b.successors.length + (if id = Graph.exit then 1 else 0) = b.terminator.decisions + 1

namespace Balanced

variable {d d' : Draft}

/-- What changes neither the edges nor the terminators of blocks, nor what is closed. -/
theorem of_same (h : d.Balanced) (closed : d'.closed = d.closed)
    (same : ∀ id b, d'.graph.block? id = some b → ∃ b₀, d.graph.block? id = some b₀ ∧
      b.successors = b₀.successors ∧ b.terminator = b₀.terminator) : d'.Balanced := by
  refine ⟨closed ▸ h.exit, fun id b hb hid => ?_, fun id b hb => ?_⟩
  · obtain ⟨b₀, hb₀, hs, _⟩ := same id b hb
    rw [hs]
    exact h.pending id b₀ hb₀ (closed ▸ hid)
  · obtain ⟨b₀, hb₀, hs, ht⟩ := same id b hb
    rw [hs, ht]
    exact h.ended id b₀ hb₀

/-- Balance reads the cores of closed blocks only. -/
theorem of_cores (h : d.Balanced) (closed : d'.closed = d.closed)
    (cores : ∀ id, (d'.graph.block? id).map (·.core) = (d.graph.block? id).map (·.core)) :
      d'.Balanced := by
  refine h.of_same closed fun id b hb => ?_
  obtain ⟨b₀, hb₀, hc⟩ := exists_block?_of_core (cores id) hb
  exact ⟨b₀, hb₀, congrArg (·.successors) hc, congrArg (·.terminator) hc⟩

theorem modify (h : d.Balanced) (id : BlockId) {f : BasicBlock → BasicBlock}
    (successors : ∀ b, (f b).successors = b.successors)
    (terminator : ∀ b, (f b).terminator = b.terminator) :
    (d.modify id f).Balanced := by
  refine h.of_same rfl fun i b hb => ?_
  rw [block?_modify] at hb
  split at hb
  · obtain ⟨b₀, hb₀, rfl⟩ := Option.map_eq_some_iff.mp hb
    exact ⟨b₀, hb₀, successors b₀, terminator b₀⟩
  · exact ⟨b, hb, rfl, rfl⟩

/-- A new block is not closed yet, so it upsets no balance. -/
theorem create (h : d.Balanced) (kind : BlockKind) (span : Option Span) :
    (d.create kind span).Balanced := by
  have new : ∀ {id b}, (d.create kind span).graph.block? id = some b →
      b = { kind, span } ∨ d.graph.block? id = some b := by
    intro id b hb
    rw [Draft.create, Graph.block?_push] at hb
    split at hb
    · exact Or.inl (Option.some.inj hb).symm
    · exact Or.inr hb
  refine ⟨h.exit, fun id b hb hid => ?_, fun id b hb => ?_⟩
  · rcases new hb with rfl | hb
    · rfl
    · exact h.pending id b hb hid
  · rcases new hb with rfl | hb
    · exact Or.inl ⟨rfl, rfl⟩
    · exact h.ended id b hb

/-- A block that is closed now had no edges so far, and it is not the exit. -/
theorem close (h : d.Balanced) (id : BlockId) {t : Terminator} {edges : List Edge}
    (span : Option Span) (hforks : t.Forks edges) : (d.close id t edges span).Balanced := by
  unfold Draft.close
  split
  · exact h.of_cores rfl fun _ => rfl
  rename_i hopen
  have hid : id ∉ d.closed := fun hm => hopen (List.contains_iff_mem.mpr hm)
  have changed : ∀ {i b}, (d.modify id (endBlock t edges span)).graph.block? i = some b →
      i = id ∧ b.successors = edges ∧ b.terminator = t ∨ i ≠ id ∧ d.graph.block? i = some b := by
    intro i b hb
    rw [block?_modify] at hb
    split at hb
    · rename_i heq
      subst heq
      obtain ⟨b₀, hb₀, rfl⟩ := Option.map_eq_some_iff.mp hb
      refine Or.inl ⟨rfl, ?_, rfl⟩
      rw [endBlock, h.pending id b₀ hb₀ hid]
      exact appendAllNew_eq_append (fun _ _ => List.not_mem_nil) hforks.nodup
    · exact Or.inr ⟨fun heq => ‹¬ id = i› heq.symm, hb⟩
  refine ⟨List.mem_cons_of_mem _ h.exit, fun i b hb hi => ?_, fun i b hb => ?_⟩
  · rcases changed hb with ⟨rfl, _⟩ | ⟨_, hb⟩
    · exact absurd List.mem_cons_self hi
    · exact h.pending i b hb fun hm => hi (List.mem_cons_of_mem _ hm)
  · rcases changed hb with ⟨rfl, hs, ht⟩ | ⟨_, hb⟩
    · right
      have hexit : i ≠ Graph.exit := fun heq => hid (heq ▸ h.exit)
      rw [hs, ht, if_neg hexit]
      exact hforks.length
    · exact h.ended i b hb

theorem enter (h : d.Balanced) (id : Option BlockId) : Balanced { d with current := id } :=
  h.of_cores rfl fun _ => rfl

theorem resolve (h : d.Balanced) (next : BlockId) : (d.resolveDangling next).Balanced :=
  h.of_cores (by simp) (d.core_resolveDangling next)

theorem mark (h : d.Balanced) : d.endCaseGroup.Balanced :=
  h.of_cores (by simp) d.core_endCaseGroup

theorem ensureOpen (h : d.Balanced) : d.ensureOpen.Balanced := by
  unfold Draft.ensureOpen
  split
  · exact h
  · exact ((h.create .normal none).resolve d.fresh).enter _

theorem emit (h : d.Balanced) (kind : ElementKind) (span : Span) : (d.emit kind span).Balanced :=
  h.ensureOpen.modify _ (fun _ => rfl) fun _ => rfl

/-- Ending a block keeps balance when its edges are one more than its decisions. -/
theorem terminate (h : d.Balanced) {t : Terminator} {edges : List Edge} (span : Option Span)
    (hforks : t.Forks edges) : (d.terminate t edges span).Balanced :=
  (h.ensureOpen.enter none).close _ span hforks

theorem closeOpen (h : d.Balanced) {t : Terminator} {edges : List Edge} (hforks : t.Forks edges) :
    (d.closeOpen t edges).Balanced := by
  unfold Draft.closeOpen
  split
  · exact (h.enter none).close _ none hforks
  · exact h

theorem start (h : d.Balanced) (id : BlockId) : (d.start id).Balanced := by
  unfold Draft.start
  split
  · exact h.of_cores rfl fun _ => rfl
  · exact h.enter (some id)

theorem fallInto (h : d.Balanced) (next : BlockId) : (d.fallInto next).Balanced :=
  (h.closeOpen (Terminator.forks_single rfl _)).resolve next

theorem continueAt (h : d.Balanced) (next : BlockId) : (d.continueAt next).Balanced :=
  (h.fallInto next).enter (some next)

theorem turn (h : d.Balanced) (kind : EdgeKind) (target next : BlockId) :
    (d.turn kind target next).Balanced :=
  ((h.closeOpen (Terminator.forks_single rfl _)).resolve target).start next

theorem branch (h : d.Balanced) (onTrue onFalse : BlockId) (span : Span) :
    (d.branch onTrue onFalse span).Balanced :=
  h.terminate (some span) (Terminator.forks_branch onTrue onFalse)

theorem jump (h : d.Balanced) {t : Terminator} (ht : t.decisions = 0) (e : Edge) (span : Span) :
    (d.jump t [e] span).Balanced :=
  (h.terminate (some span) (Terminator.forks_single ht e)).of_cores rfl fun _ => rfl

theorem resumeAt (h : d.Balanced) (resumptions : List (BlockId × Edge)) :
    (d.resumeAt resumptions).Balanced :=
  h.of_cores rfl fun _ => rfl

/-- Where nothing receives exceptions, none are expected. -/
theorem raise (h : d.Balanced) {scope : Scope} (hs : scope.handlers = [])
    (declared : List TypeName) :
    (d.raise scope declared).Balanced := by
  have hnone : (scope.raiseRoute declared).edges = [] := by
    rw [Scope.raiseRoute, hs]
    rfl
  unfold Draft.raise
  dsimp only
  rw [hnone]
  exact Balanced.resumeAt (h.modify _ (fun _ => rfl) fun _ => rfl) _

/-! ## Pieces of constructs -/

theorem openHeader (h : d.Balanced) (span : Option Span) : (d.openHeader span).Balanced :=
  (h.create .loopHeader span).continueAt _

theorem openBody (h : d.Balanced) (body test : Span) : (d.openBody body test).Balanced :=
  (((h.create .normal _).create .normal none).branch _ _ test).start _

theorem openCond (h : d.Balanced) (cons alt test : Span) : (d.openCond cons alt test).Balanced :=
  ((((h.create .normal _).create .normal _).create .join none).branch _ _ test).start _

theorem openIf (h : d.Balanced) (cons : Stmt) (alt : Option Stmt) (test : Span) :
    (d.openIf cons alt test).Balanced := by
  have hmade := (h.create .normal (some cons.span)).create .join none
  unfold Draft.openIf
  cases alt with
  | none => exact (hmade.branch _ _ test).start _
  | some alt => exact ((hmade.create .normal _).branch _ _ test).start _

theorem openDo (h : d.Balanced) (body test : Span) : (d.openDo body test).Balanced :=
  (((h.create .loopHeader _).create .condition _).create .normal none).continueAt _

theorem closeDo (h : d.Balanced) (header after : BlockId) (test : Span) :
    (d.closeDo header after test).Balanced :=
  (h.branch header after test).start after

theorem makeFor (h : d.Balanced) (updates : Bool) (body : Span) :
    (d.makeFor updates body).Balanced := by
  have hmade := (h.create .normal (some body)).create .normal none
  cases updates with
  | false => exact hmade
  | true => exact hmade.create .normal none

theorem createGroups (h : d.Balanced) (groups : List CaseGroup) :
    (CaseGroup.createBlocks groups d).Balanced := by
  unfold CaseGroup.createBlocks
  induction groups generalizing d with
  | nil => exact h
  | cons group groups ih => exact ih (h.create .caseGroup _)

theorem openSwitch (h : d.Balanced) (groups : List CaseGroup) (selector : Span) :
    (d.openSwitch groups selector).Balanced :=
  ((h.create .normal none).createGroups groups).terminate (some selector)
  (Terminator.forks_switch _ _)

theorem leaveArrowGroup (h : d.Balanced) (after : BlockId) : (d.leaveArrowGroup after).Balanced :=
  (h.closeOpen (Terminator.forks_single rfl _)).resolve after

end Balanced

end Draft

/-! ## Code outside of `try` statements -/

/-- Drawn in the scope, the expression keeps a draft balanced. -/
def Expr.Balances (scope : Scope) (e : Expr) : Prop :=
  ∀ {d : Draft}, d.Balanced → (e.draw scope d).Balanced

section Expressions

variable {scope : Scope} {d : Draft}

theorem Expr.balanced_option {e : Option Expr} (ih : ∀ e', e = some e' → e'.Balances scope)
    (h : d.Balanced) :
    (Expr.drawOption scope e d).Balanced := by
  cases e with
  | none => simpa only [Expr.drawOption] using h
  | some e => simpa only [Expr.drawOption] using ih e rfl h

/-- Expressions drawn one after another keep balance. -/
theorem Expr.balanced_all {es : List Expr} (ih : ∀ e ∈ es, e.Balances scope) (h : d.Balanced) :
    (Expr.drawAll scope es d).Balanced := by
  induction es generalizing d with
  | nil => simpa only [Expr.drawAll] using h
  | cons e es ihs =>
    rw [Expr.drawAll]
    exact ihs (fun e' he => ih e' (List.mem_cons_of_mem _ he)) (ih e List.mem_cons_self h)

variable (hs : scope.handlers = [])

include hs

/-- An operator that may raise an exception, or not. -/
theorem Draft.Balanced.operator (h : d.Balanced) (kind : ElementKind) (span : Span)
    (mayThrow : Bool) :
    (if mayThrow then (d.emit kind span).raise scope [] else d.emit kind span).Balanced := by
  cases mayThrow with
  | false => exact h.emit kind span
  | true => exact (h.emit kind span).raise hs []

/-- Drawing an expression outside of `try` statements keeps balance. -/
theorem Expr.balances (e : Expr) : e.Balances scope := by
  intro d h
  -- Without handlers nothing is raised, so edges come with the terminators only.
  induction e using Expr.induct generalizing d with
  | name ident span | this span | literal value span | lambda span =>
    rw [Expr.draw]
    exact h.emit _ _
  | binary op left right span ihl ihr =>
    rw [Expr.draw]
    exact (ihr (ihl h)).operator hs _ span op.mayThrow
  | unary op arg span ih =>
    rw [Expr.draw]
    exact (ih h).emit _ _
  | assign op target value span iht ihv =>
    rw [Expr.draw]
    refine (ihv ?_).operator hs _ span op.mayThrow
    split
    · exact h
    · exact iht h
  | cond test cons alt span iht ihc iha =>
    rw [Expr.draw_cond]
    exact (iha (((ihc ((iht h).openCond _ _ _)).fallInto _).start _)).continueAt _
  | call receiver method args throws span ihr iha =>
    rw [Expr.draw]
    exact ((Expr.balanced_all iha (Expr.balanced_option ihr h)).emit _ _).raise hs throws
  | new cls args throws span iha =>
    rw [Expr.draw]
    exact ((Expr.balanced_all iha h).emit _ _).raise hs throws
  | newArray elem dims init span ihd ihi =>
    rw [Expr.draw]
    exact ((Expr.balanced_all ihi (Expr.balanced_all ihd h)).emit _ _).raise hs []
  | member object field span ih =>
    rw [Expr.draw]
    exact ((ih h).emit _ _).raise hs []
  | index array offset span iha iho =>
    rw [Expr.draw]
    exact ((iho (iha h)).emit _ _).raise hs []
  | cast ty inner span ih =>
    rw [Expr.draw]
    exact ((ih h).emit _ _).raise hs []
  | instanceOf inner ty span ih =>
    rw [Expr.draw]
    exact (ih h).emit _ _
  | paren inner span ih =>
    rw [Expr.draw]
    exact ih h

theorem LocalVar.balances (decl : LocalVar) (h : d.Balanced) : (decl.draw scope d).Balanced :=
  (Expr.balanced_option (fun e _ => e.balances hs) h).emit _ _

theorem Draft.Balanced.testFor (h : d.Balanced) (test : Option Expr) (inner after : BlockId) :
    (d.testFor scope test inner after).Balanced := by
  unfold Draft.testFor
  cases test with
  | some test => exact ((test.balances hs h).branch _ _ _).start _
  | none => exact (h.terminate none (Terminator.forks_single rfl _)).start _

theorem Draft.Balanced.updateFor (h : d.Balanced) (update : List Expr) (next : BlockId) :
    (d.updateFor scope update next).Balanced := by
  unfold Draft.updateFor
  split
  · exact h
  · exact Expr.balanced_all (fun e _ => e.balances hs) (h.turn _ _ _)

end Expressions

/-- Drawn outside of all `try` statements, the statement keeps a draft balanced. -/
def Stmt.Balances (s : Stmt) : Prop :=
  ∀ {scope : Scope} {labels : List String} {d d' : Draft}, scope.handlers = [] → d.Balanced →
    s.draw scope labels d = .ok d' → d'.Balanced

section Statements

variable {scope : Scope} {d d' : Draft}

/-- Statements drawn one after another keep balance. -/
theorem Stmt.balanced_all {stmts : List Stmt} (ih : ∀ s ∈ stmts, s.Balances)
    (hs : scope.handlers = []) (hd : d.Balanced) (h : Stmt.drawAll stmts scope d = .ok d') :
      d'.Balanced := by
  induction stmts generalizing d with
  | nil =>
    rw [Stmt.drawAll] at h
    cases h
    exact hd
  | cons s stmts ihs =>
    rw [Stmt.drawAll] at h
    obtain ⟨d₁, h₁, h⟩ := Except.of_bind_ok h
    exact ihs (fun s hm => ih s (List.mem_cons_of_mem _ hm)) (ih s List.mem_cons_self hs hd h₁) h

theorem Stmt.balanced_else {alt : Option Stmt} (ih : ∀ s, alt = some s → s.Balances)
    (hs : scope.handlers = []) {join : BlockId} (hd : d.Balanced)
    (h : Stmt.drawElse alt scope join d = .ok d') : d'.Balanced := by
  cases alt with
  | none =>
    rw [Stmt.drawElse] at h
    cases h
    exact hd
  | some alt =>
    rw [Stmt.drawElse] at h
    exact ih alt rfl hs (hd.turn .sequential join _) h

/-- The body of a loop or of a labeled statement. -/
theorem Stmt.Balances.body {body : Stmt} (ih : body.Balances) (hs : scope.handlers = [])
    (hd : d.Balanced) {labels : List String} {kind : TargetKind} {after : BlockId}
    (h : body.draw (scope.inside labels kind after) [] d = .ok d') : d'.Balanced :=
  ih (show (scope.inside labels kind after).handlers = [] from hs) hd h

theorem CaseGroup.balanced_all {groups : List CaseGroup}
    (ih : ∀ group ∈ groups, ∀ s ∈ group.body, s.Balances) (hs : scope.handlers = [])
    {block after : BlockId} (hd : d.Balanced)
    (h : CaseGroup.drawAll groups scope block after d = .ok d') : d'.Balanced := by
  induction groups generalizing d block with
  | nil =>
    rw [CaseGroup.drawAll] at h
    cases h
    exact hd
  | cons group groups ihs =>
    rw [CaseGroup.drawAll_cons] at h
    obtain ⟨d₁, h₁, h⟩ := Except.of_bind_ok h
    have hbody := Stmt.balanced_all (ih group List.mem_cons_self) hs (hd.continueAt block) h₁
    refine ihs (fun g hg => ih g (List.mem_cons_of_mem _ hg)) ?_ h
    split
    · exact hbody.leaveArrowGroup after
    · exact hbody.mark

end Statements

/-- Code without `try` statements keeps a draft balanced. -/
theorem Stmt.balances {s : Stmt} (h : s.isTryFree = true) : s.Balances := by
  induction s using Stmt.induct with
  | block b ih =>
    intro scope labels d d' hs hd hdraw
    cases b
    rw [Stmt.draw] at hdraw
    exact Stmt.balanced_all (fun s hm => ih s hm (Stmt.isTryFree_of_mem h s hm)) hs hd hdraw
  | expr e span =>
    intro scope labels d d' hs hd hdraw
    rw [Stmt.draw] at hdraw
    cases hdraw
    exact e.balances hs hd
  | localVar decl =>
    intro scope labels d d' hs hd hdraw
    rw [Stmt.draw] at hdraw
    cases hdraw
    exact decl.balances hs hd
  | ifStmt test cons alt span ihc iha =>
    intro scope labels d d' hs hd hdraw
    rw [Stmt.isTryFree, Bool.and_eq_true] at h
    rw [Stmt.draw_if] at hdraw
    obtain ⟨d₁, h₁, hdraw⟩ := Except.of_bind_ok hdraw
    obtain ⟨d₂, h₂, hdraw⟩ := Except.of_bind_ok hdraw
    cases hdraw
    have hcons := ihc h.1 hs ((test.balances hs hd).openIf cons alt test.span) h₁
    refine (Stmt.balanced_else (fun s hm => iha s hm ?_) hs hcons h₂).continueAt _
    subst hm
    exact h.2
  | whileStmt test body span ih =>
    intro scope labels d d' hs hd hdraw
    rw [Stmt.draw_while] at hdraw
    obtain ⟨d₁, h₁, hdraw⟩ := Except.of_bind_ok hdraw
    cases hdraw
    exact (Stmt.Balances.body (ih h) hs ((test.balances hs (hd.openHeader _)).openBody _ _)
      h₁).turn _ _ _
  | doWhile body test span ih =>
    intro scope labels d d' hs hd hdraw
    rw [Stmt.draw_doWhile] at hdraw
    obtain ⟨d₁, h₁, hdraw⟩ := Except.of_bind_ok hdraw
    cases hdraw
    exact
      (test.balances hs ((Stmt.Balances.body (ih h) hs (hd.openDo _ _) h₁).continueAt _)).closeDo _
        _ _
  | forStmt init test update body span ihi ih =>
    intro scope labels d d' hs hd hdraw
    rw [Stmt.isTryFree, Bool.and_eq_true] at h
    rw [Stmt.draw_for] at hdraw
    obtain ⟨d₀, h₀, hdraw⟩ := Except.of_bind_ok hdraw
    obtain ⟨d₁, h₁, hdraw⟩ := Except.of_bind_ok hdraw
    cases hdraw
    have hinit := Stmt.balanced_all (fun s hm => ihi s hm (Stmt.isTryFree_of_mem h.1 s hm)) hs hd h₀
    have hbody :=
      Stmt.Balances.body (ih h.2) hs (((hinit.openHeader _).makeFor _ _).testFor hs test _ _) h₁
    exact (hbody.updateFor hs update _).turn _ _ _
  | forEach var iterable body span ih =>
    intro scope labels d d' hs hd hdraw
    rw [Stmt.draw_forEach] at hdraw
    obtain ⟨d₁, h₁, hdraw⟩ := Except.of_bind_ok hdraw
    cases hdraw
    exact
      (Stmt.Balances.body (ih h) hs
        ((((iterable.balances hs hd).openHeader _).openBody _ _).emit _ _) h₁).turn _ _ _
  | switch selector groups span ih =>
    intro scope labels d d' hs hd hdraw
    rw [Stmt.draw_switch] at hdraw
    obtain ⟨d₁, h₁, hdraw⟩ := Except.of_bind_ok hdraw
    cases hdraw
    have hgroups : ∀ group ∈ groups, ∀ s ∈ group.body, s.Balances := fun group hg s hm =>
      ih group hg s hm (Stmt.isTryFree_of_mem (CaseGroup.areTryFree_of_mem h group hg) s hm)
    have hopen := (selector.balances hs hd).openSwitch groups selector.span
    have hinside : (scope.inside labels .switch (selector.draw scope d).fresh).handlers = [] := hs
    exact (CaseGroup.balanced_all hgroups hinside hopen h₁).continueAt _
  | tryStmt => cases h
  | labeled label body span ih =>
    intro scope labels d d' hs hd hdraw
    rw [Stmt.draw_labeled] at hdraw
    split at hdraw
    · cases hdraw
    split at hdraw
    · exact ih h hs hd hdraw
    · obtain ⟨d₁, h₁, hdraw⟩ := Except.of_bind_ok hdraw
      cases hdraw
      exact (Stmt.Balances.body (ih h) hs (hd.create .normal none) h₁).continueAt _
  | breakStmt label span | continueStmt label span =>
    intro scope labels d d' hs hd hdraw
    rw [Stmt.draw] at hdraw
    obtain ⟨target, _, hdraw⟩ := Except.of_bind_ok hdraw
    cases hdraw
    exact (hd.jump rfl _ span).resumeAt _
  | returnStmt arg span =>
    intro scope labels d d' hs hd hdraw
    rw [Stmt.draw] at hdraw
    cases hdraw
    exact ((Expr.balanced_option (fun e _ => e.balances hs) hd).jump rfl _ span).resumeAt _
  | throwStmt arg span =>
    intro scope labels d d' hs hd hdraw
    rw [Stmt.draw] at hdraw
    cases hdraw
    -- Nothing is in the way of the exception, so it has one edge, to the exit.
    have hroute : ∀ thrown, (scope.throwRoute thrown).edges = [.exceptional Graph.exit] := by
      intro thrown
      rw [Scope.throwRoute, hs]
      rfl
    rw [hroute]
    exact ((arg.balances hs hd).jump rfl _ span).resumeAt _
  | synchronized lock body span ih =>
    intro scope labels d d' hs hd hdraw
    cases body
    rw [Stmt.draw] at hdraw
    have hlock := (lock.balances hs hd).emit .synchronized span
    exact Stmt.balanced_all (fun s hm => ih s hm (Stmt.isTryFree_of_mem h s hm)) hs hlock hdraw
  | assertStmt _ _ span | empty span =>
    intro scope labels d d' hs hd hdraw
    rw [Stmt.draw] at hdraw
    cases hdraw
    exact hd
  | localClass ident span =>
    intro scope labels d d' hs hd hdraw
    rw [Stmt.draw] at hdraw
    cases hdraw
    exact hd.emit _ _
  | missing span =>
    intro scope labels d d' hs hd hdraw
    rw [Stmt.draw] at hdraw
    cases hdraw

/-! ## Edges less blocks -/

namespace Graph

open Element (shortCircuits)

variable {types : Subtyping} {body : Block} {d : Draft}

/-- The draft of a body without `try` statements is balanced. -/
theorem draft_balanced (h : draft types body = .ok d) (hfree : body.isTryFree = true) :
    d.Balanced := by
  obtain ⟨d₁, h₁, h⟩ := Except.of_bind_ok h
  cases h
  have hbegun : (Draft.begun body.span).Balanced := by
    refine ⟨List.mem_cons_self, fun id b hb _ => ?_, fun id b hb => ?_⟩
    · rcases Draft.block?_begun hb with ⟨_, rfl⟩ | ⟨_, rfl⟩ <;> rfl
    · rcases Draft.block?_begun hb with ⟨_, rfl⟩ | ⟨rfl, rfl⟩
      · exact Or.inl ⟨rfl, rfl⟩
      · exact Or.inr rfl
  exact (Stmt.balanced_all (fun s hm => Stmt.balances (Stmt.isTryFree_of_mem hfree s hm)) rfl hbegun
    h₁).fallInto _

/-- The edges that leave a block, one more for the exit, are one more than the decisions of its
terminator. -/
theorem length_edgesFrom_draft (h : draft types body = .ok d) (hfree : body.isTryFree = true)
    {id : BlockId} (hid : id < d.graph.size) :
    (d.graph.edgesFrom id).length + (if id = exit then 1 else 0) = d.endingDecisions id + 1 := by
  obtain ⟨b, hb⟩ := exists_block? hid
  rw [edgesFrom, Draft.endingDecisions, hb]
  rcases (draft_balanced h hfree).ended id b hb with ⟨ht, hs⟩ | hsum
  · -- All blocks are closed in the end, so none is left without its edge.
    have hedges := prescribes_draft h hb
    rw [ht, hs] at hedges
    obtain ⟨_, hnil⟩ := hedges
    cases hnil
  · exact hsum

/-- Edges and decisions of some blocks differ by the blocks, the exit apart. -/
theorem length_edges_draft (h : draft types body = .ok d) (hfree : body.isTryFree = true)
    {ids : List BlockId} (hids : ∀ id ∈ ids, id < d.graph.size) :
    (ids.flatMap d.graph.edgesFrom).length + ids.count exit = (ids.map d.endingDecisions).sum +
      ids.length := by
  induction ids with
  | nil => rfl
  | cons id ids ih =>
    have hid := length_edgesFrom_draft h hfree (hids id List.mem_cons_self)
    have hrest := ih fun id hm => hids id (List.mem_cons_of_mem _ hm)
    rw [List.flatMap_cons, List.length_append, List.count_cons, List.map_cons, List.sum_cons,
      List.length_cons]
    simp only [beq_iff_eq]
    omega

/-- Without `try` statements the complexity is the cyclomatic number, edges less blocks and two
more, of what is reachable, where `&&` and `||` count as branches. It is one less if the exit is not
reachable, which has no edge of its own. -/
theorem build_complexity_eq_edges_sub_blocks {g : Graph} (hg : build types body = .ok g)
    (hfree : body.isTryFree = true) :
    g.complexity + g.reachability.reachable.length =
      (g.reachability.reachable.flatMap g.edgesFrom).length +
        (if g.reachability.isReachable exit then 2 else 1) +
        shortCircuits (g.reachability.reachable.flatMap g.elementsOf) := by
  obtain ⟨d, hd, rfl⟩ := exists_draft hg
  have hperm := d.graph.reachable_perm
  have hlt : ∀ id ∈ d.graph.reachability.reachable, id < d.graph.size := fun id hm =>
    List.mem_range.mp (List.mem_filter.mp (hperm.mem_iff.mp hm)).1
  have hnodup : d.graph.reachability.reachable.Nodup :=
    hperm.nodup_iff.mpr (List.nodup_range.filter _)
  have hedges := length_edges_draft hd hfree hlt
  have hsum : d.graph.complexity = 1 + d.graph.decisions d.graph.reachability.reachable := by
    rw [complexity, complexityWithin, decisions_perm _ hperm]
  rw [decisions_eq_add] at hsum
  have hexit : (if d.graph.reachability.isReachable exit then 2 else 1) =
      1 + d.graph.reachability.reachable.count exit := by
    split
    · rename_i hm
      rw [hnodup.count, if_pos (isReachable_iff.mp hm)]
    · rename_i hm
      rw [List.count_eq_zero_of_not_mem fun h => hm (isReachable_iff.mpr h)]
  omega

/-- A loop with a `switch` in it, one group of which throws. -/
def selecting : Block where
  stmts :=
    [.whileStmt (.binary .logicalAnd (.name "a" {}) (.name "b" {}) {})
      (.switch (.name "k" {})
        [⟨[.case [.literal "1" {}, .literal "2" {}]], [.breakStmt none {}], false, {}⟩,
          ⟨[.default], [.throwStmt (.new "E" [] [] {}) {}], false, {}⟩] {}) {},
      .returnStmt none {}, .expr (.call none "dead" [] [] {}) {}]
  span := {}

/-- A loop that is never left. -/
def spinning : Block where
  stmts := [.forStmt [] none [] (.ifStmt (.name "a" {}) (.continueStmt none {}) none {}) {}]
  span := {}

/-- Eight blocks, ten edges and one `&&` in the first body, where the exit is reachable; five blocks
and six edges in the second one, where it is not. -/
theorem build_complexity_eq_edges_sub_blocks_loops :
    (∃ g, build ClassHierarchy.javaLang.subtyping selecting = .ok g ∧
      g.reachability.isReachable exit = true ∧ g.complexity + 8 = 10 + 2 + 1) ∧
    ∃ g, build ClassHierarchy.javaLang.subtyping spinning = .ok g ∧
      g.reachability.isReachable exit = false ∧ g.complexity + 5 = 6 + 1 + 0 := by
  have hselecting : (build ClassHierarchy.javaLang.subtyping selecting).toOption.map (fun g =>
      (g.reachability.isReachable exit, g.reachability.reachable.length,
        (g.reachability.reachable.flatMap g.edgesFrom).length,
        shortCircuits (g.reachability.reachable.flatMap g.elementsOf))) =
          some (true, 8, 10, 1) := by
    decide +kernel
  have hspinning : (build ClassHierarchy.javaLang.subtyping spinning).toOption.map (fun g =>
      (g.reachability.isReachable exit, g.reachability.reachable.length,
        (g.reachability.reachable.flatMap g.edgesFrom).length,
        shortCircuits (g.reachability.reachable.flatMap g.elementsOf))) =
          some (false, 5, 6, 0) := by
    decide +kernel
  obtain ⟨g, hg⟩ := Except.failure?_eq_none_iff.mp
    ((failure?_build ClassHierarchy.javaLang.subtyping selecting).trans rfl)
  obtain ⟨g', hg'⟩ := Except.failure?_eq_none_iff.mp
    ((failure?_build ClassHierarchy.javaLang.subtyping spinning).trans rfl)
  rw [hg] at hselecting
  rw [hg'] at hspinning
  obtain ⟨hexit, hblocks, hedges, hshort⟩ : _ ∧ _ ∧ _ ∧ _ := by
    simpa only [Prod.mk.injEq] using Option.some.inj hselecting
  obtain ⟨hexit', hblocks', hedges', hshort'⟩ : _ ∧ _ ∧ _ ∧ _ := by
    simpa only [Prod.mk.injEq] using Option.some.inj hspinning
  have hsum := build_complexity_eq_edges_sub_blocks hg rfl
  have hsum' := build_complexity_eq_edges_sub_blocks hg' rfl
  rw [hexit, hblocks, hedges, hshort] at hsum
  rw [hexit', hblocks', hedges', hshort'] at hsum'
  exact ⟨⟨g, hg, hexit, hsum⟩, g', hg', hexit', hsum'⟩

end Graph

end MethodFlow
