import MethodFlow.Proofs.Landing

/-!
# Passing from part to part

For each piece between two parts of a construct: where an execution is after the piece when it was
at the end of the open block before, and that the blocks the piece has made are blank as long as
they wait. Control comes to most of these blocks by paths, along edges that later parts of the
construct draw; hence the lemmas `At.*_of_path`.
-/

namespace MethodFlow

namespace Draft

variable {D d : Draft} {w : List Element}

/-! ## Branches -/

/-- From a branch an execution leads both ways. -/
theorem At.branch (h : At D d w) (hd : d.Steady) {onTrue onFalse next : BlockId} {span : Span}
    (hext : ((d.branch onTrue onFalse span).start next).Extends D) :
    D.Leads w onTrue ∧ D.Leads w onFalse := by
  have hext := (extends_start (d.current_branch onTrue onFalse span) next).trans hext
  exact ⟨h.terminate hd hext List.mem_cons_self,
    h.terminate hd hext (List.mem_cons_of_mem _ List.mem_cons_self)⟩

/-- An execution that leads to a blank block is there once the branch before is drawn. -/
theorem At.branch_of_path {onTrue onFalse next : BlockId} {span : Span}
    (hp : D.Leads w next) (hd : d.Steady) (hw : d.Waiting next)
    (hc : d.Contains next []) : At D ((d.branch onTrue onFalse span).start next) w := by
  refine .start_nil hp ?_ (d.current_branch onTrue onFalse span)
  exact hc.of_waiting (extends_terminate hd _ _ _) ((waiting_terminate hd _ _ _ next).mpr hw)

theorem extends_branch_start (hd : d.Steady) (onTrue onFalse next : BlockId) (span : Span) :
    d.Extends ((d.branch onTrue onFalse span).start next) :=
  (extends_terminate hd _ _ _).trans (extends_start (current_branch ..) next)

/-! ## Making blocks -/

/-- New blocks were made, and nothing else has happened. -/
structure Made (d₀ d : Draft) : Prop where
  steady : d.Steady
  waiting : ∀ id, d₀.fresh ≤ id → id < d.fresh → d.Waiting id
  blank : d.Blank d₀.fresh
  grows : d₀.Extends d
  passes : ∀ {D : Draft} {w : List Element}, At D d₀ w → At D d w

namespace Made

variable {d₀ : Draft}

theorem refl (hd : d.Steady) : Made d d :=
  ⟨hd, fun _ hle hlt => absurd hlt (Nat.not_lt_of_le hle), d.blank_fresh, .refl d, id⟩

theorem create (h : Made d₀ d) (kind : BlockKind) (span : Option Span) :
    Made d₀ (d.create kind span) where
  steady := steady_create h.steady kind span
  waiting id hle hlt := by
    rw [fresh_create] at hlt
    refine (waiting_add h.steady _ id).mpr ?_
    exact (Nat.lt_succ_iff_lt_or_eq.mp hlt).imp_left (h.waiting id hle)
  blank := h.blank.create h.steady kind span
  grows := h.grows.trans (extends_create h.steady kind span)
  passes hat := (h.passes hat).add _

theorem createGroups (h : Made d₀ d) (groups : List CaseGroup) :
    Made d₀ (CaseGroup.createBlocks groups d) := by
  unfold CaseGroup.createBlocks
  induction groups generalizing d with
  | nil => exact h
  | cons group groups ih => exact ih (h.create .caseGroup (some group.span))

/-- A branch into a block that was made and to another one. -/
theorem fork (h : Made d₀ d) {onTrue onFalse : BlockId} {span : Span} (hle : d₀.fresh ≤ onTrue)
    (hlt : onTrue < d.fresh) (hat : At D d₀ w)
    (hext : ((d.branch onTrue onFalse span).start onTrue).Extends D) :
    At D ((d.branch onTrue onFalse span).start onTrue) w ∧ D.Leads w onFalse := by
  obtain ⟨ht, hf⟩ := (h.passes hat).branch h.steady hext
  have hw := h.waiting onTrue hle hlt
  exact ⟨.branch_of_path ht h.steady hw (h.blank onTrue hle hw), hf⟩

theorem extends_fork (h : Made d₀ d) (onTrue onFalse : BlockId) (span : Span) :
    d₀.Extends ((d.branch onTrue onFalse span).start onTrue) :=
  h.grows.trans (extends_branch_start h.steady onTrue onFalse onTrue span)

theorem blank_fork (h : Made d₀ d) (onTrue onFalse : BlockId) (span : Span) :
    ((d.branch onTrue onFalse span).start onTrue).Blank d₀.fresh :=
  (h.blank.branch h.steady onTrue onFalse span).start (current_branch ..) onTrue

end Made

/-! ## Branches into bodies -/

/-- From the test of a loop an execution leads into the body and past it. -/
theorem At.openBody (h : At D d w) (hd : d.Steady) {body test : Span}
    (hext : (d.openBody body test).Extends D) :
    At D (d.openBody body test) w ∧ D.Leads w (d.fresh + 1) :=
  (((Made.refl hd).create _ _).create _ _).fork (Nat.le_refl _) (by grind [fresh_create]) h hext

theorem extends_openBody (hd : d.Steady) (body test : Span) : d.Extends (d.openBody body test) :=
  (((Made.refl hd).create _ _).create _ _).extends_fork _ _ _

theorem blank_openBody (hd : d.Steady) (body test : Span) : (d.openBody body test).Blank d.fresh :=
  (((Made.refl hd).create _ _).create _ _).blank_fork _ _ _

theorem At.openCond (h : At D d w) (hd : d.Steady) {cons alt test : Span}
    (hext : (d.openCond cons alt test).Extends D) :
    At D (d.openCond cons alt test) w ∧ D.Leads w (d.fresh + 1) :=
  ((((Made.refl hd).create _ _).create _ _).create _ _).fork (Nat.le_refl _)
  (by grind [fresh_create]) h hext

theorem blank_openCond (hd : d.Steady) (cons alt test : Span) :
    (d.openCond cons alt test).Blank d.fresh :=
  ((((Made.refl hd).create _ _).create _ _).create _ _).blank_fork _ _ _

/-- From the test of an `if` an execution leads into both branches, or into one and past it. -/
theorem At.openIf (h : At D d w) (hd : d.Steady) {cons : Stmt} {alt : Option Stmt} {test : Span}
    (hext : (d.openIf cons alt test).Extends D) :
    At D (d.openIf cons alt test) w ∧
      D.Leads w (alt.elim (d.fresh + 1) fun _ => d.fresh + 2) := by
  have hmade := ((Made.refl hd).create .normal (some cons.span)).create .join none
  cases alt with
  | none => exact hmade.fork (Nat.le_refl _) (by grind [fresh_create]) h hext
  | some alt => exact (hmade.create _ _).fork (Nat.le_refl _) (by grind [fresh_create]) h hext

theorem blank_openIf (hd : d.Steady) (cons : Stmt) (alt : Option Stmt) (test : Span) :
    (d.openIf cons alt test).Blank d.fresh := by
  have hmade := ((Made.refl hd).create .normal (some cons.span)).create .join none
  cases alt with
  | none => exact hmade.blank_fork _ _ _
  | some alt => exact (hmade.create _ _).blank_fork _ _ _

/-! ## Loops -/

/-- Control enters a block that was made. -/
theorem Made.continueAt_of_path {d₀ : Draft} (h : Made d₀ d) {next : BlockId}
    (hp : D.Leads w next) (hle : d₀.fresh ≤ next) (hlt : next < d.fresh) :
    At D (d.continueAt next) w :=
  .continueAt_of_path hp h.steady (h.waiting next hle hlt)
    (h.blank next hle (h.waiting next hle hlt))

theorem Made.path_of_continueAt {d₀ : Draft} (h : Made d₀ d) {next : BlockId} (hat : At D d₀ w)
    (hext : (d.continueAt next).Extends D) : D.Leads w next := by
  refine (h.passes hat).fallInto h.steady ((extends_start (current_fallInto d next) next).trans ?_)
  rw [fallInto_start]
  exact hext

theorem At.openHeader (h : At D d w) (hd : d.Steady) {span : Option Span}
    (hext : (d.openHeader span).Extends D) : D.Leads w d.fresh :=
  ((Made.refl hd).create _ _).path_of_continueAt h hext

/-- Each round of a loop begins at its header. -/
theorem At.openHeader_of_path (hp : D.Leads w d.fresh) (hd : d.Steady)
    (span : Option Span) : At D (d.openHeader span) w :=
  ((Made.refl hd).create _ _).continueAt_of_path hp (Nat.le_refl _) (by grind [fresh_create])

theorem At.openDo (h : At D d w) (hd : d.Steady) {body test : Span}
    (hext : (d.openDo body test).Extends D) : D.Leads w d.fresh :=
  ((((Made.refl hd).create _ _).create _ _).create _ _).path_of_continueAt h hext

theorem At.openDo_of_path (hp : D.Leads w d.fresh) (hd : d.Steady)
    (body test : Span) : At D (d.openDo body test) w :=
  ((((Made.refl hd).create _ _).create _ _).create _ _).continueAt_of_path hp (Nat.le_refl _)
    (by grind [fresh_create])

theorem blank_openDo (hd : d.Steady) (body test : Span) : (d.openDo body test).Blank d.fresh :=
  have hmade :=
    (((Made.refl hd).create .loopHeader (some body)).create .condition (some test)).create
    .normal none
  hmade.blank.continueAt hmade.steady d.fresh

theorem made_makeFor (hd : d.Steady) (updates : Bool) (body : Span) :
    Made d (d.makeFor updates body) := by
  have hmade := ((Made.refl hd).create .normal (some body)).create .normal none
  cases updates with
  | false => exact hmade
  | true => exact hmade.create .normal none

/-! ## Groups of a `switch` -/

theorem extends_leaveArrowGroup (hd : d.Steady) (after : BlockId) :
    d.Extends (d.leaveArrowGroup after) :=
  (extends_closeOpen hd _ _).trans (extends_resolveDangling _ _)

/-- Marking a group changes no elements. -/
theorem At.endCaseGroup (h : At D d w) : At D d.endCaseGroup w := by
  obtain ⟨id, u, es, hi, hc, hp, rfl⟩ := h
  refine ⟨id, u, es, (current_endCaseGroup d).trans hi, ?_, hp, rfl⟩
  obtain ⟨b, hb, rfl⟩ := contains_iff.mp hc
  obtain ⟨b', hb', hcore⟩ := exists_block?_of_core (d.core_endCaseGroup id).symm hb
  exact contains_iff.mpr ⟨b', hb', congrArg (·.elements) hcore.symm⟩

/-- An execution in an arrow group leads behind the switch. -/
theorem At.leaveArrowGroup (h : At D d w) (hd : d.Steady) {after : BlockId}
    (hext : (d.leaveArrowGroup after).Extends D) : D.Leads w after :=
  h.closeOpen hd ((extends_resolveDangling _ _).trans hext) List.mem_cons_self

theorem made_switch (hd : d.Steady) (groups : List CaseGroup) :
    Made d (CaseGroup.createBlocks groups (d.create .normal none)) :=
  ((Made.refl hd).create .normal none).createGroups groups

/-- A `switch` leads to every group with a value, and to the one for all other values. -/
theorem At.openSwitch (h : At D d w) (hd : d.Steady) {groups : List CaseGroup} {selector : Span}
    (hext : (d.openSwitch groups selector).Extends D) :
    (∀ id ∈ CaseGroup.valueTargets groups (d.fresh + 1), D.Leads w id) ∧
      D.Leads w ((CaseGroup.defaultTarget? groups (d.fresh + 1)).getD d.fresh) := by
  have hmade := made_switch hd groups
  constructor
  · intro id hid
    obtain ⟨i, hi, rfl⟩ := List.getElem_of_mem hid
    refine (hmade.passes h).terminate (e := ⟨.case i, _⟩) hmade.steady hext
      (List.mem_append_left _ ?_)
    exact List.mem_mapIdx.mpr ⟨i, hi, rfl⟩
  · refine (hmade.passes h).terminate (e := ⟨.default, _⟩) hmade.steady hext
      (List.mem_append_right _ ?_)
    exact List.mem_map.mpr ⟨_, Option.mem_toList.mpr rfl, rfl⟩

theorem blank_openSwitch (hd : d.Steady) (groups : List CaseGroup) (selector : Span) :
    (d.openSwitch groups selector).Blank d.fresh := by
  have hmade := made_switch hd groups
  exact hmade.blank.of_extends (extends_terminate hmade.steady _ _ _)
    fun id => (waiting_terminate hmade.steady _ _ _ id).mp

/-! ## `try` statements -/

/-- The blocks of catch clauses, from `block` on, hold the parameters. -/
def Parameters (d : Draft) : List CatchClause → (block : BlockId) → Prop
  | [], _ => True
  | clause :: clauses, block =>
    d.Contains block [⟨.declaration clause.param, clause.span⟩] ∧ d.Parameters clauses (block + 1)

/-- Clauses whose blocks still wait keep their parameters. -/
theorem Parameters.of_extends {d' : Draft} {clauses : List CatchClause} {block : BlockId}
    (h : d.Parameters clauses block) (hext : d.Extends d')
    (hw : ∀ id, block ≤ id → id < block + clauses.length → d'.Waiting id) :
    d'.Parameters clauses block := by
  induction clauses generalizing block with
  | nil => trivial
  | cons clause clauses ih =>
    rw [List.length_cons] at hw
    refine ⟨h.1.of_waiting hext (hw block (Nat.le_refl _) (by grind)), ih h.2 fun id hle hlt => ?_⟩
    exact hw id (Nat.le_of_succ_le hle) (by grind)

/-- The blocks of catch clauses were made. -/
structure MadeClauses (d₀ d : Draft) (clauses : List CatchClause) : Prop where
  steady : d.Steady
  grows : d₀.Extends d
  parameters : d.Parameters clauses d₀.fresh
  keeps : ∀ {id : BlockId} {es : List Element}, d₀.Contains id es → d.Contains id es
  passes : ∀ {D : Draft} {w : List Element}, At D d₀ w → At D d w

theorem madeClauses (hd : d.Steady) (clauses : List CatchClause) :
    MadeClauses d (CatchClause.createBlocks clauses d) clauses := by
  unfold CatchClause.createBlocks
  induction clauses generalizing d with
  | nil => exact ⟨hd, .refl d, trivial, id, id⟩
  | cons clause clauses ih =>
    rw [List.foldl_cons, createClause_eq]
    have h := ih (Move.steady (.add .handler [⟨.declaration clause.param, clause.span⟩]
      (some clause.span)) hd)
    have hp := h.parameters
    rw [fresh_add] at hp
    exact ⟨h.steady, (extends_add hd ..).trans h.grows, ⟨h.keeps (contains_add ..), hp⟩,
      fun hc => h.keeps (hc.add _), fun hat => h.passes (hat.add _)⟩

section Try

variable {catches : List CatchClause} {finalizer : Option Block}

theorem fresh_elim_finalizer (d : Draft) (finalizer : Option Block) :
    (finalizer.elim (d.create .normal none) fun block =>
      (d.create .normal none).create .finalizer (some block.span)).fresh =
        firstCatch d.fresh finalizer := by
  cases finalizer <;> simp [firstCatch]

/-- The clauses are made with their parameters, all else is blank, and control stays where it is. -/
theorem makeTry_made (hd : d.Steady) (catches : List CatchClause) (finalizer : Option Block) :
    (d.makeTry catches finalizer).Steady ∧
      (d.makeTry catches finalizer).Parameters catches (firstCatch d.fresh finalizer) ∧
      (∀ id, d.fresh ≤ id → id < firstCatch d.fresh finalizer →
        (d.makeTry catches finalizer).Contains id []) ∧
      ∀ {D : Draft} {w : List Element}, At D d w → At D (d.makeTry catches finalizer) w := by
  have hmade : Made d (finalizer.elim (d.create .normal none) fun block =>
      (d.create .normal none).create .finalizer (some block.span)) := by
    have hmade := (Made.refl hd).create .normal none
    cases finalizer with
    | none => exact hmade
    | some block => exact hmade.create .finalizer (some block.span)
  have hclauses := madeClauses hmade.steady catches
  have hp := hclauses.parameters
  rw [fresh_elim_finalizer] at hp
  refine ⟨hclauses.steady, hp, fun id hle hlt => hclauses.keeps ?_,
    fun hat => hclauses.passes (hmade.passes hat)⟩
  rw [← fresh_elim_finalizer] at hlt
  exact hmade.blank id hle (hmade.waiting id hle hlt)

theorem extends_expectUnchecked (hd : d.Steady) {id : BlockId} (isOpen : d.current = some id)
    (types : Subtyping) (clauses : List CatchTarget) :
      d.Extends (d.expectUnchecked types clauses) := by
  unfold expectUnchecked
  rw [openBlock_eq isOpen]
  exact extends_addEdges hd isOpen _

/-- Running on into a block that was just made. -/
theorem steady_create_continueAt (hd : d.Steady) (kind : BlockKind) (span : Option Span)
    (types : Subtyping) : ((d.create kind span).continueAt d.fresh).Steady :=
  (((Drawn.refl hd : Drawn { types } d d _).create kind span).continueAt d.fresh
    (Or.inr rfl)).steady

/-- Control runs on into the `try` block. -/
theorem At.openTry (h : At D d w) (hd : d.Steady) {types : Subtyping} {block : Span}
    (hext : (d.openTry types catches finalizer block).Extends D) :
    At D (d.openTry types catches finalizer block) w := by
  obtain ⟨hsteady, _, _, passes⟩ := makeTry_made hd catches finalizer
  have hfresh := d.fresh_makeTry catches finalizer
  unfold Draft.openTry at hext ⊢
  rw [← hfresh] at hext ⊢
  generalize d.makeTry catches finalizer = made at *
  have hext := (extends_expectUnchecked (steady_create_continueAt hsteady _ _ types)
    (current_continueAt _ _) _ _).trans hext
  have hmade := (Made.refl hsteady).create .normal (some block)
  have hp := hmade.path_of_continueAt (passes h) hext
  exact (hmade.continueAt_of_path hp (Nat.le_refl _) (by grind [fresh_create])).addEdges _

/-- In an opened `try` statement each clause has its parameter and the rest is blank. -/
theorem contains_openTry (hd : d.Steady) {types : Subtyping} {block : Span}
    (hw : ∀ id, d.fresh ≤ id → id < firstCatch d.fresh finalizer + catches.length →
      (d.openTry types catches finalizer block).Waiting id) :
    (d.openTry types catches finalizer block).Parameters catches (firstCatch d.fresh finalizer) ∧
      ∀ id, d.fresh ≤ id → id < firstCatch d.fresh finalizer →
        (d.openTry types catches finalizer block).Contains id [] := by
  obtain ⟨hsteady, parameters, blank, _⟩ := makeTry_made hd catches finalizer
  have hfresh := d.fresh_makeTry catches finalizer
  have hfirst := lt_firstCatch d.fresh finalizer
  have hext : (d.makeTry catches finalizer).Extends (d.openTry types catches finalizer block) := by
    unfold Draft.openTry
    rw [← hfresh]
    exact
      ((extends_create hsteady _ _).trans (extends_continueAt (steady_create hsteady _ _) _)).trans
      (extends_expectUnchecked (steady_create_continueAt hsteady _ _ types)
        (current_continueAt _ _) _ _)
  refine ⟨parameters.of_extends hext fun id hle hlt => hw id ?_ hlt, fun id hle hlt => ?_⟩
  · exact Nat.le_trans (Nat.le_of_lt hfirst) hle
  · exact (blank id hle hlt).of_waiting hext
      (hw id hle (Nat.lt_of_lt_of_le hlt (Nat.le_add_right _ _)))

end Try

end Draft

end MethodFlow
