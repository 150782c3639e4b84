import MethodFlow.Proofs.Routes

/-!
# Operations on drafts as moves

`Drawn scope d d' W` says that `d'` comes from `d` by moves that leave no resumptions but those of
the scope, and that the blocks waiting in `d'` are those in `W`. Each operation of drawing gets one
lemma that extends such a fact by one more step, under what the operation expects: a block is
started when none is open, an edge leads to a block that is still to come. Constructs are then
followed step by step, and `W` comes back to the blocks that waited before.
-/

namespace MethodFlow

namespace Draft

/-! ## Operations in terms of moves -/

theorem ensureOpen_of_some {d : Draft} {id : BlockId} (h : d.current = some id) :
    d.ensureOpen = d := by
  simp only [ensureOpen, h]

theorem ensureOpen_of_none {d : Draft} (h : d.current = none) :
    d.ensureOpen =
      { (d.add { kind := .normal, elements := [], span := none }).resolveDangling d.fresh with
        current := some d.fresh } := by
  simp only [ensureOpen, h]
  rfl

@[simp] theorem current_ensureOpen (d : Draft) : d.ensureOpen.current = some d.openBlock := by
  cases h : d.current with
  | none => simp only [ensureOpen_of_none h, openBlock, h, Option.getD_none]
  | some id => rw [ensureOpen_of_some h, openBlock, h, Option.getD_some]

theorem openBlock_eq {d : Draft} {id : BlockId} (h : d.current = some id) : d.openBlock = id := by
  rw [openBlock, h, Option.getD_some]

/-- Closing the open block of a steady draft is no mistake. -/
theorem close_eq_sealed {d : Draft} (hd : d.Steady) {id : BlockId} (isOpen : d.current = some id)
    (t : Terminator) (edges : List Edge) (span : Option Span) :
    close { d with current := none } id t edges span = d.sealed id t edges span := by
  unfold close
  rw [if_neg]
  · rfl
  · intro h
    exact hd.current_open id isOpen (List.contains_iff_mem.mp h)

/-- Opening a block takes moves only, and none when one is open. -/
theorem Run.ensureOpen {d : Draft} (hd : d.Steady) : Run d d.ensureOpen := by
  cases h : d.current with
  | some id =>
    rw [ensureOpen_of_some h]
    exact .refl d
  | none =>
    rw [ensureOpen_of_none h]
    have hadd : Move d (d.add { kind := .normal, elements := [], span := none }) := .add _ _ _
    have hresolve : Move (d.add { kind := .normal, elements := [], span := none })
        ((d.add { kind := .normal, elements := [], span := none }).resolveDangling d.fresh) := by
      refine .resolve h ?_
      rw [fresh_add]
      exact Nat.lt_succ_self _
    refine ((Run.single hadd).tail hresolve).tail (.enter ?_ ?_)
    · rw [current_resolveDangling]
      exact h
    · rw [waiting_resolveDangling, waiting_add hd]
      exact Or.inr rfl

/-- Ending the open block is opening one if need be and sealing it. -/
theorem terminate_eq_sealed {d : Draft} (hd : d.Steady) (t : Terminator) (edges : List Edge)
    (span : Option Span) :
    d.terminate t edges span = d.ensureOpen.sealed d.openBlock t edges span :=
  close_eq_sealed ((Run.ensureOpen hd).steady hd) (by simp) t edges span

theorem closeOpen_of_some {d : Draft} (hd : d.Steady) {id : BlockId} (isOpen : d.current = some id)
    (t : Terminator) (edges : List Edge) : d.closeOpen t edges = d.sealed id t edges none := by
  simp only [closeOpen, isOpen]
  exact close_eq_sealed hd isOpen t edges none

theorem closeOpen_of_none {d : Draft} (h : d.current = none) (t : Terminator) (edges : List Edge) :
    d.closeOpen t edges = d := by
  simp only [closeOpen, h]

theorem start_of_none {d : Draft} (h : d.current = none) (id : BlockId) :
    d.start id = { d with current := some id } := by
  simp only [start, h]

/-! ## The open block after each operation -/

@[simp] theorem current_close (d : Draft) (id : BlockId) (t : Terminator) (edges : List Edge)
    (span : Option Span) : (d.close id t edges span).current = d.current := by
  unfold close
  split <;> rfl

@[simp] theorem current_terminate (d : Draft) (t : Terminator) (edges : List Edge)
    (span : Option Span) : (d.terminate t edges span).current = none := by
  rw [terminate, current_close]

@[simp] theorem current_closeOpen (d : Draft) (t : Terminator) (edges : List Edge) :
    (d.closeOpen t edges).current = none := by
  cases h : d.current with
  | none => rw [closeOpen_of_none h, h]
  | some id => simp only [closeOpen, h, current_close]

@[simp] theorem current_fallInto (d : Draft) (next : BlockId) :
    (d.fallInto next).current = none := by
  simp only [fallInto, current_resolveDangling, current_closeOpen]

@[simp] theorem current_goto (d : Draft) (kind : EdgeKind) (target : BlockId) :
    (d.goto kind target).current = none := by
  simp only [goto, current_resolveDangling, current_closeOpen]

@[simp] theorem current_start (d : Draft) (id : BlockId) : (d.start id).current = some id := by
  unfold start
  split <;> rfl

@[simp] theorem current_continueAt (d : Draft) (next : BlockId) :
    (d.continueAt next).current = some next := rfl

@[simp] theorem current_branch (d : Draft) (onTrue onFalse : BlockId) (span : Span) :
    (d.branch onTrue onFalse span).current = none :=
  current_terminate ..

@[simp] theorem current_emit (d : Draft) (kind : ElementKind) (span : Span) :
    (d.emit kind span).current = some d.openBlock :=
  d.current_ensureOpen

@[simp] theorem fresh_create (d : Draft) (kind : BlockKind) (span : Option Span) :
    (d.create kind span).fresh = d.fresh + 1 :=
  d.fresh_add _

@[simp] theorem current_create (d : Draft) (kind : BlockKind) (span : Option Span) :
    (d.create kind span).current = d.current := rfl

@[simp] theorem fresh_close (d : Draft) (id : BlockId) (t : Terminator) (edges : List Edge)
    (span : Option Span) : (d.close id t edges span).fresh = d.fresh := by
  unfold close
  split
  · rfl
  · exact d.fresh_modify id _

@[simp] theorem fresh_closeOpen (d : Draft) (t : Terminator) (edges : List Edge) :
    (d.closeOpen t edges).fresh = d.fresh := by
  unfold closeOpen
  split
  · exact fresh_close ..
  · rfl

@[simp] theorem fresh_fallInto (d : Draft) (next : BlockId) :
    (d.fallInto next).fresh = d.fresh := by
  simp only [fallInto, fresh_resolveDangling, fresh_closeOpen]

@[simp] theorem fresh_goto (d : Draft) (kind : EdgeKind) (target : BlockId) :
    (d.goto kind target).fresh = d.fresh := by
  simp only [goto, fresh_resolveDangling, fresh_closeOpen]

@[simp] theorem fresh_start (d : Draft) (id : BlockId) : (d.start id).fresh = d.fresh := by
  unfold start
  split <;> rfl

@[simp] theorem fresh_continueAt (d : Draft) (next : BlockId) :
    (d.continueAt next).fresh = d.fresh :=
  d.fresh_fallInto next

@[simp] theorem resumptions_ensureOpen (d : Draft) : d.ensureOpen.resumptions = d.resumptions := by
  unfold ensureOpen
  split
  · rfl
  · exact resumptions_resolveDangling _ _

@[simp] theorem resumptions_closeOpen (d : Draft) (t : Terminator) (edges : List Edge) :
    (d.closeOpen t edges).resumptions = d.resumptions := by
  unfold closeOpen close
  split
  · split <;> rfl
  · rfl

@[simp] theorem resumptions_continueAt (d : Draft) (next : BlockId) :
    (d.continueAt next).resumptions = d.resumptions := by
  simp only [continueAt, fallInto, resumptions_resolveDangling, resumptions_closeOpen]

@[simp] theorem current_leaveRegion (d : Draft) (finalizer : Option BlockId) (after : BlockId) :
    (d.leaveRegion finalizer after).current = none := by
  cases finalizer with
  | none => exact d.current_fallInto after
  | some entry =>
    simp only [leaveRegion, current_resolveDangling]
    split
    · exact d.current_closeOpen ..
    · assumption

/-- Leaving a region adds at most the resumption after its `finally` clause. -/
theorem mem_resumptions_leaveRegion {d : Draft} {finalizer : Option BlockId} {after : BlockId}
    {p : BlockId × Edge} (h : p ∈ (d.leaveRegion finalizer after).resumptions) :
    p ∈ d.resumptions ∨ finalizer = some p.1 ∧ p.2 = .sequential after := by
  cases finalizer with
  | none =>
    rw [leaveRegion, fallInto, resumptions_resolveDangling, resumptions_closeOpen] at h
    exact Or.inl h
  | some entry =>
    simp only [leaveRegion, resumptions_resolveDangling] at h
    split at h
    · rcases mem_appendAllNew.mp h with h | h
      · rw [resumptions_closeOpen] at h
        exact Or.inl h
      · cases List.mem_singleton.mp h
        exact Or.inr ⟨rfl, rfl⟩
    · exact Or.inl h

theorem mem_resumptionsOf {d : Draft} {entry : BlockId} {e : Edge} :
    e ∈ d.resumptionsOf entry ↔ (entry, e) ∈ d.resumptions := by
  simp only [resumptionsOf, List.mem_map, List.mem_filter, beq_iff_eq]
  constructor
  · rintro ⟨p, ⟨hp, rfl⟩, rfl⟩
    exact hp
  · intro hp
    exact ⟨(entry, e), ⟨hp, rfl⟩, rfl⟩

/-- The block of a catch clause is made with its parameter in it. -/
theorem createClause_eq (d : Draft) (clause : CatchClause) :
    ((d.create .handler (some clause.span)).modify d.fresh fun b =>
        { b with elements := [⟨.declaration clause.param, clause.span⟩] }) =
      d.add { kind := .handler, elements := [⟨.declaration clause.param, clause.span⟩],
              span := some clause.span } := by
  simp only [Draft.modify, Draft.create, Draft.fresh, Graph.modify_push]
  rfl

/-! ## What waits after each operation -/

section Waiting

variable {d : Draft}

theorem waiting_ensureOpen (hd : d.Steady) (id : BlockId) : d.ensureOpen.Waiting id ↔
    d.Waiting id := by
  cases hc : d.current with
  | some i => rw [ensureOpen_of_some hc]
  | none =>
    have idle : ((d.add { kind := .normal, elements := [], span := none }).resolveDangling
        d.fresh).current = none := (current_resolveDangling _ _).trans hc
    rw [ensureOpen_of_none hc, waiting_enter idle, waiting_resolveDangling, waiting_add hd]
    constructor
    · rintro ⟨hid | hid, hne⟩
      · exact hid
      · exact absurd hid hne
    · intro hid
      exact ⟨Or.inl hid, Nat.ne_of_lt hid.lt⟩

theorem waiting_start (idle : d.current = none) (id next : BlockId) :
    (d.start next).Waiting id ↔ d.Waiting id ∧ id ≠ next := by
  rw [start_of_none idle, waiting_enter idle]

/-- Ending a block lets none of the waiting blocks go. -/
theorem waiting_terminate (hd : d.Steady) (t : Terminator) (edges : List Edge) (span : Option Span)
    (id : BlockId) : (d.terminate t edges span).Waiting id ↔ d.Waiting id := by
  rw [terminate_eq_sealed hd, waiting_sealed d.current_ensureOpen, waiting_ensureOpen hd]

theorem waiting_closeOpen (hd : d.Steady) (t : Terminator) (edges : List Edge) (id : BlockId) :
    (d.closeOpen t edges).Waiting id ↔ d.Waiting id := by
  cases hc : d.current with
  | none => rw [closeOpen_of_none hc]
  | some i =>
    rw [closeOpen_of_some hd hc]
    exact waiting_sealed hc t edges none id

theorem waiting_fallInto (hd : d.Steady) (next id : BlockId) :
    (d.fallInto next).Waiting id ↔ d.Waiting id :=
  (waiting_resolveDangling _ next id).trans (waiting_closeOpen hd _ _ id)

theorem waiting_goto (hd : d.Steady) (kind : EdgeKind) (target id : BlockId) :
    (d.goto kind target).Waiting id ↔ d.Waiting id :=
  (waiting_resolveDangling _ target id).trans (waiting_closeOpen hd _ _ id)

end Waiting

/-! ## Steps of a drawing -/

/-- `d'` was drawn from `d` in a scope, and the blocks in `W` are waiting now. -/
structure Drawn (scope : Scope) (d d' : Draft) (W : BlockId → Prop) : Prop where
  steady : d'.Steady
  run : Run d d'
  waiting : ∀ id, d'.Waiting id ↔ W id
  resumptions : ∀ p ∈ d'.resumptions, p ∈ d.resumptions ∨ scope.Registers p ∨ d.fresh ≤ p.1

namespace Drawn

variable {scope inner : Scope} {d d₁ d₂ : Draft} {W W' : BlockId → Prop}

theorem refl (hd : d.Steady) : Drawn scope d d d.Waiting :=
  ⟨hd, .refl d, fun _ => Iff.rfl, fun _ h => Or.inl h⟩

theorem congr (h : Drawn scope d d₁ W) (hW : ∀ id, W id ↔ W' id) : Drawn scope d d₁ W' :=
  ⟨h.steady, h.run, fun id => (h.waiting id).trans (hW id), h.resumptions⟩

theorem fresh_le (h : Drawn scope d d₁ W) (hd : d.Steady) : d.fresh ≤ d₁.fresh :=
  (h.run.extends hd).fresh_le

theorem lt (h : Drawn scope d d₁ W) {id : BlockId} (hid : W id) : id < d₁.fresh :=
  ((h.waiting id).mpr hid).lt

theorem awaits (h : Drawn scope d d₁ W) {id : BlockId} (hid : W id) : d₁.Awaits id :=
  Or.inr (Or.inl ((h.waiting id).mpr hid))

/-- Drawing a part in a scope further in, which may leave resumptions with newer `finally`
clauses. -/
theorem trans (h : Drawn scope d d₁ W) (hd : d.Steady) (hpart : Drawn inner d₁ d₂ W')
    (hreg : ∀ p, inner.Registers p → scope.Registers p ∨ d.fresh ≤ p.1) : Drawn scope d d₂ W' := by
  refine ⟨hpart.steady, h.run.trans hpart.run, hpart.waiting, fun p hp => ?_⟩
  rcases hpart.resumptions p hp with hp | hp | hp
  · exact h.resumptions p hp
  · exact Or.inr (hreg p hp)
  · exact Or.inr (Or.inr (Nat.le_trans (h.fresh_le hd) hp))

/-- Drawing a part that leaves the waiting blocks as they were. -/
theorem part (h : Drawn scope d d₁ W) (hd : d.Steady) (hpart : Drawn inner d₁ d₂ d₁.Waiting)
    (hreg : ∀ p, inner.Registers p → scope.Registers p ∨ d.fresh ≤ p.1) : Drawn scope d d₂ W :=
  (h.trans hd hpart hreg).congr h.waiting

private theorem move (h : Drawn scope d d₁ W) (hm : Move d₁ d₂)
    (hW : ∀ id, d₂.Waiting id ↔ W' id) (hr : d₂.resumptions = d₁.resumptions) :
    Drawn scope d d₂ W' := by
  refine ⟨hm.steady h.steady, h.run.tail hm, hW, fun p hp => ?_⟩
  rw [hr] at hp
  exact h.resumptions p hp

/-- A new block waits from then on. -/
theorem add (h : Drawn scope d d₁ W) (kind : BlockKind) (elements : List Element)
    (span : Option Span) :
    Drawn scope d (d₁.add { kind, elements, span }) fun id => W id ∨ id = d₁.fresh := by
  refine h.move (.add kind elements span) (fun id => ?_) rfl
  rw [waiting_add h.steady, h.waiting]

theorem create (h : Drawn scope d d₁ W) (kind : BlockKind) (span : Option Span) :
    Drawn scope d (d₁.create kind span) fun id => W id ∨ id = d₁.fresh :=
  h.add kind [] span

theorem start (h : Drawn scope d d₁ W) (next : BlockId) (idle : d₁.current = none)
    (hnext : W next) :
    Drawn scope d (d₁.start next) fun id => W id ∧ id ≠ next := by
  rw [start_of_none idle]
  refine h.move (.enter idle ((h.waiting next).mpr hnext)) (fun id => ?_) rfl
  rw [waiting_enter idle, h.waiting]

theorem resolve (h : Drawn scope d d₁ W) (next : BlockId) (idle : d₁.current = none)
    (hnext : next < d₁.fresh) : Drawn scope d (d₁.resolveDangling next) W := by
  refine h.move (.resolve idle hnext) (fun id => ?_) (by simp)
  rw [waiting_resolveDangling, h.waiting]

theorem endCaseGroup (h : Drawn scope d d₁ W) : Drawn scope d d₁.endCaseGroup W := by
  refine h.move .mark (fun id => ?_) (by simp)
  rw [waiting_endCaseGroup, h.waiting]

theorem ensureOpen (h : Drawn scope d d₁ W) : Drawn scope d d₁.ensureOpen W := by
  have hrun := Run.ensureOpen h.steady
  refine ⟨hrun.steady h.steady, h.run.trans hrun, fun id => ?_, fun p hp => h.resumptions p ?_⟩
  · rw [waiting_ensureOpen h.steady, h.waiting]
  · rwa [resumptions_ensureOpen] at hp

theorem emit (h : Drawn scope d d₁ W) (kind : ElementKind) (span : Span) :
    Drawn scope d (d₁.emit kind span) W := by
  have ho := h.ensureOpen
  refine ho.move (.emit ⟨kind, span⟩ d₁.current_ensureOpen) (fun id => ?_) rfl
  rw [← ho.waiting id]
  exact waiting_congr (fresh_modify ..) rfl rfl id

/-- Exceptional edges may be added while the block is open. -/
theorem link (h : Drawn scope d d₁ W) {id : BlockId} (isOpen : d₁.current = some id)
    {edges : List Edge} (exceptional : ∀ e ∈ edges, e.isExceptional = true)
    (ahead : ∀ e ∈ edges, d₁.Awaits e.target) : Drawn scope d (d₁.addEdges id edges) W := by
  refine h.move (.link isOpen exceptional ahead) (fun i => ?_) rfl
  rw [← h.waiting i]
  exact waiting_congr (fresh_addEdges ..) rfl rfl i

/-- What may be linked before a block is opened for it may be linked afterwards. -/
theorem awaits_ensureOpen (h : Drawn scope d d₁ W) {id : BlockId} (hid : d₁.Awaits id) :
    d₁.ensureOpen.Awaits id := by
  rcases hid with hid | hid | hid
  · exact Or.inl hid
  · exact Or.inr (Or.inl ((h.ensureOpen.waiting id).mpr ((h.waiting id).mp hid)))
  · exact Or.inr (Or.inr (((Run.ensureOpen h.steady).extends h.steady).isLoopHeader hid))

theorem terminate (h : Drawn scope d d₁ W) {t : Terminator} {edges : List Edge} {span : Option Span}
    (ending : t.Ending edges) (ahead : ∀ e ∈ edges, d₁.Awaits e.target)
    (silent : t.isJump = false ∨ span = none) : Drawn scope d (d₁.terminate t edges span) W := by
  rw [terminate_eq_sealed h.steady]
  have ho := h.ensureOpen
  refine ho.move (.close d₁.current_ensureOpen ending (fun e he => ?_) silent) (fun id => ?_) rfl
  · exact h.awaits_ensureOpen (ahead e he)
  · rw [waiting_sealed d₁.current_ensureOpen, ho.waiting]

/-- A jump ends the open block and names where to. -/
theorem jump (h : Drawn scope d d₁ W) {t : Terminator} {edges : List Edge} (span : Span)
    (isJump : t.isJump = true) (ending : t.Ending edges) (ahead : ∀ e ∈ edges, d₁.Awaits e.target) :
    Drawn scope d (d₁.jump t edges span) W := by
  have ho := h.ensureOpen
  have hm := Move.jump span d₁.current_ensureOpen isJump ending
    fun e he => h.awaits_ensureOpen (ahead e he)
  have heq : d₁.jump t edges span = { d₁.ensureOpen.sealed d₁.openBlock t edges (some span) with
      dangling := d₁.ensureOpen.dangling ++ [d₁.openBlock] } := by
    simp only [Draft.jump, terminate_eq_sealed h.steady]
    rfl
  rw [heq]
  refine ho.move hm (fun id => ?_) rfl
  rw [← ho.waiting id]
  exact waiting_sealed d₁.current_ensureOpen t edges (some span) id

theorem closeOpen (h : Drawn scope d d₁ W) {t : Terminator} {edges : List Edge}
    (ending : t.Ending edges) (ahead : ∀ e ∈ edges, d₁.Awaits e.target) :
    Drawn scope d (d₁.closeOpen t edges) W := by
  cases hc : d₁.current with
  | none =>
    rw [closeOpen_of_none hc]
    exact h
  | some id =>
    rw [closeOpen_of_some h.steady hc]
    refine h.move (.close hc ending ahead (Or.inr rfl)) (fun i => ?_) rfl
    rw [waiting_sealed hc, h.waiting]

theorem fallInto (h : Drawn scope d d₁ W) (next : BlockId) (hnext : W next) :
    Drawn scope d (d₁.fallInto next) W := by
  have hc : Drawn scope d (d₁.closeOpen .fallThrough [.sequential next]) W := by
    refine h.closeOpen (.fallThrough next) fun e he => ?_
    rw [List.mem_singleton.mp he]
    exact h.awaits hnext
  exact hc.resolve next (by simp) (hc.lt hnext)

theorem goto (h : Drawn scope d d₁ W) (kind : EdgeKind) (target : BlockId)
    (hkind : kind = .sequential ∨ kind = .loopBack) (ahead : d₁.Awaits target) :
    Drawn scope d (d₁.goto kind target) W := by
  have hc : Drawn scope d (d₁.closeOpen (.jump target) [⟨kind, target⟩]) W := by
    refine h.closeOpen (.jump target hkind) fun e he => ?_
    rw [List.mem_singleton.mp he]
    exact ahead
  refine hc.resolve target (by simp) ?_
  rw [fresh_closeOpen]
  exact ahead.lt

/-- Going on in a block takes it off those that wait. -/
theorem continueAt (h : Drawn scope d d₁ W) (next : BlockId) (hnext : W next) :
    Drawn scope d (d₁.continueAt next) fun id => W id ∧ id ≠ next := by
  have hstart := (h.fallInto next hnext).start next (by simp) hnext
  rw [start_of_none (by simp)] at hstart
  exact hstart

theorem branch (h : Drawn scope d d₁ W) (onTrue onFalse : BlockId) (span : Span)
    (ht : d₁.Awaits onTrue) (hf : d₁.Awaits onFalse) :
    Drawn scope d (d₁.branch onTrue onFalse span) W := by
  refine h.terminate (.branch onTrue onFalse) (fun e he => ?_) (Or.inl rfl)
  rcases List.mem_cons.mp he with rfl | he
  · exact ht
  · rw [List.mem_singleton.mp he]
    exact hf

theorem leaveArrowGroup (h : Drawn scope d d₁ W) (after : BlockId) (hafter : W after) :
    Drawn scope d (d₁.leaveArrowGroup after) W := by
  have hc : Drawn scope d (d₁.closeOpen (.breaking after) [.sequential after]) W := by
    refine h.closeOpen (.breaking after after) fun e he => ?_
    rw [List.mem_singleton.mp he]
    exact h.awaits hafter
  exact hc.resolve after (by simp) (hc.lt hafter)

theorem resumeAt (h : Drawn scope d d₁ W) {resumptions : List (BlockId × Edge)}
    (pending : ∀ p ∈ resumptions, d₁.Waiting p.1) (ahead : ∀ p ∈ resumptions, d₁.Awaits p.2.target)
    (hreg : ∀ p ∈ resumptions, scope.Registers p ∨ d.fresh ≤ p.1) :
    Drawn scope d (d₁.resumeAt resumptions) W := by
  have hm := Move.resume pending ahead
  refine ⟨hm.steady h.steady, h.run.tail hm, fun id => ?_, fun p hp => ?_⟩
  · rw [← h.waiting id]
    exact waiting_congr rfl rfl rfl id
  · rcases mem_appendAllNew.mp hp with hp | hp
    · exact h.resumptions p hp
    · exact Or.inr (hreg p hp)

/-- Resumptions of the scope itself may always be registered. -/
theorem register (h : Drawn scope d d₁ W) (hfit : scope.Fits d₁)
    {resumptions : List (BlockId × Edge)} (hreg : ∀ p ∈ resumptions, scope.Registers p) :
    Drawn scope d (d₁.resumeAt resumptions) W := by
  refine h.resumeAt (fun p hp => ?_) (fun p hp => hfit.awaits (hreg p hp).names)
    fun p hp => Or.inl (hreg p hp)
  obtain ⟨handler, hm, hf⟩ := (hreg p hp).finalizer
  exact hfit.entries handler hm p.1 (Or.inr hf)

/-- A scope fits as long as no block that it names is opened. -/
theorem fits (h : Drawn scope d d₁ W) (hd : d.Steady) (hfit : inner.Fits d)
    (hW : ∀ id, inner.Names id → d.Waiting id → W id) : inner.Fits d₁ :=
  hfit.of_run hd h.run fun id hn hid => (h.waiting id).mpr (hW id hn hid)

/-- Raising is part of a drawing: its edges lead to handlers that wait. -/
theorem raise (hd : d.Steady) {id : BlockId} (isOpen : d.current = some id) (hfit : scope.Fits d)
    (declared : List TypeName) : Drawn scope d (d.raise scope declared) d.Waiting := by
  have hlink :
      Drawn scope d (d.addEdges d.openBlock (scope.raiseRoute declared).edges) d.Waiting := by
    rw [openBlock_eq isOpen]
    refine (refl hd).link isOpen (fun e he => ?_) fun e he =>
      hfit.awaits (Scope.Leaves.throwing he).names
    obtain ⟨target, _, rfl⟩ := List.mem_map.mp he
    rfl
  exact hlink.register (hlink.fits hd hfit fun _ _ hid => hid) fun p hp => .throwing hp

/-- Leaving a block by a route of the scope. -/
theorem jumpVia (hd : d.Steady) (hfit : scope.Fits d) {t : Terminator} {route : JumpRoute}
    (span : Span) (isJump : t.isJump = true) (ending : t.Ending [route.edge])
    (leaves : scope.Leaves route.edge) (registers : ∀ p ∈ route.resumptions, scope.Registers p) :
    Drawn scope d (d.jumpVia t route span) d.Waiting := by
  have hjump : Drawn scope d (d.jump t [route.edge] span) d.Waiting := by
    refine (refl hd).jump span isJump ending fun e he => ?_
    rw [List.mem_singleton.mp he]
    exact hfit.awaits leaves.names
  exact hjump.register (hjump.fits hd hfit fun _ _ hid => hid) registers

/-- Leaving the code of a `try` block or of a catch clause keeps what waits. -/
theorem run_leaveRegion (scope : Scope) (hd : d.Steady) (finalizer : Option BlockId)
    (after : BlockId) (hafter : d.Waiting after)
    (hentry : ∀ entry, finalizer = some entry → d.Waiting entry) :
    Run d (d.leaveRegion finalizer after) ∧
      ∀ id, (d.leaveRegion finalizer after).Waiting id ↔ d.Waiting id := by
  have h₀ : Drawn scope d d d.Waiting := refl hd
  cases finalizer with
  | none => exact ⟨(h₀.fallInto after hafter).run, (h₀.fallInto after hafter).waiting⟩
  | some entry =>
    simp only [Draft.leaveRegion]
    cases hc : d.current with
    | none => exact ⟨(h₀.resolve after hc hafter.lt).run, (h₀.resolve after hc hafter.lt).waiting⟩
    | some id =>
      have hclose : Drawn scope d (d.closeOpen .fallThrough [.sequential entry]) d.Waiting := by
        refine h₀.closeOpen (.fallThrough entry) fun e he => ?_
        rw [List.mem_singleton.mp he]
        exact h₀.awaits (hentry entry rfl)
      have hres : Move (d.closeOpen .fallThrough [.sequential entry])
          ((d.closeOpen .fallThrough [.sequential entry]).resumeAt
            [(entry, .sequential after)]) := by
        refine .resume ?_ ?_ <;> intro p hp <;> rw [List.mem_singleton.mp hp]
        · exact (hclose.waiting entry).mpr (hentry entry rfl)
        · exact hclose.awaits hafter
      have hk : Drawn scope ((d.closeOpen .fallThrough [.sequential entry]).resumeAt
          [(entry, .sequential after)]) _ _ :=
        (refl (hres.steady hclose.steady)).resolve after (current_closeOpen ..)
          (hclose.lt hafter)
      refine ⟨(hclose.run.tail hres).trans hk.run, fun id => (hk.waiting id).trans ?_⟩
      exact (waiting_congr rfl rfl rfl id).trans (hclose.waiting id)

/-- Leaving a region is part of a drawing, past its `finally` clause or not. -/
theorem leaveRegion (h : Drawn scope d d₁ W) (finalizer : Option BlockId) (after : BlockId)
    (hafter : W after) (hentry : ∀ entry, finalizer = some entry → W entry ∧ d.fresh ≤ entry) :
    Drawn scope d (d₁.leaveRegion finalizer after) W := by
  obtain ⟨hrun, hwait⟩ := run_leaveRegion scope h.steady finalizer after ((h.waiting _).mpr hafter)
    fun entry hf => (h.waiting _).mpr (hentry entry hf).1
  refine ⟨hrun.steady h.steady, h.run.trans hrun, fun id => (hwait id).trans (h.waiting id), ?_⟩
  intro p hp
  rcases mem_resumptions_leaveRegion hp with hp | ⟨hf, _⟩
  · exact h.resumptions p hp
  · exact Or.inr (Or.inr (hentry p.1 hf).2)

/-- Leaving a `finally` clause is part of a drawing when its resumptions lead ahead. -/
theorem leaveFinalizer (h : Drawn scope d d₁ W) (entry after : BlockId) (hafter : W after)
    (ahead : ∀ e, (entry, e) ∈ d₁.resumptions → d₁.Awaits e.target)
    (kinds : ∀ e, (entry, e) ∈ d₁.resumptions →
      e.kind = .sequential ∨ e.kind = .loopBack ∨ e.kind = .exceptional) :
    Drawn scope d (d₁.leaveFinalizer entry after) W := by
  unfold Draft.leaveFinalizer
  split
  · exact h.fallInto after hafter
  · rename_i edges hne
    exact h.closeOpen (.endFinally hne fun e he => kinds e (mem_resumptionsOf.mp he))
      fun e he => ahead e (mem_resumptionsOf.mp he)

theorem expectUnchecked (h : Drawn scope d d₁ W) {id : BlockId} (isOpen : d₁.current = some id)
    (types : Subtyping) {clauses : List CatchTarget} (ahead : ∀ c ∈ clauses, W c.entry) :
    Drawn scope d (d₁.expectUnchecked types clauses) W := by
  unfold Draft.expectUnchecked
  rw [openBlock_eq isOpen]
  refine h.link isOpen ?_ ?_ <;> intro e he <;> obtain ⟨c, hc, rfl⟩ := List.mem_map.mp he
  · rfl
  · exact h.awaits (ahead c (List.mem_filter.mp hc).1)

theorem createGroups (h : Drawn scope d d₁ W) (groups : List CaseGroup) :
    Drawn scope d (CaseGroup.createBlocks groups d₁)
      fun id => W id ∨ d₁.fresh ≤ id ∧ id < d₁.fresh + groups.length := by
  unfold CaseGroup.createBlocks
  induction groups generalizing d₁ W with
  | nil => exact h.congr (by grind)
  | cons group groups ih =>
    rw [List.foldl_cons, List.length_cons]
    refine (ih (h.create .caseGroup (some group.span))).congr ?_
    rw [fresh_create]
    grind

theorem createClauses (h : Drawn scope d d₁ W) (clauses : List CatchClause) :
    Drawn scope d (CatchClause.createBlocks clauses d₁)
      fun id => W id ∨ d₁.fresh ≤ id ∧ id < d₁.fresh + clauses.length := by
  unfold CatchClause.createBlocks
  induction clauses generalizing d₁ W with
  | nil => exact h.congr (by grind)
  | cons clause clauses ih =>
    rw [List.foldl_cons, List.length_cons, createClause_eq]
    refine (ih (h.add .handler _ (some clause.span))).congr ?_
    rw [fresh_add]
    grind

end Drawn

end Draft

end MethodFlow
