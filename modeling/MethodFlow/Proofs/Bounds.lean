import MethodFlow.Proofs.Leaving
import MethodFlow.Proofs.Skeletons
import MethodFlow.Proofs.Traces

/-!
# Traces within a scope

What is drawn in a scope stays within bounds: an edge leads to a block that is made for it, from the
number `lo` on, or it is one by which a jump or an exception leaves the scope. `Rules.inScope` are
the rules that say so. What is in bounds inside a target is in bounds around it (`Trace.of_inside`),
and what leaves a `try` statement leaves the scope around it or goes to a handler
(`Scope.Leaves.of_guarded`), so the parts of a construct are traces of the whole.

Here are the operations of drawing that depend on a scope, the pieces between the parts of a
construct, and expressions. Main result: `Expr.traced`.
-/

namespace MethodFlow

/-! ## Edges that leave a scope -/

namespace ThrowRoute

variable {types : Subtyping} {toExit : Bool} {hs : List Handler} {thrown : List TypeName}
  {targets : List BlockId} {id : BlockId}

theorem mem_offer_nil {clauses : List CatchTarget}
    (hid : id ∈ (offer types clauses thrown targets).2) :
    id ∈ targets ∨ id ∈ (offer types clauses thrown []).2 := by
  induction clauses generalizing thrown targets with
  | nil => exact Or.inl hid
  | cons c clauses ih =>
    simp only [offer] at hid ⊢
    rcases ih hid with hid | hid
    · by_cases hm : thrown.any (c.mayReceive types) = true
      · rw [if_pos hm] at hid ⊢
        rcases mem_appendNew.mp hid with hid | rfl
        · exact Or.inl hid
        · exact Or.inr (subset_offer _ _ _ _ (mem_appendNew.mpr (Or.inr rfl)))
      · rw [if_neg hm] at hid
        exact Or.inl hid
    · exact Or.inr ((offer_mono types clauses (List.Subset.refl _) (List.nil_subset _)).2 hid)

/-- What a route leads to was found before, or is found without that too. -/
theorem mem_targets_nil (hid : id ∈ (through types toExit hs thrown targets).targets) :
    id ∈ targets ∨ id ∈ (through types toExit hs thrown []).targets := by
  induction hs generalizing thrown targets with
  | nil =>
    simp only [through] at hid ⊢
    split at hid
    · exact (List.mem_append.mp hid).imp_right fun hid => by rwa [if_pos ‹_›]
    · exact Or.inl hid
  | cons h outer ih =>
    have hfst := offer_fst types h.catches thrown targets []
    have here : id ∈ (offer types h.catches thrown targets).2 →
        id ∈ targets ∨ id ∈ (through types toExit (h :: outer) thrown []).targets := fun hid =>
      (mem_offer_nil hid).imp_right fun hid => offer_subset_targets hid
    by_cases hr : (offer types h.catches thrown targets).1 = []
    · rw [through_cons_done hr] at hid
      exact here hid
    · have hr' : (offer types h.catches thrown []).1 ≠ [] := hfst ▸ hr
      cases hf : h.finalizer with
      | none =>
        rw [through_cons_none hr hf] at hid
        rcases ih hid with hid | hid
        · exact here hid
        · refine Or.inr ?_
          rw [through_cons_none hr' hf, ← hfst]
          exact targets_mono outer (List.nil_subset _) (fun h => h) hid
      | some entry =>
        rw [through_cons_some hr hf] at hid
        rcases mem_appendNew.mp hid with hid | rfl
        · exact here hid
        · rw [through_cons_some hr' hf]
          exact Or.inr (mem_appendNew.mpr (Or.inr rfl))

end ThrowRoute

namespace Scope

variable {scope : Scope} {labels : List String} {kind : TargetKind} {after : BlockId}
    {h : Handler} {e : Edge}

/-- What leaves the scope inside a target goes to the target or leaves the scope around it. -/
theorem Leaves.of_inside (he : (scope.inside labels kind after).Leaves e) :
    scope.Leaves e ∨ e.target = after ∨ kind = .loop e.target := by
  cases he with
  | @breaking t ht =>
    rcases List.mem_cons.mp ht with rfl | ht
    · rw [breakRoute, crossed_self]
      exact Or.inr (Or.inl rfl)
    · exact Or.inl (.breaking ht)
  | @continuing t c ht hc =>
    rcases List.mem_cons.mp ht with rfl | ht
    · rw [continueRoute, crossed_self]
      cases kind with
      | loop next => exact Or.inr (Or.inr (congrArg TargetKind.loop (Option.some.inj hc)))
      | switch => cases hc
      | labeled => cases hc
    · exact Or.inl (.continuing ht hc)
  | returning => exact Or.inl .returning
  | throwing he => exact Or.inl (.throwing he)

/-- A jump from inside a `try` statement goes to its `finally` clause, or on if there is none. -/
private theorem jump_of_guarded (final : Edge) {hs : List Handler}
    (hrest : scope.Leaves (JumpRoute.through final hs).edge) :
    h.finalizer = none ∧ scope.Leaves (JumpRoute.through final (h :: hs)).edge ∨
      h.finalizer = some (JumpRoute.through final (h :: hs)).edge.target := by
  cases hf : h.finalizer with
  | none =>
    rw [JumpRoute.through_cons_none hf]
    exact Or.inl ⟨rfl, hrest⟩
  | some entry =>
    rw [JumpRoute.through_cons_some hf]
    exact Or.inr rfl

/-- What leaves the scope inside a `try` statement goes to one of its handlers, or leaves the scope
around it, but only if there is no `finally` clause. -/
theorem Leaves.of_guarded (depth_le : ∀ t ∈ scope.targets, t.depth ≤ scope.handlers.length)
    (he : (scope.guarded h).Leaves e) : h.finalizer = none ∧ scope.Leaves e ∨
      h.HasEntry e.target := by
  cases he with
  | @breaking t ht =>
    have hl : scope.Leaves (scope.breakRoute t).edge := .breaking ht
    rw [breakRoute, crossed_guarded (depth_le t ht)]
    exact (jump_of_guarded _ hl).imp_right Or.inr
  | @continuing t c ht hc =>
    have hl : scope.Leaves (scope.continueRoute t c).edge := .continuing ht hc
    rw [continueRoute, crossed_guarded (depth_le t ht)]
    exact (jump_of_guarded _ hl).imp_right Or.inr
  | returning => exact (jump_of_guarded _ .returning).imp_right Or.inr
  | @throwing _ toExit thrown he =>
    obtain ⟨id, hid, rfl⟩ := List.mem_map.mp he
    have here : id ∈ (ThrowRoute.offer scope.types h.catches thrown []).2 →
        h.HasEntry id := fun hid =>
      Or.inl ((ThrowRoute.mem_offer hid).resolve_left List.not_mem_nil)
    by_cases hr : (ThrowRoute.offer scope.types h.catches thrown []).1 = []
    · rw [guarded, ThrowRoute.through_cons_done hr] at hid
      exact Or.inr (here hid)
    · cases hf : h.finalizer with
      | none =>
        rw [guarded, ThrowRoute.through_cons_none hr hf] at hid
        rcases ThrowRoute.mem_targets_nil hid with hid | hid
        · exact Or.inr (here hid)
        · exact Or.inl ⟨rfl, .throwing (List.mem_map.mpr ⟨id, hid, rfl⟩)⟩
      | some entry =>
        rw [guarded, ThrowRoute.through_cons_some hr hf] at hid
        rcases mem_appendNew.mp hid with hid | rfl
        · exact Or.inr (here hid)
        · exact Or.inr (Or.inr hf)

/-- A jump from inside a `try` statement does not go to a catch clause. -/
theorem Leaves.of_guarded_normal (depth_le : ∀ t ∈ scope.targets, t.depth ≤ scope.handlers.length)
    (he : (scope.guarded h).Leaves e) (hnormal : e.isExceptional = false) :
    scope.Leaves e ∨ h.finalizer = some e.target := by
  cases he with
  | @breaking t ht =>
    have hl : scope.Leaves (scope.breakRoute t).edge := .breaking ht
    rw [breakRoute, crossed_guarded (depth_le t ht)]
    exact (jump_of_guarded _ hl).imp_left And.right
  | @continuing t c ht hc =>
    have hl : scope.Leaves (scope.continueRoute t c).edge := .continuing ht hc
    rw [continueRoute, crossed_guarded (depth_le t ht)]
    exact (jump_of_guarded _ hl).imp_left And.right
  | returning => exact (jump_of_guarded _ .returning).imp_left And.right
  | throwing he =>
    obtain ⟨id, _, rfl⟩ := List.mem_map.mp he
    cases hnormal

/-- An edge that may be drawn may also be drawn through handlers of the scope. -/
private theorem expects_jump {d : Draft} {id : BlockId} (hfit : scope.Fits d) {hs : List Handler}
    (hsub : hs ⊆ scope.handlers) {final : Edge} (hfinal : d.Expects id final) :
    d.Expects id (JumpRoute.through final hs).edge := by
  rcases JumpRoute.edge_through final hs with he | ⟨h, hm, entry, hf, he⟩
  · rwa [he]
  · rw [he]
    exact Draft.Waiting.expects (hfit.entries h (hsub hm) entry (Or.inr hf))

/-- An edge that leaves the scope leads to a block that is still to come, or back to the header of a
loop. -/
theorem Fits.expects {d : Draft} (hfit : scope.Fits d) (he : scope.Leaves e) (id : BlockId) :
    d.Expects id e := by
  cases he with
  | @breaking t ht =>
    exact expects_jump hfit (crossed_subset scope t) (Draft.Waiting.expects (hfit.breaks t ht))
  | @continuing t c ht hc =>
    refine expects_jump hfit (crossed_subset scope t) ?_
    rcases hfit.rounds t ht c hc with hc | hc | hc
    · exact Or.inl hc
    · exact Or.inr (Or.inl hc)
    · exact Or.inr (Or.inr ⟨hc, Or.inl rfl⟩)
  | returning => exact expects_jump hfit (List.Subset.refl _) (Or.inl rfl)
  | throwing he =>
    obtain ⟨target, rfl, ht⟩ := ThrowRoute.mem_edges he
    rcases ht with rfl | ⟨h, hm, ht⟩
    · exact Or.inl rfl
    · exact Draft.Waiting.expects (hfit.entries h hm target ht)

end Scope

namespace Draft

/-- The rules for what is drawn in a scope, where blocks from `lo` on are its own. -/
def Rules.inScope (R : Rules) (scope : Scope) (lo : BlockId) : Rules :=
  { R with edge := fun e => lo ≤ e.target ∨ scope.Leaves e }

variable {R R' : Rules} {scope : Scope} {lo lo' : BlockId} {d d' : Draft}

/-- Other rules that allow all that may be drawn in a scope where blocks from `lo` on are its
own. -/
structure Rules.Admits (R' R : Rules) (scope : Scope) (lo : BlockId) : Prop where
  new : ∀ {e : Edge}, lo ≤ e.target → R'.edge e
  leaves : ∀ {e : Edge}, scope.Leaves e → R'.edge e
  resumption : ∀ {p : BlockId × Edge}, R.resumption p → R'.resumption p
  ending : ∀ {d : Draft} {id : BlockId} {edges : List Edge}, R.ending d id edges →
    R'.ending d id edges

theorem Rules.Admits.of_le (h : R'.Admits R scope lo) (hle : lo ≤ lo') : R'.Admits R scope lo' :=
  { h with new := fun he => h.new (Nat.le_trans hle he) }

/-- The rules of a scope admit the scope itself. -/
theorem Rules.admits_inScope (R : Rules) (scope : Scope) (lo : BlockId) :
    (R.inScope scope lo).Admits R scope lo :=
  ⟨Or.inl, Or.inr, id, id⟩

/-- A trace within a scope obeys every set of rules that admits the scope. -/
theorem Trace.admitted (h : Trace (R.inScope scope lo) d d') (hR : R'.Admits R scope lo) :
    Trace R' d d' :=
  h.mono (fun _ he => he.elim hR.new hR.leaves) (fun _ => hR.resumption) fun _ _ _ => hR.ending

/-- A part ends in the block it began in or in one that was made for it. -/
theorem Drawn.openBlock_new (h : Drawn scope d d' d.Waiting) (hd : d.Steady) (hlo : lo ≤ d.fresh)
    (hcur : ∀ id, d.current = some id → lo ≤ id) : lo ≤ d'.openBlock := by
  cases hc : d'.current with
  | none =>
    rw [openBlock, hc]
    exact Nat.le_trans hlo (h.fresh_le hd)
  | some id =>
    rw [openBlock_eq hc]
    refine Nat.le_of_not_lt fun hlt => ?_
    -- The block was there before, but it was not open, so it waits or is closed, now as then.
    have hnot : d.current ≠ some id := fun h => Nat.not_le_of_lt hlt (hcur id h)
    by_cases hm : id ∈ d.closed
    · exact h.steady.current_open id hc ((h.run.extends hd).closed.subset hm)
    · have hold : id < d.fresh := Nat.lt_of_lt_of_le hlt hlo
      exact ((h.waiting id).mpr ⟨hold, hm, hnot⟩).2.2 hc

namespace Trace

theorem of_le (h : Trace (R.inScope scope lo') d d') (hle : lo ≤ lo') :
    Trace (R.inScope scope lo) d d' :=
  h.mono (fun _ he => he.imp_left (Nat.le_trans hle)) (fun _ hp => hp) fun _ _ _ he => he

/-- What is drawn inside a target leaves the outer scope only as that scope allows. -/
theorem of_inside {labels : List String} {kind : TargetKind} {after : BlockId}
    (h : Trace (R.inScope (scope.inside labels kind after) lo') d d') (hle : lo ≤ lo')
    (hafter : lo ≤ after) (hround : ∀ c, kind = .loop c → lo ≤ c) :
      Trace (R.inScope scope lo) d d' := by
  refine h.mono (fun e he => ?_) (fun _ hp => hp) fun _ _ _ he => he
  rcases he with he | he
  · exact Or.inl (Nat.le_trans hle he)
  · rcases he.of_inside with he | he | he
    · exact Or.inr he
    · exact Or.inl (he ▸ hafter)
    · exact Or.inl (hround _ he)

/-! ## Operations that depend on the scope -/

/-- Resumptions of the scope may be registered if the rules have them. -/
theorem register (hfit : scope.Fits d) {resumptions : List (BlockId × Edge)}
    (hreg : ∀ p ∈ resumptions, scope.Registers p) (allowed : ∀ p ∈ resumptions, R.resumption p) :
    Trace R d (d.resumeAt resumptions) := by
  refine resumeAt (fun p hp => ?_) (fun p hp => hfit.awaits (hreg p hp).names) allowed
  obtain ⟨handler, hm, hf⟩ := (hreg p hp).finalizer
  exact hfit.entries handler hm p.1 (Or.inr hf)

/-- Raising stays within the scope: its edges lead to handlers of the scope. -/
theorem raise (hd : d.Steady) {id : BlockId} (isOpen : d.current = some id) (hfit : scope.Fits d)
    (hR : ∀ p : BlockId × Edge, p.2.isExceptional = true → R.resumption p)
    (declared : List TypeName) :
    Trace (R.inScope scope lo) d (d.raise scope declared) := by
  have leaves : ∀ e ∈ (scope.raiseRoute declared).edges, scope.Leaves e := fun e he => .throwing he
  have hlink :
      Step (R.inScope scope lo) d (d.addEdges d.openBlock (scope.raiseRoute declared).edges) := by
    rw [openBlock_eq isOpen]
    refine .link isOpen (fun e he => ?_) (fun e he => hfit.expects (leaves e he) id)
      fun e he => Or.inr (leaves e he)
    obtain ⟨target, _, rfl⟩ := List.mem_map.mp he
    rfl
  have hfit' : scope.Fits (d.addEdges d.openBlock (scope.raiseRoute declared).edges) :=
    hfit.of_run hd (.single hlink.move) fun i _ hi =>
      (waiting_congr (fresh_addEdges ..) rfl rfl i).mpr hi
  refine (single hlink).trans (register hfit' (fun p hp => .throwing hp) fun p hp => hR p ?_)
  obtain ⟨_, id, he, _⟩ := ThrowRoute.mem_resumptions hp
  rw [he]
  rfl

/-- A jump stays within the scope when its route does. -/
theorem jumpVia (hd : d.Steady) (hfit : scope.Fits d) {t : Terminator} {route : JumpRoute}
    (span : Span) (isJump : t.isJump = true) (ending : t.Ending [route.edge])
    (leaves : scope.Leaves route.edge) (registers : ∀ p ∈ route.resumptions, scope.Registers p)
    (allowed : ∀ p ∈ route.resumptions, R.resumption p) :
    Trace (R.inScope scope lo) d (d.jumpVia t route span) := by
  have hjump : Trace (R.inScope scope lo) d (d.jump t [route.edge] span) := by
    refine jump hd span isJump ending ?_ ?_ <;> intro e he <;> rw [List.mem_singleton.mp he]
    · exact hfit.expects leaves _
    · exact Or.inr leaves
  have hdrawn : Drawn scope d (d.jump t [route.edge] span) d.Waiting := by
    refine (Drawn.refl hd).jump span isJump ending fun e he => ?_
    rw [List.mem_singleton.mp he]
    exact hfit.awaits leaves.names
  exact hjump.trans (register (hdrawn.fits hd hfit fun _ _ hid => hid) registers allowed)

/-- Leaving the code of a `try` block or of a catch clause. -/
theorem leaveRegion (hd : d.Steady) {finalizer : Option BlockId} {after : BlockId}
    (hafter : d.Waiting after) (hnone : finalizer = none → R.edge (.sequential after))
    (hentry : ∀ entry, finalizer = some entry → d.Waiting entry ∧ R.edge (.sequential entry))
    (allowed : ∀ entry, finalizer = some entry → R.resumption (entry, .sequential after)) :
    Trace R d (d.leaveRegion finalizer after) := by
  cases finalizer with
  | none => exact fallInto hd hafter (hnone rfl)
  | some entry =>
    obtain ⟨hw, hedge⟩ := hentry entry rfl
    simp only [Draft.leaveRegion]
    cases hc : d.current with
    | none => exact single (.resolve hc hafter.lt)
    | some id =>
      have hclose : Trace R d (d.closeOpen .fallThrough [.sequential entry]) := by
        refine closeOpen hd (.fallThrough entry) ?_ ?_ (by rintro ⟨⟩) <;> intro e he <;>
          rw [List.mem_singleton.mp he]
        · exact Waiting.expects hw
        · exact hedge
      have waits := waiting_closeOpen hd .fallThrough [.sequential entry]
      refine (hclose.tail (.resume ?_ ?_ ?_)).tail (.resolve (current_closeOpen ..) ?_)
      · intro p hp
        rw [List.mem_singleton.mp hp]
        exact (waits entry).mpr hw
      · intro p hp
        rw [List.mem_singleton.mp hp]
        exact Or.inr (Or.inl ((waits after).mpr hafter))
      · intro p hp
        rw [List.mem_singleton.mp hp]
        exact allowed entry rfl
      · exact ((waits after).mpr hafter).lt

/-- The end of a `finally` clause, where only what leaves the scope, or goes on after it, waits for
it. -/
theorem leaveFinalizer (hd : d.Steady) (hfit : scope.Fits d) {entry after : BlockId}
    (hafter : d.Waiting after) (leaves : ∀ {e : Edge}, scope.Leaves e → R.edge e)
    (past : R.edge (.sequential after))
    (pending : ∀ e, (entry, e) ∈ d.resumptions → scope.Leaves e ∨ e = .sequential after)
    (final : ∀ id, d.current = some id → R.ending d id (d.resumptionsOf entry)) :
    Trace R d (d.leaveFinalizer entry after) := by
  unfold Draft.leaveFinalizer
  split
  · exact fallInto hd hafter past
  · rename_i hne
    refine closeOpen hd (.endFinally hne ?_) ?_ ?_ fun _ => final <;> intro e he <;>
      rcases pending e (mem_resumptionsOf.mp he) with he | rfl
    · exact he.kind
    · exact Or.inl rfl
    · exact hfit.expects he _
    · exact Waiting.expects hafter
    · exact leaves he
    · exact past

theorem expectUnchecked {id : BlockId} (isOpen : d.current = some id) (types : Subtyping)
    {clauses : List CatchTarget}
    (ahead : ∀ c ∈ clauses, d.Waiting c.entry ∧ R.edge (.exceptional c.entry)) :
    Trace R d (d.expectUnchecked types clauses) := by
  unfold Draft.expectUnchecked
  rw [openBlock_eq isOpen]
  refine single (.link isOpen ?_ ?_ ?_) <;> intro e he <;> obtain ⟨c, hc, rfl⟩ := List.mem_map.mp he
  · rfl
  · exact Waiting.expects (ahead c (List.mem_filter.mp hc).1).1
  · exact (ahead c (List.mem_filter.mp hc).1).2

/-! ## Pieces between the parts of a construct -/

theorem openHeader (hd : d.Steady) (span : Option Span) :
    Trace (R.inScope scope d.fresh) d (d.openHeader span) := by
  have hc : Drawn scope d (d.create .loopHeader span) _ := (Drawn.refl hd).create .loopHeader span
  exact (create .loopHeader span).trans
    (continueAt hc.steady ((hc.waiting _).mpr (Or.inr rfl)) (Or.inl (Nat.le_refl _)))

/-- Making blocks, branching to new ones and going on in one of them. -/
private theorem fork {made : Draft} {W : BlockId → Prop}
    (h : Trace (R.inScope scope d.fresh) d made) (hmade : Drawn scope d made W)
    {onTrue onFalse : BlockId} (span : Span) (htrue : W onTrue) (hfalse : W onFalse)
    (hle : d.fresh ≤ onTrue ∧ d.fresh ≤ onFalse) :
    Trace (R.inScope scope d.fresh) d ((made.branch onTrue onFalse span).start onTrue) := by
  have hb : Trace (R.inScope scope d.fresh) made (made.branch onTrue onFalse span) :=
    branch hmade.steady span (Waiting.expects ((hmade.waiting _).mpr htrue))
      ((hmade.waiting _).mpr hfalse)
      ⟨Or.inl hle.1, Or.inl hle.2⟩
  have hw : (made.branch onTrue onFalse span).Waiting onTrue :=
    (waiting_terminate hmade.steady _ _ _ _).mpr ((hmade.waiting _).mpr htrue)
  exact (h.trans hb).trans (start (current_branch ..) hw)

theorem openBody (hd : d.Steady) (body test : Span) :
    Trace (R.inScope scope d.fresh) d (d.openBody body test) := by
  have hmade : Drawn scope d _ _ := ((Drawn.refl hd).create .normal (some body)).create .normal none
  exact fork ((create .normal (some body)).trans (create .normal none)) hmade test
    (Or.inl (Or.inr rfl)) (Or.inr (fresh_create ..).symm) ⟨Nat.le_refl _, Nat.le_succ _⟩

theorem openCond (hd : d.Steady) (cons alt test : Span) :
    Trace (R.inScope scope d.fresh) d (d.openCond cons alt test) := by
  have hmade : Drawn scope d _ _ :=
    (((Drawn.refl hd).create .normal (some cons)).create .normal (some alt)).create .join none
  exact fork
    (((create .normal (some cons)).trans (create .normal (some alt))).trans (create .join none))
      hmade
    test (Or.inl (Or.inl (Or.inr rfl))) (Or.inl (Or.inr (fresh_create ..).symm))
    ⟨Nat.le_refl _, Nat.le_succ _⟩

theorem openIf (hd : d.Steady) (cons : Stmt) (alt : Option Stmt) (test : Span) :
    Trace (R.inScope scope d.fresh) d (d.openIf cons alt test) := by
  have hmade : Drawn scope d _ _ :=
    ((Drawn.refl hd).create .normal (some cons.span)).create .join none
  have h :
      Trace (R.inScope scope d.fresh) d ((d.create .normal (some cons.span)).create .join none) :=
    (create .normal (some cons.span)).trans (create .join none)
  cases alt with
  | none =>
    exact fork h hmade test (Or.inl (Or.inr rfl)) (Or.inr (fresh_create ..).symm)
      ⟨Nat.le_refl _, Nat.le_succ _⟩
  | some alt =>
    refine fork (h.trans (create .normal (some alt.span)))
      (hmade.create .normal (some alt.span)) test
      (Or.inl (Or.inl (Or.inr rfl))) (Or.inr ?_) ⟨Nat.le_refl _, Nat.le_add_right _ _⟩
    rw [fresh_create, fresh_create]
    rfl

theorem openDo (hd : d.Steady) (body test : Span) :
    Trace (R.inScope scope d.fresh) d (d.openDo body test) := by
  have hmade : Drawn scope d _ _ :=
    (((Drawn.refl hd).create .loopHeader (some body)).create .condition
    (some test)).create .normal none
  refine (((create .loopHeader (some body)).trans (create .condition (some test))).trans
    (create .normal none)).trans (continueAt hmade.steady ((hmade.waiting _).mpr ?_)
    (Or.inl (Nat.le_refl _)))
  exact Or.inl (Or.inl (Or.inr rfl))

theorem makeFor (updates : Bool) (body : Span) : Trace R d (d.makeFor updates body) := by
  have h : Trace R d ((d.create .normal (some body)).create .normal none) :=
    (create .normal (some body)).trans (create .normal none)
  unfold Draft.makeFor
  split
  · exact h.trans (create .normal none)
  · exact h

theorem openSwitch (hd : d.Steady) (groups : List CaseGroup) (selector : Span) :
    Trace (R.inScope scope d.fresh) d (d.openSwitch groups selector) := by
  have hmade : Drawn scope d _ _ := ((Drawn.refl hd).create .normal none).createGroups groups
  have within : ∀ e ∈ Terminator.switchEdges (CaseGroup.valueTargets groups (d.fresh + 1))
      (some ((CaseGroup.defaultTarget? groups (d.fresh + 1)).getD d.fresh)),
      d.fresh ≤ e.target ∧ e.target < d.fresh + 1 + groups.length := by
    intro e he
    rcases Terminator.mem_switchEdges he with ht | ht
    · obtain ⟨hl, hr⟩ := CaseGroup.mem_valueTargets ht
      grind
    · cases hdef : CaseGroup.defaultTarget? groups (d.fresh + 1) with
      | none =>
        rw [hdef] at ht
        have ht : d.fresh = e.target := Option.some.inj ht
        grind
      | some id =>
        obtain ⟨hl, hr⟩ := CaseGroup.defaultTarget?_range hdef
        rw [hdef] at ht
        have ht : id = e.target := Option.some.inj ht
        grind
  refine ((create .normal none).trans (createGroups groups)).trans
    (terminate hmade.steady (.switch _ _) (fun e he => Waiting.expects ((hmade.waiting _).mpr ?_))
      (Or.inl rfl) (fun e he => Or.inl (within e he).1) nofun)
  obtain ⟨hl, hr⟩ := within e he
  rw [fresh_create]
  grind

/-- The blocks of a `try` statement are made, and the one for its block is entered. -/
theorem enterTry (hd : d.Steady) (types : Subtyping) (catches : List CatchClause)
    (finalizer : Option Block) (block : Span)
    (allowed : R.edge (.sequential (firstCatch d.fresh finalizer + catches.length))) :
    Trace R d (((d.makeTry catches finalizer).create .normal (some block)).continueAt
      (firstCatch d.fresh finalizer + catches.length)) := by
  have hmade : Drawn { types } d _ _ :=
    ((Drawn.refl hd).makeTry catches finalizer).create .normal (some block)
  have h : Trace R d ((d.makeTry catches finalizer).create .normal (some block)) := by
    refine Trace.trans ?_ (create .normal (some block))
    unfold Draft.makeTry
    cases finalizer with
    | none => exact (create .normal none).trans (createClauses catches)
    | some final =>
      exact ((create .normal none).trans (create .finalizer (some final.span))).trans
        (createClauses catches)
  exact h.trans (continueAt hmade.steady
    ((hmade.waiting _).mpr (Or.inr (d.fresh_makeTry catches finalizer).symm)) allowed)

/-- From its first block on, a `try` block may raise what any code may. -/
theorem expectTry (hd : d.Steady) (types : Subtyping) (catches : List CatchClause)
    (finalizer : Option Block) (block : Span)
    (allowed : ∀ c ∈ (handlerAt d.fresh catches finalizer).catches, R.edge (.exceptional c.entry)) :
    Trace R (((d.makeTry catches finalizer).create .normal (some block)).continueAt
      (firstCatch d.fresh finalizer + catches.length))
        (d.openTry types catches finalizer block) := by
  have hmade : Drawn { types } d _ _ :=
    ((Drawn.refl hd).makeTry catches finalizer).create .normal (some block)
  have hopen := hmade.continueAt _ (Or.inr (d.fresh_makeTry catches finalizer).symm)
  refine expectUnchecked (current_continueAt _ _) types fun c hc => ⟨?_, allowed c hc⟩
  obtain ⟨hl, hr⟩ := hasEntry_handlerAt (Or.inl ⟨c, hc, rfl⟩)
  exact (hopen.waiting _).mpr ⟨Or.inl (Or.inr ⟨Nat.le_of_lt hl, hr⟩), Nat.ne_of_lt hr⟩

/-- Up to the `try` block, edges lead to the block and to the catch clauses only. -/
theorem openTry (hd : d.Steady) (types : Subtyping) (catches : List CatchClause)
    (finalizer : Option Block) (block : Span)
    (allowed : ∀ e : Edge, firstCatch d.fresh finalizer ≤ e.target → R.edge e) :
    Trace R d (d.openTry types catches finalizer block) :=
  (enterTry hd types catches finalizer block (allowed _ (Nat.le_add_right _ _))).trans
    (expectTry hd types catches finalizer block fun _ hc => allowed _ (firstCatch_le_handlerAt hc))

end Trace

/-- A part was drawn in a scope, by its rules. -/
structure Traced (R : Rules) (scope : Scope) (d d' : Draft) : Prop where
  drawn : Drawn scope d d' d.Waiting
  trace : Trace (R.inScope scope d.fresh) d d'

namespace Traced

variable {d₁ d₂ : Draft}

theorem skip (hd : d.Steady) : Traced R scope d d := ⟨.refl hd, .refl d⟩

theorem andThen (h : Traced R scope d d₁) (hd : d.Steady) (hfit : scope.Fits d)
    (hrest : d₁.Steady → scope.Fits d₁ → Traced R scope d₁ d₂) : Traced R scope d d₂ := by
  have hrest := hrest h.drawn.steady (h.drawn.fits hd hfit fun _ _ hid => hid)
  exact ⟨h.drawn.part hd hrest.drawn fun _ hp => Or.inl hp,
    h.trace.trans (hrest.trace.of_le (h.drawn.fresh_le hd))⟩

theorem emit (hd : d.Steady) (kind : ElementKind) (span : Span) :
    Traced R scope d (d.emit kind span) :=
  ⟨(Drawn.refl hd).emit kind span, .emit hd kind span⟩

end Traced

end Draft

/-! ## Expressions -/

open Draft (Drawn Trace Traced)

section Expressions

variable {R : Draft.Rules} {scope : Scope} {d : Draft}

theorem Expr.traced_cond {test cons alt : Expr} (span : Span)
    (iht : test.Obeys scope fun d d' _ => Traced R scope d d')
    (ihc : cons.Obeys scope fun d d' _ => Traced R scope d d')
    (iha : alt.Obeys scope fun d d' _ => Traced R scope d d') :
    (Expr.cond test cons alt span).Obeys scope fun d d' _ => Traced R scope d d' := by
  intro d hd hfit
  rw [Expr.draw_cond]
  refine (iht hd hfit).andThen hd hfit ?_
  generalize test.draw scope d = d
  intro hd hfit
  have h : Draft.CondDrawn scope d _ _ cons.span alt.span test.span :=
    .of_parts hd hfit (fun hd hfit => (ihc hd hfit).drawn) fun hd hfit => (iha hd hfit).drawn
  have hjoin := (h.after_cons.waiting (d.fresh + 2)).mpr (Or.inr (Or.inr rfl))
  have hother := (Draft.waiting_fallInto h.after_cons.steady (d.fresh + 2) (d.fresh + 1)).mpr
    ((h.after_cons.waiting _).mpr (Or.inr (Or.inl rfl)))
  refine ⟨h.whole, ?_⟩
  refine ((((Trace.openCond hd cons.span alt.span test.span).trans
    ((ihc h.opened.steady h.fits_cons).trace.of_le (h.opened.fresh_le hd))).trans
    (.fallInto h.after_cons.steady hjoin (Or.inl (Nat.le_add_right _ _)))).trans
    (.start (by simp) hother)).trans
    (((iha h.turned.steady h.fits_alt).trace.of_le (h.turned.fresh_le hd)).trans ?_)
  exact .continueAt h.after_alt.steady ((h.after_alt.waiting _).mpr (Or.inr rfl))
    (Or.inl (Nat.le_add_right _ _))

/-- Expressions obey the rules of their scope, one constructor at a time. -/
theorem Expr.compositional_traced
    (hR : ∀ p : BlockId × Edge, p.2.isExceptional = true → R.resumption p) :
    Expr.Compositional scope fun d d' _ => Traced R scope d d' where
  skip := .skip
  andThen := .andThen
  emit := .emit
  raise := fun hd hfit isOpen declared =>
    ⟨.raise hd isOpen hfit declared, .raise hd isOpen hfit hR declared⟩
  cond := Expr.traced_cond

variable (hR : ∀ p : BlockId × Edge, p.2.isExceptional = true → R.resumption p)
include hR

theorem Expr.traced (e : Expr) (hd : d.Steady) (hfit : scope.Fits d) :
    Traced R scope d (e.draw scope d) :=
  e.compose (Expr.compositional_traced hR) hd hfit

theorem Expr.traced_option (e : Option Expr) (hd : d.Steady) (hfit : scope.Fits d) :
    Traced R scope d (Expr.drawOption scope e d) :=
  Expr.compose_option (Expr.compositional_traced hR)
    (fun e _ => e.compose (Expr.compositional_traced hR)) hd
    hfit

theorem Expr.traced_all (es : List Expr) (hd : d.Steady) (hfit : scope.Fits d) :
    Traced R scope d (Expr.drawAll scope es d) :=
  Expr.compose_all (Expr.compositional_traced hR)
    (fun e _ => e.compose (Expr.compositional_traced hR)) hd hfit

theorem LocalVar.traced (decl : LocalVar) (hd : d.Steady) (hfit : scope.Fits d) :
    Traced R scope d (decl.draw scope d) :=
  decl.compose (Expr.compositional_traced hR) hd hfit

theorem LocalVar.traced_resources (decls : List LocalVar) (hg : (!scope.handlers.isEmpty) = true)
    (hd : d.Steady) (hfit : scope.Fits d) :
      Traced R scope d (LocalVar.drawResources scope decls d) :=
  LocalVar.compose_resources (Expr.compositional_traced hR) decls hg hd hfit

/-! ## Tests and updates of loops -/

theorem Draft.Trace.testFor {lo : BlockId} (hd : d.Steady) (hfit : scope.Fits d)
    (test : Option Expr) {inner after : BlockId} (hinner : d.Waiting inner)
    (hafter : d.Waiting after) (hle : lo ≤ d.fresh ∧ lo ≤ inner ∧ lo ≤ after) :
    Trace (R.inScope scope lo) d (d.testFor scope test inner after) := by
  unfold Draft.testFor
  cases test with
  | none =>
    have hclose :
        Trace (R.inScope scope lo) d (d.terminate (.jump inner) [.sequential inner] none) := by
      refine .terminate hd (.jump inner (Or.inl rfl)) ?_ (Or.inl rfl) ?_ nofun <;> intro e he <;>
        rw [List.mem_singleton.mp he]
      · exact Draft.Waiting.expects hinner
      · exact Or.inl hle.2.1
    exact hclose.trans (.start (by simp) ((Draft.waiting_terminate hd _ _ _ _).mpr hinner))
  | some test =>
    have ht := test.traced hR hd hfit
    have hw := ht.drawn.waiting
    exact ((ht.trace.of_le hle.1).trans (.branch ht.drawn.steady test.span
      (Draft.Waiting.expects ((hw inner).mpr hinner)) ((hw after).mpr hafter)
      ⟨Or.inl hle.2.1, Or.inl hle.2.2⟩)).trans
      (.start (by simp)
        ((Draft.waiting_terminate ht.drawn.steady _ _ _ _).mpr ((hw inner).mpr hinner)))

/-- The update of a `for` loop goes round to the header and nowhere else. -/
theorem Draft.Trace.updateFor {R' : Draft.Rules} {lo : BlockId} (hd : d.Steady)
    (hfit : scope.Fits d) (update : List Expr) {next : BlockId} (hle : lo ≤ d.fresh)
    (hR' : R'.Admits R scope lo) (hnext : update.isEmpty = false →
      R'.edge ⟨.loopBack, next⟩ ∧ d.Waiting next ∧ ∀ id, scope.Names id → id ≠ next) :
    Trace R' d (d.updateFor scope update next) := by
  unfold Draft.updateFor
  split
  · exact .refl d
  · rename_i hempty
    obtain ⟨hedge, hw, hnew⟩ := hnext (Bool.eq_false_iff.mpr hempty)
    obtain ⟨hsteady, hfit'⟩ := hfit.turn hd hw hnew
    have hturn : Drawn scope d (d.turn .loopBack next next) _ :=
      (Drawn.refl hd).turn (Or.inr rfl) (Or.inr (Or.inl hw)) hw
    exact (Trace.turn hd (Or.inr rfl) (Draft.Waiting.expects hw) hedge hw).trans
      ((Expr.traced_all hR update hsteady hfit').trace.admitted
        (hR'.of_le (Nat.le_trans hle (hturn.fresh_le hd))))

end Expressions

end MethodFlow
