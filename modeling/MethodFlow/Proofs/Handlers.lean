import MethodFlow.Proofs.Switches

/-!
# `try` statements are drawn faithfully

An execution that leaves a `try` block goes to the catch clauses that its exception may be received
by, or leaves the clauses behind (`Lands.past_clauses`). One that leaves the code in front of the
`finally` clause, in whatever way, is `Draft.Leaving` the region: it enters the clause
(`Leaving.enters`), and at the end of the clause it is where it would be without it
(`Leaving.resumes`).

Between two clauses the drawing satisfies `CatchClause.Ready`, and `Ready.step` draws one of them.
-/

namespace MethodFlow

open Draft (Drawn Part)

namespace Draft

variable {D d d' : Draft} {w : List Element} {scope : Scope} {x : Exit}

/-! ## Past the clauses -/

/-- Jumps take no notice of catch clauses. -/
theorem breakRoute_guarded (h : Handler) (target : Target) :
    (scope.guarded h).breakRoute target = (scope.guarded ⟨[], h.finalizer⟩).breakRoute target := by
  unfold Scope.breakRoute Scope.crossed Scope.guarded
  simp only [List.length_cons]
  cases scope.handlers.length + 1 - target.depth with
  | zero => rfl
  | succ n => exact JumpRoute.through_cons_congr rfl _ _

/-- A `continue` takes no notice of catch clauses. -/
theorem continueRoute_guarded (h : Handler) (target : Target) (next : BlockId) :
    (scope.guarded h).continueRoute target next =
      (scope.guarded ⟨[], h.finalizer⟩).continueRoute target next := by
  unfold Scope.continueRoute Scope.crossed Scope.guarded
  simp only [List.length_cons]
  cases scope.handlers.length + 1 - target.depth with
  | zero => rfl
  | succ n => exact JumpRoute.through_cons_congr rfl _ _

theorem returnRoute_guarded (h : Handler) :
    (scope.guarded h).returnRoute = (scope.guarded ⟨[], h.finalizer⟩).returnRoute :=
  JumpRoute.through_cons_congr rfl _ _

/-- An exception that no clause certainly receives spreads past them. -/
theorem Spreads.past_clauses {toExit : Bool} {h : Handler} {thrown : List TypeName} {T : TypeName}
    (hs : Spreads D d w (.through scope.types toExit (h :: scope.handlers) thrown []))
    (hT : T ∈ thrown) (hpass : ∀ c ∈ h.catches, c.receivesAll scope.types T = false) :
    ∃ rest, T ∈ rest ∧
      Spreads D d w
        (.through scope.types toExit (⟨[], h.finalizer⟩ :: scope.handlers) rest []) := by
  have hm := ThrowRoute.mem_offer_fst [] hT hpass
  obtain ⟨htargets, hres⟩ := ThrowRoute.through_past toExit scope.handlers (List.ne_nil_of_mem hm)
  exact ⟨_, hm, fun id hid => hs.1 id (htargets hid), hres ▸ hs.2⟩

/-- An exit of a `try` block that no clause receives for certain. -/
theorem Lands.past_clauses {h : Handler} (hl : Lands D (scope.guarded h) [] d w x)
    (hx : x ≠ .completed)
    (hpass : ∀ T, x.exception? = some T → ∀ c ∈ h.catches, c.receivesAll scope.types T = false) :
    Lands D (scope.guarded ⟨[], h.finalizer⟩) [] d w x := by
  cases x with
  | completed => exact absurd rfl hx
  | stopped => exact hl
  | breaking label =>
    rcases hl with ⟨⟨_, hm, _⟩, _⟩ | ⟨hlabel, line, target, ht, hr⟩
    · exact nomatch hm
    · exact Or.inr ⟨hlabel, line, target, ht, breakRoute_guarded h target ▸ hr⟩
  | continuing label =>
    obtain ⟨line, target, next, ht, hr⟩ := hl
    exact ⟨line, target, next, ht, continueRoute_guarded h target next ▸ hr⟩
  | returning =>
    have hl : Takes D d w (scope.guarded h).returnRoute := hl
    rw [returnRoute_guarded] at hl
    exact hl
  | threw T =>
    obtain ⟨thrown, hT, hs⟩ := hl
    exact hs.past_clauses hT (hpass T rfl)
  | raised T =>
    obtain ⟨hw, thrown, hT, hs⟩ := hl
    exact ⟨hw, hs.past_clauses hT (hpass T rfl)⟩

/-- An exception comes to every clause that may receive it, unless one before it receives all of its
kind. -/
theorem Lands.leads_of_offer {h : Handler} {T : TypeName} (hl : Lands D (scope.guarded h) [] d w x)
    (hx : x.exception? = some T) :
    ∀ id ∈ (ThrowRoute.offer scope.types h.catches [T] []).2, D.Leads w id := by
  have spreads : ∀ {toExit thrown}, T ∈ thrown →
      Spreads D d w (.through scope.types toExit (h :: scope.handlers) thrown []) →
      ∀ id ∈ (ThrowRoute.offer scope.types h.catches [T] []).2, D.Leads w id := by
    intro toExit thrown hT hs id hid
    refine hs.1 id (ThrowRoute.offer_subset_targets ?_)
    exact (ThrowRoute.offer_mono scope.types h.catches (by simpa using hT) (List.Subset.refl [])).2
      hid
  cases x with
  | threw type =>
    cases hx
    obtain ⟨thrown, hT, hs⟩ := hl
    exact spreads hT hs
  | raised type =>
    cases hx
    obtain ⟨_, thrown, hT, hs⟩ := hl
    exact spreads hT hs
  | _ => exact nomatch hx

/-! ## Through the `finally` clause -/

variable {finalizer : Option BlockId} {after entry : BlockId}

/-- The code in front of the `finally` clause, if there is one, is left: at its end, and then
control is on its way to the block after the statement, or in another way. -/
def Leaving (D : Draft) (scope : Scope) (finalizer : Option BlockId) (after : BlockId) (d : Draft)
    (w : List Element) (x : Exit) : Prop :=
  x = .completed ∧ Takes D d w (.through (.sequential after) [⟨[], finalizer⟩]) ∨
    x ≠ .completed ∧ Lands D (scope.guarded ⟨[], finalizer⟩) [] d w x

theorem Leaving.of_extends (h : Leaving D scope finalizer after d w x) (hext : d.Extends d') :
    Leaving D scope finalizer after d' w x := by
  rcases h with ⟨hx, h⟩ | ⟨hx, h⟩
  · exact Or.inl ⟨hx, h.of_extends hext⟩
  · exact Or.inr ⟨hx, h.of_extends hext hx⟩

theorem extends_leaveRegion (hd : d.Steady) (finalizer : Option BlockId) (after : BlockId) :
    d.Extends (d.leaveRegion finalizer after) := by
  cases finalizer with
  | none => exact extends_fallInto hd after
  | some entry =>
    simp only [Draft.leaveRegion]
    split
    · exact ((extends_closeOpen hd _ _).trans (extends_resumeAt _ _)).trans
        (extends_resolveDangling _ _)
    · exact extends_resolveDangling d after

/-- The end of a `try` block or of a catch clause. -/
theorem At.leaveRegion (h : At D d w) (hd : d.Steady)
    (hext : (d.leaveRegion finalizer after).Extends D) :
    Takes D (d.leaveRegion finalizer after) w (.through (.sequential after) [⟨[], finalizer⟩]) := by
  cases finalizer with
  | none => exact ⟨h.fallInto hd hext, List.nil_subset _⟩
  | some entry =>
    obtain ⟨id, hi⟩ := h.current
    simp only [Draft.leaveRegion, hi] at hext ⊢
    have hext_c := (extends_resumeAt _ _).trans ((extends_resolveDangling _ _).trans hext)
    refine ⟨h.closeOpen hd hext_c List.mem_cons_self, fun p hp => ?_⟩
    rw [resumptions_resolveDangling]
    exact mem_appendAllNew.mpr (Or.inr hp)

/-- Where guarded code lands, control is left to leave the region. -/
theorem Lands.leaving (h : Lands D (scope.guarded ⟨[], finalizer⟩) [] d w x) (hd : d.Steady)
    (hext : (d.leaveRegion finalizer after).Extends D) :
    Leaving D scope finalizer after (d.leaveRegion finalizer after) w x := by
  by_cases hx : x = .completed
  · subst hx
    exact Or.inl ⟨rfl, At.leaveRegion h hd hext⟩
  · exact Or.inr ⟨hx, h.of_extends (extends_leaveRegion hd finalizer after) hx⟩

/-- Control that leaves the region is on a route through the `finally` clause, and wherever the rest
of this route is taken it has left the statement in the same way. -/
inductive Leaving.Route (D : Draft) (scope : Scope) (finalizer : Option BlockId) (after : BlockId)
    (d : Draft) (w : List Element) (x : Exit) : Prop
  | stopped (hx : x = .stopped) (shows : D.graph.Shows w)
  | jump {final : Edge} {hs : List Handler}
      (takes : Takes D d w (.through final (⟨[], finalizer⟩ :: hs)))
      (rest : ∀ {d' w'}, Takes D d' w' (.through final hs) → (D.Leads w' after → At D d' w') →
        Lands D scope [] d' w' x)
  | throw {toExit : Bool} {thrown : List TypeName} (some_thrown : thrown ≠ [])
      (spreads : Spreads D d w
        (.through scope.types toExit (⟨[], finalizer⟩ :: scope.handlers) thrown []))
      (rest : ∀ {d' w'}, (w' = w ∨ D.graph.Shows w') →
        Spreads D d' w' (.through scope.types toExit scope.handlers thrown []) →
          Lands D scope [] d' w' x)

/-- What leaves a region has a route, through its `finally` clause if there is one. -/
theorem Leaving.route (h : Leaving D scope finalizer after d w x)
    (hdepth : ∀ t ∈ scope.targets, t.depth ≤ scope.handlers.length) :
    Leaving.Route D scope finalizer after d w x := by
  rcases h with ⟨rfl, h⟩ | ⟨hx, h⟩
  · exact .jump h fun h hafter => hafter h.1
  cases x with
  | completed => exact absurd rfl hx
  | stopped => exact .stopped rfl h
  | breaking label =>
    rcases h with ⟨⟨_, hm, _⟩, _⟩ | ⟨hlabel, line, target, ht, hr⟩
    · exact nomatch hm
    · rw [Scope.breakRoute, Scope.crossed_guarded (hdepth target (Scope.breakTarget_mem ht))] at hr
      exact .jump hr fun hr _ => Or.inr ⟨hlabel, line, target, ht, hr⟩
  | continuing label =>
    obtain ⟨line, target, next, ht, hr⟩ := h
    rw [Scope.continueRoute,
      Scope.crossed_guarded (hdepth target (Scope.continueTarget_mem ht).1)] at hr
    exact .jump hr fun hr _ => ⟨line, target, next, ht, hr⟩
  | returning => exact .jump h fun hr _ => hr
  | threw T =>
    obtain ⟨thrown, hT, hs⟩ := h
    exact .throw (List.ne_nil_of_mem hT) hs fun _ hs => ⟨thrown, hT, hs⟩
  | raised T =>
    obtain ⟨hw, thrown, hT, hs⟩ := h
    refine .throw (List.ne_nil_of_mem hT) hs fun hw' hs => ⟨?_, thrown, hT, hs⟩
    exact hw'.elim (fun he => he ▸ hw) id

/-- Without a `finally` clause the statement is left at once. -/
theorem Leaving.none (h : Leaving D scope none after d w x)
    (hdepth : ∀ t ∈ scope.targets, t.depth ≤ scope.handlers.length) (hext : d.Extends d')
    (hafter : D.Leads w after → At D d' w) : Lands D scope [] d' w x := by
  cases h.route hdepth with
  | stopped hx shows =>
    subst hx
    exact shows
  | jump takes rest =>
    rw [JumpRoute.through_cons_none rfl] at takes
    exact rest (takes.of_extends hext) hafter
  | throw some_thrown spreads rest =>
    rw [ThrowRoute.through_bare_none some_thrown] at spreads
    exact rest (Or.inl rfl) (spreads.of_extends hext)

/-- Whoever leaves the region comes to the `finally` clause. -/
theorem Leaving.enters (h : Leaving D scope (some entry) after d w x)
    (hdepth : ∀ t ∈ scope.targets, t.depth ≤ scope.handlers.length) (hx : x ≠ .stopped) :
    D.Leads w entry := by
  cases h.route hdepth with
  | stopped hs _ => exact absurd hs hx
  | jump takes _ =>
    rw [JumpRoute.through_cons_some rfl] at takes
    exact takes.1
  | throw some_thrown spreads _ =>
    rw [ThrowRoute.through_bare_some some_thrown] at spreads
    exact spreads.1 entry List.mem_cons_self

/-- At the end of the `finally` clause every exit is resumed. -/
theorem Leaving.resumes {v : List Element} (h : Leaving D scope (some entry) after d w x)
    (hdepth : ∀ t ∈ scope.targets, t.depth ≤ scope.handlers.length) (hx : x ≠ .stopped)
    (hext : d.Extends d') (resumed : ∀ e, (entry, e) ∈ d.resumptions → D.Leads v e.target)
    (shows : D.graph.Shows v) (hafter : D.Leads v after → At D d' v) : Lands D scope [] d' v x := by
  cases h.route hdepth with
  | stopped hs _ => exact absurd hs hx
  | jump takes rest =>
    rw [JumpRoute.through_cons_some rfl] at takes
    obtain ⟨_, hres⟩ := takes
    refine rest ⟨resumed _ (hres List.mem_cons_self), fun p hp => hext.resumptions ?_⟩ hafter
    exact hres (List.mem_cons_of_mem _ hp)
  | throw some_thrown spreads rest =>
    rw [ThrowRoute.through_bare_some some_thrown] at spreads
    obtain ⟨_, hres⟩ := spreads
    refine rest (Or.inr shows) ⟨fun id hid => ?_, fun p hp => hext.resumptions (hres ?_)⟩
    · have hid := ThrowRoute.targets_mono scope.handlers (List.Subset.refl []) (fun _ => rfl) hid
      exact resumed _ (hres (List.mem_append_right _ (List.mem_map.mpr ⟨id, hid, rfl⟩)))
    · rw [ThrowRoute.resumptions_through] at hp
      exact List.mem_append_left _ hp

end Draft

namespace Draft

theorem extends_leaveFinalizer {d : Draft} (hd : d.Steady) (entry after : BlockId) :
    d.Extends (d.leaveFinalizer entry after) := by
  unfold Draft.leaveFinalizer
  split
  · exact extends_fallInto hd after
  · exact extends_closeOpen hd _ _

/-- At the end of a `finally` clause control goes on to wherever something waits for it. -/
theorem At.leaveFinalizer {D d : Draft} {w : List Element} (h : At D d w) (hd : d.Steady)
    {entry after : BlockId} (hext : (d.leaveFinalizer entry after).Extends D) {e : Edge}
    (he : (entry, e) ∈ d.resumptions) : D.Leads w e.target := by
  have hm := mem_resumptionsOf.mpr he
  unfold Draft.leaveFinalizer at hext
  split at hext
  · rename_i hnil
    rw [hnil] at hm
    exact nomatch hm
  · exact h.closeOpen hd hext hm

end Draft

/-! ## Catch clauses -/

section Guarded

variable {scope : Scope} {d : Draft}

/-- Inside a `try` statement the only other resumptions are those of its own `finally` clause. -/
theorem registers_of_guarded (hfit : scope.Fits d) {handler : Handler}
    (hnew : ∀ entry, handler.finalizer = some entry → d.fresh ≤ entry) :
    ∀ p, (scope.guarded handler).Registers p → scope.Registers p ∨ d.fresh ≤ p.1 := by
  intro p hp
  rcases hp.of_guarded hfit.depth_le with ⟨hf, _⟩ | hp
  · exact Or.inr (hnew p.1 hf)
  · exact Or.inl hp

/-- What waits for the `finally` clause of a `try` statement leaves the scope around it. -/
theorem leaves_of_guarded (hfit : scope.Fits d) {handler : Handler} {entry : BlockId} {e : Edge}
    (hnew : d.fresh ≤ entry) (hp : (scope.guarded handler).Registers (entry, e)) :
      scope.Leaves e := by
  rcases hp.of_guarded hfit.depth_le with ⟨_, he⟩ | hp
  · exact he
  · obtain ⟨h, hm, hf⟩ := hp.finalizer
    exact absurd (hfit.entries h hm entry (Or.inr hf)).lt (Nat.not_lt_of_le hnew)

end Guarded

/-- Whatever waits for the `finally` clause leaves the scope around the statement, or goes on after
it. -/
def Draft.Pending (d : Draft) (scope : Scope) (finalizer : Option BlockId)
    (after : BlockId) : Prop :=
  ∀ entry e, finalizer = some entry → (entry, e) ∈ d.resumptions → scope.Leaves e ∨
    e = .sequential after

/-- Code in front of the `finally` clause adds only what leaves the statement. -/
theorem Draft.Pending.part {d₀ d d₁ : Draft} {scope : Scope} {handler : Handler} {after : BlockId}
    {W : BlockId → Prop} (h : d.Pending scope handler.finalizer after) (hfit : scope.Fits d₀)
    (hnew : ∀ entry, handler.finalizer = some entry → d₀.fresh ≤ entry ∧ entry < d.fresh)
    (hpart : Drawn (scope.guarded handler) d d₁ W) : d₁.Pending scope handler.finalizer after := by
  intro entry e hf he
  rcases hpart.resumptions _ he with he | he | he
  · exact h entry e hf he
  · exact Or.inl (leaves_of_guarded hfit (hnew entry hf).1 he)
  · exact absurd he (Nat.not_le_of_lt (hnew entry hf).2)

theorem Draft.Pending.leaveRegion {d : Draft} {scope : Scope} {finalizer : Option BlockId}
    {after : BlockId} (h : d.Pending scope finalizer after) :
    (d.leaveRegion finalizer after).Pending scope finalizer after := by
  intro entry e hf he
  rcases Draft.mem_resumptions_leaveRegion he with he | ⟨_, he⟩
  · exact h entry e hf he
  · exact Or.inr he

/-- Between two catch clauses of a `try` statement that was begun at `d₀`: the blocks from `block`
on belong to the clauses that are left, and those in `W` are waiting. -/
structure CatchClause.Ready (scope : Scope) (d₀ : Draft) (finalizer : Option BlockId)
    (after : BlockId) (clauses : List CatchClause) (block : BlockId) (W : BlockId → Prop)
    (d : Draft) : Prop where
  steady : d₀.Steady
  fits : scope.Fits d₀
  drawn : Drawn scope d₀ d W
  idle : d.current = none
  keeps : ∀ id, d₀.Waiting id → W id
  blocks : ∀ id, block ≤ id → id < block + clauses.length → W id
  past : W after ∧ d₀.fresh ≤ after ∧ after < block
  entry : ∀ entry, finalizer = some entry → W entry ∧ after < entry ∧ entry < block
  pending : d.Pending scope finalizer after
  parameters : d.Parameters clauses block
  past_blank : d.Contains after []
  entry_blank : ∀ entry, finalizer = some entry → d.Contains entry []

namespace CatchClause

variable {scope : Scope} {d₀ d d₁ d' : Draft} {finalizer : Option BlockId} {after block : BlockId}
  {clause : CatchClause} {clauses : List CatchClause} {W : BlockId → Prop}

theorem Ready.entry_new (hr : Ready scope d₀ finalizer after clauses block W d) {entry : BlockId}
    (hf : finalizer = some entry) : d₀.fresh ≤ entry :=
  Nat.le_trans hr.past.2.1 (Nat.le_of_lt (hr.entry entry hf).2.1)

/-- The scope of a clause fits, in which only the `finally` clause is left. -/
theorem Ready.fits_guarded {W' : BlockId → Prop}
    (hr : Ready scope d₀ finalizer after clauses block W d) (hd : Drawn scope d₀ d₁ W')
    (hW : ∀ id, W id → id < block → W' id) : (scope.guarded ⟨[], finalizer⟩).Fits d₁ := by
  refine (hd.fits hr.steady hr.fits fun id hn hid => hW id (hr.keeps id hid) ?_).guarded ?_
  · exact Nat.lt_trans (Nat.lt_of_lt_of_le hid.lt hr.past.2.1) hr.past.2.2
  · rintro id (⟨_, hc, _⟩ | hf)
    · exact nomatch hc
    · exact (hd.waiting id).mpr (hW id (hr.entry id hf).1 (hr.entry id hf).2.2)

/-- A catch clause starts in its own block, inside the `finally` clause only. -/
theorem Ready.opened_clause (hr : Ready scope d₀ finalizer after (clause :: clauses) block W d) :
    Drawn scope d₀ (d.start block) (fun id => W id ∧ id ≠ block) ∧
      (scope.guarded ⟨[], finalizer⟩).Fits (d.start block) := by
  have hlen : block < block + (clause :: clauses).length := Nat.lt_add_of_pos_right (Nat.succ_pos _)
  have hs := hr.drawn.start block hr.idle (hr.blocks block (Nat.le_refl _) hlen)
  exact ⟨hs, hr.fits_guarded hs fun id hid hlt => ⟨hid, Nat.ne_of_lt hlt⟩⟩

/-- Drawing a catch clause uses up its block and no other. -/
theorem Ready.drawn_clause (hr : Ready scope d₀ finalizer after (clause :: clauses) block W d)
    (h : Drawn (scope.guarded ⟨[], finalizer⟩) (d.start block) d₁ (d.start block).Waiting) :
    Drawn scope d₀ d₁ fun id => W id ∧ id ≠ block :=
  hr.opened_clause.1.part hr.steady h (registers_of_guarded hr.fits fun _ hf => hr.entry_new hf)

theorem Ready.past_clause (hr : Ready scope d₀ finalizer after (clause :: clauses) block W d) :
    (W after ∧ after ≠ block) ∧ ∀ entry, finalizer = some entry → W entry ∧ entry ≠ block :=
  ⟨⟨hr.past.1, Nat.ne_of_lt hr.past.2.2⟩,
    fun entry hf => ⟨(hr.entry entry hf).1, Nat.ne_of_lt (hr.entry entry hf).2.2⟩⟩

/-- Drawing one clause. -/
theorem Ready.step (hr : Ready scope d₀ finalizer after (clause :: clauses) block W d)
    (ih : ∀ s ∈ clause.body.stmts, s.Faithful)
    (h : Stmt.drawAll clause.body.stmts (scope.guarded ⟨[], finalizer⟩) (d.start block) = .ok d₁) :
    (d.start block).Steady ∧
    Part (scope.guarded ⟨[], finalizer⟩) [] (d.start block) d₁
      (Stmt.behaviourAll scope.types clause.body.stmts true) ∧
    Ready scope d₀ finalizer after clauses (block + 1) (fun id => W id ∧ id ≠ block)
      (d₁.leaveRegion finalizer after) := by
  obtain ⟨hs, hfit⟩ := hr.opened_clause
  have hp := Stmt.part_all ih hs.steady hfit h
  have hnew : ∀ entry, finalizer = some entry → d₀.fresh ≤ entry ∧
      entry < (d.start block).fresh := by
    intro entry hf
    obtain ⟨hW, _, hlt⟩ := hr.entry entry hf
    exact ⟨hr.entry_new hf, hs.lt ⟨hW, Nat.ne_of_lt hlt⟩⟩
  have hb := hr.drawn_clause hp.drawn
  obtain ⟨hpast, hentry⟩ := hr.past_clause
  have hl := hb.leaveRegion finalizer after hpast fun entry hf => ⟨hentry entry hf, hr.entry_new hf⟩
  have hext : d.Extends (d₁.leaveRegion finalizer after) :=
    ((Draft.extends_start hr.idle block).trans (hp.extends hs.steady)).trans
      (Draft.extends_leaveRegion hb.steady finalizer after)
  have hpending : (d.start block).Pending scope finalizer after := by
    rw [Draft.start_of_none hr.idle]
    exact hr.pending
  -- The block just drawn no longer waits; all others still do, and they are blank.
  refine ⟨hs.steady, hp, hr.steady, hr.fits, hl, d₁.current_leaveRegion _ _, fun id hid => ?_,
    fun id hle hlt => ?_, ?_, fun entry hf => ?_, ?_, ?_, ?_, fun entry hf => ?_⟩
  · refine ⟨hr.keeps id hid, Nat.ne_of_lt ?_⟩
    exact Nat.lt_trans (Nat.lt_of_lt_of_le hid.lt hr.past.2.1) hr.past.2.2
  · refine ⟨hr.blocks id (Nat.le_of_succ_le hle) ?_, Nat.ne_of_gt hle⟩
    rw [List.length_cons]
    grind
  · exact ⟨hpast, hr.past.2.1, Nat.lt_succ_of_lt hr.past.2.2⟩
  · exact ⟨hentry entry hf, (hr.entry entry hf).2.1, Nat.lt_succ_of_lt (hr.entry entry hf).2.2⟩
  · exact (hpending.part hr.fits hnew hp.drawn).leaveRegion
  · refine hr.parameters.2.of_extends hext fun id hle hlt => (hl.waiting id).mpr ?_
    refine ⟨hr.blocks id (Nat.le_of_succ_le hle) ?_, Nat.ne_of_gt hle⟩
    rw [List.length_cons]
    grind
  · exact hr.past_blank.of_waiting hext ((hl.waiting after).mpr hpast)
  · exact (hr.entry_blank entry hf).of_waiting hext ((hl.waiting entry).mpr (hentry entry hf))

theorem range_succ {W : BlockId → Prop} (block : BlockId) (n : Nat) :
    (fun id => (W id ∧ id ≠ block) ∧ ¬ (block + 1 ≤ id ∧ id < block + 1 + n)) =
      fun id => W id ∧ ¬ (block ≤ id ∧ id < block + (n + 1)) := by
  funext id
  grind

/-- The catch clauses of a `try` statement open their blocks one after the other. -/
theorem Ready.all (hr : Ready scope d₀ finalizer after clauses block W d)
    (ih : ∀ clause ∈ clauses, ∀ s ∈ clause.body.stmts, s.Faithful)
    (h : CatchClause.drawAll clauses (scope.guarded ⟨[], finalizer⟩) finalizer block after d =
      .ok d') :
    Ready scope d₀ finalizer after [] (block + clauses.length)
        (fun id => W id ∧ ¬ (block ≤ id ∧ id < block + clauses.length)) d' ∧ d.Extends d' := by
  induction clauses generalizing d block W with
  | nil =>
    rw [CatchClause.drawAll] at h
    cases h
    have hW :
        (fun id => W id ∧ ¬ (block ≤ id ∧ id < block + ([] : List CatchClause).length)) = W := by
      funext id
      simp only [List.length_nil]
      grind
    rw [hW]
    exact ⟨hr, .refl _⟩
  | cons clause clauses ihc =>
    rw [CatchClause.drawAll_cons] at h
    obtain ⟨d₁, h₁, h⟩ := Except.of_bind_ok h
    obtain ⟨hs, hp, hr'⟩ := hr.step (ih clause List.mem_cons_self) h₁
    obtain ⟨hall, hext⟩ := ihc hr' (fun c hc => ih c (List.mem_cons_of_mem _ hc)) h
    rw [range_succ, Nat.add_right_comm] at hall
    refine ⟨hall, ?_⟩
    exact ((Draft.extends_start hr.idle block).trans (hp.extends hs)).trans
      ((Draft.extends_leaveRegion hp.drawn.steady finalizer after).trans hext)

theorem targets_cons (clause : CatchClause) (clauses : List CatchClause) (first : BlockId) :
    targets (clause :: clauses) first = ⟨first, clause.types⟩ :: targets clauses (first + 1) := by
  unfold targets
  rw [List.mapIdx_cons, Nat.add_zero]
  congr 2
  funext index clause
  rw [Nat.add_right_comm, Nat.add_assoc]

theorem behaviour_cons (types : Subtyping) (clause : CatchClause) (clauses : List CatchClause)
    (thrown : TypeName) :
    CatchClause.behaviour types (clause :: clauses) thrown =
      .either
        (if clause.types.any (types.mayCatch thrown) then
          (Behaviour.emit (.declaration clause.param) clause.span).andThen
            (Stmt.behaviourAll types clause.body.stmts true)
        else .never)
        (if clause.types.any (types.definitelyCatches thrown) then .never
        else CatchClause.behaviour types clauses thrown) := by
  obtain ⟨_, _, ⟨_, _⟩, _⟩ := clause
  rw [CatchClause.behaviour]

/-- Every execution of the clauses leaves the region in front of the `finally` clause, for an
exception that comes to the clauses it is offered to. -/
theorem Ready.follows {D : Draft} {thrown : TypeName} {w t : List Element} {x : Exit}
    (hr : Ready scope d₀ finalizer after clauses block W d)
    (ih : ∀ clause ∈ clauses, ∀ s ∈ clause.body.stmts, s.Faithful)
    (h : CatchClause.drawAll clauses (scope.guarded ⟨[], finalizer⟩) finalizer block
      after d = .ok d')
    (hext : d'.Extends D)
    (hoffer : ∀ id ∈ (ThrowRoute.offer scope.types (targets clauses block) [thrown] []).2,
      D.Leads w id)
    (hx : CatchClause.behaviour scope.types clauses thrown t x) :
    D.Leaving scope finalizer after d' (w ++ t) x := by
  induction clauses generalizing d block W with
  | nil =>
    rw [CatchClause.behaviour] at hx
    exact hx.elim
  | cons clause clauses ihc =>
    rw [CatchClause.drawAll_cons] at h
    obtain ⟨d₁, h₁, h⟩ := Except.of_bind_ok h
    obtain ⟨hs, hp, hr'⟩ := hr.step (ih clause List.mem_cons_self) h₁
    have ihs : ∀ c ∈ clauses, ∀ s ∈ c.body.stmts, s.Faithful :=
      fun c hc => ih c (List.mem_cons_of_mem _ hc)
    obtain ⟨_, hext'⟩ := hr'.all ihs h
    rw [behaviour_cons] at hx
    rw [targets_cons, ThrowRoute.offer] at hoffer
    -- Either this clause takes the exception, or it lets it pass to the later ones.
    rcases hx with hx | hx
    · split at hx
      · rename_i hmay
        have hlead : D.Leads w block := by
          refine hoffer block (ThrowRoute.subset_offer _ _ _ _ ?_)
          rw [if_pos (List.any_eq_true.mpr ⟨thrown, List.mem_cons_self, hmay⟩)]
          exact mem_appendNew.mpr (Or.inr rfl)
        have hat := Draft.At.start hlead hr.parameters.1 hr.idle
        have hext_l := hext'.trans hext
        have hext_b := (Draft.extends_leaveRegion hp.drawn.steady finalizer after).trans hext_l
        rcases hx with ⟨⟨rfl, rfl | rfl⟩, hne⟩ | ⟨_, v, rfl, ⟨rfl, _⟩, hv⟩
        · exact absurd rfl hne
        · exact Or.inr ⟨nofun, hat.shows ((hp.extends hs).trans hext_b)⟩
        · rw [← List.append_assoc]
          exact ((hp.follows hext_b _ hat v x hv).leaving hp.drawn.steady hext_l).of_extends hext'
      · exact hx.elim
    · split at hx
      · exact hx.elim
      · rename_i hpass
        refine ihc hr' ihs h (fun id hid => hoffer id ?_) hx
        have hkeep : [thrown].filter
            (fun T => !(⟨block, clause.types⟩ : CatchTarget).receivesAll scope.types T) =
            [thrown] := by
          simp [CatchTarget.receivesAll, hpass]
        rw [hkeep]
        exact (ThrowRoute.offer_mono scope.types _ (List.Subset.refl _) (List.nil_subset _)).2 hid

/-- A `finally` clause takes only its own block from those that wait. -/
theorem Ready.keeps_finally {entry : BlockId}
    (hr : Ready scope d₀ (some entry) after [] block W d) :
    ∀ id, scope.Names id → d₀.Waiting id → W id ∧ id ≠ entry := fun id _ hid =>
  ⟨hr.keeps id hid, Nat.ne_of_lt (Nat.lt_of_lt_of_le hid.lt (hr.entry_new rfl))⟩

theorem Ready.opened_finally {entry : BlockId}
    (hr : Ready scope d₀ (some entry) after [] block W d) :
    Drawn scope d₀ (d.start entry) (fun id => W id ∧ id ≠ entry) ∧ scope.Fits (d.start entry) := by
  have hs := hr.drawn.start entry hr.idle (hr.entry entry rfl).1
  exact ⟨hs, hs.fits hr.steady hr.fits hr.keeps_finally⟩

/-- The `finally` clause itself adds nothing to what waits for it, since its scope is the one
outside. -/
theorem Ready.resumptions_finally {entry : BlockId} {e : Edge}
    (hr : Ready scope d₀ (some entry) after [] block W d)
    (h : Drawn scope (d.start entry) d₁ (d.start entry).Waiting)
    (he : (entry, e) ∈ d₁.resumptions) :
    (entry, e) ∈ d.resumptions := by
  rcases h.resumptions _ he with he | he | he
  · rwa [Draft.start_of_none hr.idle] at he
  · obtain ⟨handler, hm, hf⟩ := he.finalizer
    exact absurd (hr.fits.entries handler hm entry (Or.inr hf)).lt
      (Nat.not_lt_of_le (hr.entry_new rfl))
  · rw [Draft.fresh_start] at he
    exact absurd (hr.drawn.lt (hr.entry entry rfl).1) (Nat.not_lt_of_le he)

/-- After a `finally` clause is drawn, its resumptions still wait for it. -/
theorem Ready.pending_finally {entry : BlockId}
    (hr : Ready scope d₀ (some entry) after [] block W d)
    (h : Drawn scope (d.start entry) d₁ (d.start entry).Waiting) :
      d₁.Pending scope (some entry) after := by
  intro _ e hf he
  obtain rfl := Option.some.inj hf
  exact hr.pending entry e rfl (hr.resumptions_finally h he)

/-- Drawing the `finally` clause, which goes on to wherever its resumptions lead. -/
theorem Ready.finally {entry : BlockId} {stmts : List Stmt}
    (hr : Ready scope d₀ (some entry) after [] block W d) (ih : ∀ s ∈ stmts, s.Faithful)
    (h : Stmt.drawAll stmts scope (d.start entry) = .ok d₁) :
    (d.start entry).Steady ∧
    Part scope [] (d.start entry) d₁
      (Stmt.behaviourAll scope.types stmts (!scope.handlers.isEmpty)) ∧
    Drawn scope d₀ (d₁.leaveFinalizer entry after) fun id => W id ∧ id ≠ entry := by
  obtain ⟨_, hlt, _⟩ := hr.entry entry rfl
  obtain ⟨hs, hfits⟩ := hr.opened_finally
  have hp := Stmt.part_all ih hs.steady hfits h
  have hb := hs.part hr.steady hp.drawn fun _ hp => Or.inl hp
  have hafter : W after ∧ after ≠ entry := ⟨hr.past.1, Nat.ne_of_lt hlt⟩
  have pending := hr.pending_finally hp.drawn
  refine ⟨hs.steady, hp, hb.leaveFinalizer entry after hafter (fun e he => ?_) fun e he => ?_⟩
  · rcases pending entry e rfl he with he | rfl
    · exact (hb.fits hr.steady hr.fits hr.keeps_finally).awaits he.names
    · exact hb.awaits hafter
  · rcases pending entry e rfl he with he | rfl
    · exact he.kind
    · exact Or.inl rfl

end CatchClause

/-! ## The whole statement -/

section Finalizer

variable {scope : Scope} {d₀ d d' : Draft} {finalizer : Option Block} {after block : BlockId}
  {W : BlockId → Prop}

/-- Drawing the `finally` clause, if there is one, opens its block. -/
theorem CatchClause.Ready.drawFinalizer
    (hr : Ready scope d₀ (finalizer.map fun _ => after + 1) after [] block W d)
    (ih : ∀ final, finalizer = some final → ∀ s ∈ final.stmts, s.Faithful)
    (h : Block.drawFinalizer finalizer scope after d = .ok d') :
    Drawn scope d₀ d' (fun id => W id ∧ (finalizer.isSome → id ≠ after + 1)) ∧ d.Extends d' := by
  cases finalizer with
  | none =>
    rw [Block.drawFinalizer] at h
    cases h
    exact ⟨hr.drawn.congr fun id => (and_iff_left (by rintro ⟨⟩)).symm, .refl _⟩
  | some final =>
    rw [Block.drawFinalizer_some] at h
    obtain ⟨d₁, h₁, h⟩ := Except.of_bind_ok h
    cases h
    obtain ⟨hs, hp, hl⟩ := hr.finally (ih final rfl) h₁
    refine ⟨hl.congr fun id => by simp, ?_⟩
    exact ((Draft.extends_start hr.idle _).trans (hp.extends hs)).trans
      (Draft.extends_leaveFinalizer hp.drawn.steady _ _)

/-- Every execution that leaves the code in front of the `finally` clause runs the clause, if there
is one, and goes on from there. -/
theorem CatchClause.Ready.follows_finally {D : Draft} {inner : Behaviour}
    {w t : List Element} {x : Exit}
    (hr : Ready scope d₀ (finalizer.map fun _ => after + 1) after [] block W d)
    (ih : ∀ final, finalizer = some final → ∀ s ∈ final.stmts, s.Faithful)
    (h : Block.drawFinalizer finalizer scope after d = .ok d')
    (hext : (d'.continueAt after).Extends D)
    (hinner : ∀ u y, inner u y →
      D.Leaving scope (finalizer.map fun _ => after + 1) after d (w ++ u) y)
    (hx : Block.behaviourFinally scope.types finalizer (!scope.handlers.isEmpty) inner t x) :
    Draft.Lands D scope [] (d'.continueAt after) (w ++ t) x := by
  obtain ⟨hd', hgrows⟩ := hr.drawFinalizer ih h
  have hwaits : d'.Waiting after :=
    (hd'.waiting after).mpr ⟨hr.past.1, fun _ => Nat.ne_of_lt (Nat.lt_succ_self _)⟩
  have hextc := Draft.extends_continueAt hd'.steady after
  have hafter : ∀ {v}, D.Leads v after → D.At (d'.continueAt after) v := fun hv =>
    .continueAt_of_path hv hd'.steady hwaits (hr.past_blank.of_waiting hgrows hwaits)
  cases finalizer with
  | none => exact (hinner t x hx).none hr.fits.depth_le (hgrows.trans hextc) hafter
  | some final =>
    obtain ⟨stmts, span⟩ := final
    rw [Block.drawFinalizer_some] at h
    obtain ⟨d₁, h₁, h⟩ := Except.of_bind_ok h
    cases h
    obtain ⟨hs, hp, hl⟩ := hr.finally (ih _ rfl) h₁
    have hextl := Draft.extends_leaveFinalizer hp.drawn.steady (after + 1) after
    have hext₁ := (hextl.trans hextc).trans hext
    rcases hx with ⟨hi, rfl⟩ | ⟨u, v, y, rfl, hi, hy, hv⟩
    · rcases hinner t _ hi with ⟨hc, _⟩ | ⟨_, hl⟩
      · exact nomatch hc
      · exact hl
    have hleave := hinner u y hi
    have hat :=
      Draft.At.start_nil (hleave.enters hr.fits.depth_le hy) (hr.entry_blank _ rfl) hr.idle
    rw [← List.append_assoc]
    rcases hv with ⟨hv, rfl⟩ | ⟨hv, hne⟩
    · have hend : D.At d₁ (w ++ u ++ v) := hp.follows hext₁ _ hat v _ hv
      refine hleave.resumes hr.fits.depth_le hy (hgrows.trans hextc) (fun e he => ?_)
        (hend.shows hext₁)
        hafter
      refine hend.leaveFinalizer hp.drawn.steady (hextc.trans hext) ?_
      exact ((Draft.extends_start hr.idle _).trans (hp.extends hs)).resumptions he
    · exact (hp.follows hext₁ _ hat v x hv).of_extends (hextl.trans hextc) hne

end Finalizer

/-- All the blocks that a `try` statement makes have been opened at its end. -/
private theorem waiting_after_clauses {W : BlockId → Prop} {n id : BlockId}
    {finalizer : Option Block} {k : Nat} (hlt : W id → id < n) :
    (((W id ∨ n ≤ id ∧ id < Draft.firstCatch n finalizer + k) ∧
        ¬ (Draft.firstCatch n finalizer ≤ id ∧ id < Draft.firstCatch n finalizer + k)) ∧
      (finalizer.isSome → id ≠ n + 1)) ∧ id ≠ n ↔ W id := by
  cases finalizer with
  | none =>
    rw [show Draft.firstCatch n none = n + 1 from rfl]
    grind
  | some final =>
    rw [show Draft.firstCatch n (some final) = n + 2 from rfl]
    grind

section Statement

variable {scope : Scope} {d d₁ : Draft} {catches : List CatchClause} {finalizer : Option Block}

/-- The scope of a `try` block fits where the block begins. -/
theorem Draft.fits_openTry (hd : d.Steady) (hfit : scope.Fits d) (catches : List CatchClause)
    (finalizer : Option Block) (span : Span) :
    (scope.guarded (Draft.handlerAt d.fresh catches finalizer)).Fits
      (d.openTry scope.types catches finalizer span) := by
  have ho : Drawn scope d (d.openTry scope.types catches finalizer span) _ :=
    (Drawn.refl hd).openTry scope.types catches finalizer span
  refine (ho.fits hd hfit fun _ _ hid => Or.inl hid).guarded fun id he =>
    (ho.waiting id).mpr (Or.inr ?_)
  obtain ⟨hl, hr⟩ := Draft.hasEntry_handlerAt he
  exact ⟨Nat.le_of_lt hl, hr⟩

/-- Drawing the `try` block, at the end of which the clauses are to be drawn. -/
theorem CatchClause.Ready.body (hd : d.Steady) (hfit : scope.Fits d) (resources : List LocalVar)
    {stmts : List Stmt} {span : Span} (ih : ∀ s ∈ stmts, s.Faithful)
    (h : Stmt.drawAll stmts (scope.guarded (Draft.handlerAt d.fresh catches finalizer))
      (LocalVar.drawResources (scope.guarded (Draft.handlerAt d.fresh catches finalizer)) resources
        (d.openTry scope.types catches finalizer span)) = .ok d₁) :
    (d.openTry scope.types catches finalizer span).Steady ∧
    Part (scope.guarded (Draft.handlerAt d.fresh catches finalizer)) []
      (d.openTry scope.types catches finalizer span) d₁
      ((LocalVar.behaviourResources resources).andThen (Stmt.behaviourAll scope.types stmts true)) ∧
    Ready scope d (finalizer.map fun _ => d.fresh + 1) d.fresh catches
      (Draft.firstCatch d.fresh finalizer)
      (fun id => d.Waiting id ∨ d.fresh ≤ id ∧ id < Draft.firstCatch d.fresh finalizer +
        catches.length)
      (d₁.leaveRegion (finalizer.map fun _ => d.fresh + 1) d.fresh) := by
  have hfirst := Draft.lt_firstCatch d.fresh finalizer
  have hmap : (Draft.handlerAt d.fresh catches finalizer).finalizer = finalizer.map fun _ =>
      d.fresh + 1 := rfl
  have hfito := Draft.fits_openTry hd hfit catches finalizer span
  have hfinal : ∀ entry, (Draft.handlerAt d.fresh catches finalizer).finalizer = some entry →
      entry = d.fresh + 1 ∧ entry < Draft.firstCatch d.fresh finalizer :=
    fun _ hf => Draft.finalizer_handlerAt hf
  rw [← hmap]
  generalize Draft.handlerAt d.fresh catches finalizer = handler at *
  -- The statement is opened: the block past it, the `finally` entry and the clauses wait.
  have ho : Drawn scope d (d.openTry scope.types catches finalizer span) _ :=
    (Drawn.refl hd).openTry scope.types catches finalizer span
  have hres := d.resumptions_openTry scope.types catches finalizer span
  obtain ⟨hparams, hblank⟩ := Draft.contains_openTry (d := d) hd fun id hle hlt =>
    (ho.waiting id).mpr (Or.inr ⟨hle, hlt⟩)
  generalize d.openTry scope.types catches finalizer span = dₒ at *
  have hr := LocalVar.part_resources resources rfl ho.steady hfito
  have hp := hr.andThen ho.steady hfito fun hd hfit => Stmt.part_all ih hd hfit h
  have hnew : ∀ entry, handler.finalizer = some entry → d.fresh < entry :=
    fun entry hf => (hfinal entry hf).1 ▸ Nat.lt_succ_self _
  have hentry : ∀ entry, handler.finalizer = some entry → d.Waiting entry ∨ d.fresh ≤ entry ∧
      entry < Draft.firstCatch d.fresh finalizer + catches.length := fun entry hf =>
    Or.inr ⟨Nat.le_of_lt (hnew entry hf),
      Nat.lt_of_lt_of_le (hfinal entry hf).2 (Nat.le_add_right _ _)⟩
  have hafter : d.Waiting d.fresh ∨ d.fresh ≤ d.fresh ∧
      d.fresh < Draft.firstCatch d.fresh finalizer + catches.length :=
    Or.inr ⟨Nat.le_refl _, Nat.lt_of_lt_of_le hfirst (Nat.le_add_right _ _)⟩
  -- Then the block is drawn, and left for the `finally` clause or for what follows.
  have hb :=
    ho.part hd hp.drawn (registers_of_guarded hfit fun entry hf => Nat.le_of_lt (hnew entry hf))
  have hl := hb.leaveRegion handler.finalizer d.fresh hafter
    fun entry hf => ⟨hentry entry hf, Nat.le_of_lt (hnew entry hf)⟩
  have hext : dₒ.Extends (d₁.leaveRegion handler.finalizer d.fresh) :=
    (hp.extends ho.steady).trans (Draft.extends_leaveRegion hb.steady _ _)
  -- Nothing is written meanwhile in the blocks that wait.
  have keeps : ∀ id, (d.Waiting id ∨ d.fresh ≤ id ∧
      id < Draft.firstCatch d.fresh finalizer + catches.length) → d.fresh ≤ id →
      id < Draft.firstCatch d.fresh finalizer →
      (d₁.leaveRegion handler.finalizer d.fresh).Contains id [] := fun id hW hle hlt =>
    (hblank id hle hlt).of_waiting hext ((hl.waiting id).mpr hW)
  refine ⟨ho.steady, hp, hd, hfit, hl, d₁.current_leaveRegion _ _, fun id hid => Or.inl hid, ?_,
    ⟨hafter, Nat.le_refl _, hfirst⟩, ?_, ?_, ?_, keeps _ hafter (Nat.le_refl _) hfirst, ?_⟩
  · exact fun id hle hlt => Or.inr ⟨Nat.le_trans (Nat.le_of_lt hfirst) hle, hlt⟩
  · exact fun entry hf => ⟨hentry entry hf, hnew entry hf, (hfinal entry hf).2⟩
  · -- Nothing waits for the `finally` clause at first, and then only what leaves the statement.
    have hpending : dₒ.Pending scope handler.finalizer d.fresh := by
      intro entry e hf he
      rw [hres] at he
      exact absurd (hd.resumed_lt _ he) (Nat.not_lt_of_le (Nat.le_of_lt (hnew entry hf)))
    refine (hpending.part hfit (fun entry hf => ?_) hp.drawn).leaveRegion
    exact ⟨Nat.le_of_lt (hnew entry hf), ho.lt (hentry entry hf)⟩
  · refine hparams.of_extends hext fun id hle hlt => (hl.waiting id).mpr (Or.inr ⟨?_, hlt⟩)
    exact Nat.le_trans (Nat.le_of_lt hfirst) hle
  · exact fun entry hf =>
      keeps entry (hentry entry hf) (Nat.le_of_lt (hnew entry hf)) (hfinal entry hf).2

/-- An exception that the clauses let pass is received by none of their blocks for certain. -/
theorem CatchClause.Passes.receivesAll {types : Subtyping} {thrown : TypeName}
    (h : CatchClause.Passes types catches thrown) (first : BlockId) :
    ∀ c ∈ targets catches first, c.receivesAll types thrown = false := by
  intro c hc
  obtain ⟨i, hi, rfl⟩ := List.mem_mapIdx.mp hc
  exact h _ (List.getElem_mem hi)

/-- Every execution of a `try` block and of the clauses that receive its exceptions leaves the
region in front of the `finally` clause. -/
theorem CatchClause.Ready.follows_handled {D dₒ d' : Draft} {b : Behaviour} {w : List Element}
    {handler : Handler} {finalEntry : Option BlockId} {after first : BlockId} {W : BlockId → Prop}
    (hr : Ready scope d finalEntry after catches first W (d₁.leaveRegion finalEntry after))
    (hhandler : handler = ⟨targets catches first, finalEntry⟩)
    (ih : ∀ clause ∈ catches, ∀ s ∈ clause.body.stmts, s.Faithful)
    (h : CatchClause.drawAll catches (scope.guarded ⟨[], finalEntry⟩) finalEntry first after
      (d₁.leaveRegion finalEntry after) = .ok d') (hext : d'.Extends D)
    (hbody : Part (scope.guarded handler) [] dₒ d₁ b) (hat : D.At dₒ w)
    {t : List Element} {x : Exit}
    (hx : b.handled (CatchClause.behaviour scope.types catches)
      (CatchClause.Passes scope.types catches) t x) :
    D.Leaving scope finalEntry after d' (w ++ t) x := by
  subst hhandler
  obtain ⟨_, hgrows⟩ := hr.all ih h
  have hextl := hgrows.trans hext
  have hfollows := hbody.follows
    ((Draft.extends_leaveRegion hbody.drawn.steady finalEntry after).trans hextl) _ hat
  rcases hx with ⟨hb, hpass⟩ | ⟨u, v, y, thrown, rfl, hb, hy, hv⟩
  · have hl := hfollows t x hb
    by_cases hc : x = .completed
    · subst hc
      exact (Draft.Lands.leaving hl hbody.drawn.steady hextl).of_extends hgrows
    · have hl := hl.past_clauses hc fun T hT => (hpass T hT).receivesAll first
      exact (hl.leaving hbody.drawn.steady hextl).of_extends hgrows
  · rw [← List.append_assoc]
    exact hr.follows ih h hext ((hfollows u y hb).leads_of_offer hy) hv

/-- A `try` statement is drawn faithfully if its parts are. -/
theorem Stmt.faithful_try (resources : List LocalVar) {block : Block} (span : Span)
    (ihb : ∀ s ∈ block.stmts, s.Faithful)
    (ihc : ∀ clause ∈ catches, ∀ s ∈ clause.body.stmts, s.Faithful)
    (ihf : ∀ final, finalizer = some final → ∀ s ∈ final.stmts, s.Faithful) :
    (Stmt.tryStmt resources block catches finalizer span).Faithful := by
  intro scope labels d d' hd hfit hlabels h
  obtain rfl := Stmt.labels_eq_nil rfl hlabels
  obtain ⟨stmts, blockSpan⟩ := block
  rw [Stmt.draw_try] at h
  obtain ⟨d₁, h₁, h⟩ := Except.of_bind_ok h
  obtain ⟨d₂, h₂, h⟩ := Except.of_bind_ok h
  obtain ⟨d₃, h₃, h⟩ := Except.of_bind_ok h
  cases h
  obtain ⟨ho, hbody, hr⟩ := CatchClause.Ready.body hd hfit resources ihb h₁
  obtain ⟨hr', hclauses⟩ := hr.all ihc h₂
  obtain ⟨hdone, hfinally⟩ := hr'.drawFinalizer ihf h₃
  have hpast := hr'.past.1
  refine ⟨?_, fun {D} hext w hat t x hx => ?_⟩
  · refine (hdone.continueAt d.fresh ⟨hpast, fun _ => Nat.ne_of_lt (Nat.lt_succ_self _)⟩).congr
      fun id => ?_
    exact waiting_after_clauses fun hid => hid.lt
  · have hext₂ := (hfinally.trans (Draft.extends_continueAt hdone.steady d.fresh)).trans hext
    have hext₁ := (Draft.extends_leaveRegion hbody.drawn.steady _ _).trans (hclauses.trans hext₂)
    have hato := hat.openTry hd ((hbody.extends ho).trans hext₁)
    rw [Stmt.behaviour] at hx
    exact hr'.follows_finally ihf h₃ hext
      (fun u y hu => hr.follows_handled rfl ihc h₂ hext₂ hbody hato hu) hx

end Statement

end MethodFlow
