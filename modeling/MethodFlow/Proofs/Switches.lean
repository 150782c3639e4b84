import MethodFlow.Proofs.Loops

/-!
# `switch` statements are drawn faithfully

The groups of a `switch` are drawn one after the other. `CaseGroup.Ready` is the invariant between
two of them, and `Ready.step` says what drawing one group does; both the drawing of all groups and
the executions in it are followed by induction from there.
-/

namespace MethodFlow

open Draft (Drawn Part)

/-! ## Selecting a group -/

namespace CaseGroup

theorem defaultTarget?_eq_none {groups : List CaseGroup} {first : BlockId}
    (h : groups.any (·.hasDefault) = false) : defaultTarget? groups first = none := by
  induction groups generalizing first with
  | nil => rfl
  | cons group groups ih =>
    rw [List.any_cons, Bool.or_eq_false_iff] at h
    rw [defaultTarget?, ih h.2, h.1]
    rfl

/-- A group that can be selected is the target of one of its values or of the default. -/
theorem mem_of_isSelectable {group : CaseGroup} {groups : List CaseGroup} (first : BlockId)
    (h : group.isSelectable groups = true) :
    first ∈ valueTargets (group :: groups) first ∨ defaultTarget? (group :: groups) first =
      some first := by
  rw [isSelectable, Bool.or_eq_true, Bool.and_eq_true, Bool.not_eq_true'] at h
  rcases h with h | ⟨hd, hrest⟩
  · obtain ⟨label, hl, hv⟩ := List.any_eq_true.mp h
    refine Or.inl (List.mem_append_left _ (List.mem_replicate.mpr ⟨?_, rfl⟩))
    obtain ⟨value, hvalue⟩ :=
      List.exists_mem_of_ne_nil _ (List.isEmpty_eq_false_iff.mp (by simpa using hv))
    exact Nat.ne_of_gt (List.length_pos_of_mem (List.mem_flatMap.mpr ⟨label, hl, hvalue⟩))
  · exact Or.inr (by rw [defaultTarget?, defaultTarget?_eq_none hrest, hd]; rfl)

/-- Ends the code of a group. -/
def finish (group : CaseGroup) (d : Draft) (after : BlockId) : Draft :=
  if group.arrow then d.leaveArrowGroup after else d.endCaseGroup

theorem extends_finish {d : Draft} (hd : d.Steady) (group : CaseGroup) (after : BlockId) :
    d.Extends (group.finish d after) := by
  unfold finish
  split
  · exact Draft.extends_leaveArrowGroup hd after
  · exact d.extends_endCaseGroup

/-- Between two groups of a `switch`: the blocks from `block` on belong to the groups that are
left. -/
structure Ready (scope : Scope) (groups : List CaseGroup) (block after : BlockId) (d : Draft) :
    Prop where
  steady : d.Steady
  fits : scope.Fits d
  outer : ∀ id, scope.Names id → id < block
  blocks : ∀ id, block ≤ id → id < block + groups.length → d.Waiting id
  past : d.Waiting after
  past_lt : after < block
  blank : d.Blank after

section Groups

variable {scope : Scope} {group : CaseGroup} {groups : List CaseGroup} {block after : BlockId}
  {d d₁ d' : Draft}

theorem Ready.waiting (hr : Ready scope (group :: groups) block after d) : d.Waiting block :=
  hr.blocks block (Nat.le_refl _) (Nat.lt_add_of_pos_right (Nat.succ_pos _))

theorem Ready.opened (hr : Ready scope (group :: groups) block after d) :
    Drawn scope d (d.continueAt block) fun id => d.Waiting id ∧ id ≠ block :=
  (Drawn.refl hr.steady).continueAt block hr.waiting

theorem Ready.fits_opened (hr : Ready scope (group :: groups) block after d) :
    scope.Fits (d.continueAt block) :=
  hr.opened.fits hr.steady hr.fits fun id hn hid => ⟨hid, Nat.ne_of_lt (hr.outer id hn)⟩

/-- Drawing one group. -/
theorem Ready.step (hr : Ready scope (group :: groups) block after d)
    (ih : ∀ s ∈ group.body, s.Faithful)
    (h : Stmt.drawAll group.body scope (d.continueAt block) = .ok d₁) :
    (d.continueAt block).Steady ∧
    Part scope [] (d.continueAt block) d₁
      (Stmt.behaviourAll scope.types group.body (!scope.handlers.isEmpty)) ∧
    Drawn scope d (group.finish d₁ after) (fun id => d.Waiting id ∧ id ≠ block) ∧
    Ready scope groups (block + 1) after (group.finish d₁ after) := by
  have hc := hr.opened
  have stays : ∀ id, scope.Names id → d.Waiting id → d.Waiting id ∧ id ≠ block :=
    fun id hn hid => ⟨hid, Nat.ne_of_lt (hr.outer id hn)⟩
  have hp := Stmt.part_all ih hc.steady hr.fits_opened h
  have hs := hc.part hr.steady hp.drawn fun _ hp => Or.inl hp
  have hend : Drawn scope d (group.finish d₁ after) fun id => d.Waiting id ∧ id ≠ block := by
    unfold finish
    split
    · exact hs.leaveArrowGroup after ⟨hr.past, Nat.ne_of_lt hr.past_lt⟩
    · exact hs.endCaseGroup
  refine ⟨hc.steady, hp, hend, hend.steady, hend.fits hr.steady hr.fits stays,
    fun id hn => Nat.lt_succ_of_lt (hr.outer id hn), fun id hle hlt => (hend.waiting id).mpr ?_,
    (hend.waiting after).mpr ⟨hr.past, Nat.ne_of_lt hr.past_lt⟩, Nat.lt_succ_of_lt hr.past_lt, ?_⟩
  · refine ⟨hr.blocks id (Nat.le_of_succ_le hle) ?_, Nat.ne_of_gt hle⟩
    rw [List.length_cons]
    grind
  · exact hr.blank.of_extends (hend.run.extends hr.steady) fun id hid =>
      ((hend.waiting id).mp hid).1

/-- The groups of a `switch` open their blocks one after the other. -/
theorem drawn_all (hr : Ready scope groups block after d)
    (ih : ∀ group ∈ groups, ∀ s ∈ group.body, s.Faithful)
    (h : CaseGroup.drawAll groups scope block after d = .ok d') :
    Drawn scope d d' fun id => d.Waiting id ∧ ¬ (block ≤ id ∧ id < block + groups.length) := by
  induction groups generalizing d block with
  | nil =>
    rw [CaseGroup.drawAll] at h
    cases h
    exact (Drawn.refl hr.steady).congr (by grind)
  | cons group groups ihg =>
    rw [CaseGroup.drawAll_cons] at h
    obtain ⟨d₁, h₁, h⟩ := Except.of_bind_ok h
    obtain ⟨_, _, hd, hr'⟩ := hr.step (ih group List.mem_cons_self) h₁
    have hrest := ihg hr' (fun g hg => ih g (List.mem_cons_of_mem _ hg)) h
    refine (hd.trans hr.steady hrest fun _ hp => Or.inl hp).congr fun id => ?_
    rw [hd.waiting, List.length_cons]
    grind

/-- A group that is entered goes on with the next one unless an arrow leads out of it. -/
theorem behaviour_entered (types : Subtyping) (group : CaseGroup) (groups : List CaseGroup)
    (guarded : Bool) :
    CaseGroup.behaviour types (group :: groups) guarded true =
      (Stmt.behaviourAll types group.body guarded).andThen
        (if group.arrow then .leave .completed
          else CaseGroup.behaviour types groups guarded true) := by
  cases group
  rw [CaseGroup.behaviour, if_pos rfl]

/-- A group is selected, or control tries the next one. -/
theorem behaviour_selected (types : Subtyping) (group : CaseGroup) (groups : List CaseGroup)
    (guarded : Bool) :
    CaseGroup.behaviour types (group :: groups) guarded false =
      .either
        (if group.isSelectable groups then CaseGroup.behaviour types (group :: groups) guarded true
          else .never)
        (CaseGroup.behaviour types groups guarded false) := by
  rw [behaviour_entered]
  cases group
  rw [CaseGroup.behaviour, if_neg (by simp)]

/-- An execution has come to the end of the last group or to the block after the `switch`, or it was
left in another way. -/
def Ends (D : Draft) (scope : Scope) (after : BlockId) (d : Draft) (w : List Element)
    (x : Exit) : Prop :=
  x = .completed ∧ (D.At d w ∨ D.Leads w after) ∨ x ≠ .completed ∧ D.Lands scope [] d w x

variable {D : Draft} {w t : List Element} {x : Exit}

/-- Running one group, and on into the next ones unless it is an arrow group. -/
theorem Ready.run (hr : Ready scope (group :: groups) block after d)
    (ih : ∀ s ∈ group.body, s.Faithful)
    (h : Stmt.drawAll group.body scope (d.continueAt block) = .ok d₁)
    (hext₁ : (group.finish d₁ after).Extends d') (hext : d'.Extends D) {next : Behaviour}
    (hnext : ∀ w t x, D.At (group.finish d₁ after) w → next t x → Ends D scope after d' (w ++ t) x)
    (hat : D.At (d.continueAt block) w)
    (hx : (Stmt.behaviourAll scope.types group.body (!scope.handlers.isEmpty)).andThen
      (if group.arrow then .leave .completed else next) t x) :
        Ends D scope after d' (w ++ t) x := by
  obtain ⟨_, hp, _, _⟩ := hr.step ih h
  have hext_f := extends_finish hp.drawn.steady group after
  have hfollows := hp.follows (hext_f.trans (hext₁.trans hext)) w hat
  rcases hx with ⟨hx, hne⟩ | ⟨u, v, rfl, hu, hv⟩
  · exact Or.inr ⟨hne, (hfollows t x hx).of_extends (hext_f.trans hext₁) hne⟩
  · have hat := hfollows u .completed hu
    rw [← List.append_assoc]
    by_cases harrow : group.arrow = true
    · rw [if_pos harrow] at hv
      obtain ⟨rfl, rfl⟩ := hv
      rw [List.append_nil]
      refine Or.inl ⟨rfl, Or.inr (Draft.At.leaveArrowGroup hat hp.drawn.steady ?_)⟩
      rw [finish, if_pos harrow] at hext₁
      exact hext₁.trans hext
    · rw [if_neg harrow] at hv
      refine hnext _ v x ?_ hv
      rw [finish, if_neg harrow]
      exact Draft.At.endCaseGroup hat

/-- Every execution of the groups can be followed, whether control comes from the group before or
has selected one of them. -/
theorem follows_all (hr : Ready scope groups block after d)
    (ih : ∀ group ∈ groups, ∀ s ∈ group.body, s.Faithful)
    (h : CaseGroup.drawAll groups scope block after d = .ok d') (hext : d'.Extends D) :
    (∀ w t x, D.At d w →
      CaseGroup.behaviour scope.types groups (!scope.handlers.isEmpty) true t x →
        Ends D scope after d' (w ++ t) x) ∧
    ∀ w t x, (∀ id ∈ valueTargets groups block, D.Leads w id) →
      (∀ id, defaultTarget? groups block = some id → D.Leads w id) →
      CaseGroup.behaviour scope.types groups (!scope.handlers.isEmpty) false t x →
        Ends D scope after d' (w ++ t) x := by
  induction groups generalizing d block with
  | nil =>
    rw [CaseGroup.drawAll] at h
    cases h
    refine ⟨fun w t x hat hx => ?_, fun w t x _ _ hx => ?_⟩
    · rw [CaseGroup.behaviour, if_pos rfl] at hx
      obtain ⟨rfl, rfl⟩ := hx
      rw [List.append_nil]
      exact Or.inl ⟨rfl, Or.inl hat⟩
    · rw [CaseGroup.behaviour] at hx
      exact hx.elim
  | cons group groups ihg =>
    rw [CaseGroup.drawAll_cons] at h
    obtain ⟨d₁, h₁, h⟩ := Except.of_bind_ok h
    have ihb := ih group List.mem_cons_self
    obtain ⟨hsteady, hp, hd, hr'⟩ := hr.step ihb h₁
    have ihs : ∀ g ∈ groups, ∀ s ∈ g.body, s.Faithful :=
      fun g hg => ih g (List.mem_cons_of_mem _ hg)
    have hext₁ := (drawn_all hr' ihs h).run.extends hr'.steady
    obtain ⟨hentered, hselected⟩ := ihg hr' ihs h
    have hrun := fun {w t x} => hr.run (w := w) (t := t) (x := x) ihb h₁ hext₁ hext hentered
    have hblank := hr.blank block (Nat.le_of_lt hr.past_lt) hr.waiting
    -- Control comes from the group before, or from the selector.
    refine ⟨fun w t x hat hx => ?_, fun w t x hvalues hdefault hx => ?_⟩
    · rw [behaviour_entered] at hx
      refine hrun (hat.continueAt hr.steady hr.waiting hblank ?_) hx
      exact (hp.extends hsteady).trans ((extends_finish hp.drawn.steady group after).trans
        (hext₁.trans hext))
    · rw [behaviour_selected, behaviour_entered] at hx
      rcases hx with hx | hx
      · split at hx
        · rename_i hsel
          refine hrun (.continueAt_of_path ?_ hr.steady hr.waiting hblank) hx
          rcases mem_of_isSelectable block hsel with hm | hm
          · exact hvalues _ hm
          · exact hdefault _ hm
        · exact hx.elim
      · -- A later group is selected: the edges to it are among those of the whole switch.
        refine hselected w t x (fun id hid => hvalues id (List.mem_append_right _ hid))
          (fun id hid => ?_) hx
        exact hdefault id (by rw [defaultTarget?, hid]; rfl)

end Groups

/-- The groups of a `switch` can be drawn when one of them has been selected. -/
theorem ready_openSwitch {scope : Scope} {d : Draft} (hd : d.Steady) (hfit : scope.Fits d)
    (labels : List String) (groups : List CaseGroup) (selector : Span) :
    Ready (scope.inside labels .switch d.fresh) groups (d.fresh + 1) d.fresh
      (d.openSwitch groups selector) := by
  have ho : Drawn scope d _ _ := (Drawn.refl hd).openSwitch groups selector
  have hafter := (ho.waiting d.fresh).mpr (by grind)
  refine ⟨ho.steady, ?_, fun id hn => ?_, fun id hle hlt => (ho.waiting id).mpr (by grind), hafter,
    Nat.lt_succ_self _, Draft.blank_openSwitch hd groups selector⟩
  · exact (ho.fits hd hfit fun _ _ hid => Or.inl hid).inside labels .switch hafter fun _ hk =>
      nomatch hk
  · rcases hn.of_inside with hn | rfl | hk
    · exact Nat.lt_succ_of_lt (hfit.lt hn)
    · exact Nat.lt_succ_self _
    · exact nomatch hk

end CaseGroup

/-- A switch is drawn faithfully if its groups are. -/
theorem Stmt.faithful_switch (selector : Expr) {groups : List CaseGroup} (span : Span)
    (ih : ∀ group ∈ groups, ∀ s ∈ group.body, s.Faithful) :
    (Stmt.switch selector groups span).Faithful := by
  intro scope labels d d' hd hfit hl h
  rw [Stmt.draw_switch] at h
  obtain ⟨d₁, h₁, h⟩ := Except.of_bind_ok h
  cases h
  rw [Stmt.behaviour]
  refine (selector.faithful hd hfit).andThen_labeled hd hfit (fun l hm => (hl l hm).2) ?_
  generalize selector.draw scope d = d at *
  intro hd hfit
  have hlt : ∀ id, d.Waiting id → id < d.fresh := fun id hid => hid.lt
  have ho : Drawn scope d _ _ := (Drawn.refl hd).openSwitch groups selector.span
  have hready := CaseGroup.ready_openSwitch hd hfit labels groups selector.span
  have hg := CaseGroup.drawn_all hready ih h₁
  have hall := ho.trans hd hg registers_of_inside
  have hafter := (hall.waiting d.fresh).mpr ⟨hready.past, by grind⟩
  refine ⟨(hall.continueAt d.fresh ((hall.waiting _).mp hafter)).congr fun id => ?_,
    fun {D} hext => ?_⟩
  · rw [ho.waiting]
    grind
  have hext_a := Draft.extends_continueAt hall.steady d.fresh
  have hext_o := (hg.run.extends hready.steady).trans (hext_a.trans hext)
  have hblank := (hready.blank.of_extends (hg.run.extends hready.steady) fun id hid =>
    ((hg.waiting id).mp hid).1) d.fresh (Nat.le_refl _) hafter
  have hleads : ∀ w, D.Leads w d.fresh → D.At (d₁.continueAt d.fresh) w :=
    fun w hp => .continueAt_of_path hp hall.steady hafter hblank
  rintro w hat t _ ⟨x, hx, rfl⟩
  obtain ⟨hvalues, hdefault⟩ := hat.openSwitch hd hext_o
  rcases hx with hx | hx
  · have hend := (CaseGroup.follows_all hready ih h₁ (hext_a.trans hext)).2 w t x hvalues
      (fun id hid => by rwa [hid] at hdefault) hx
    rcases hend with ⟨rfl, hat | hp⟩ | ⟨hne, hl⟩
    · exact hat.continueAt hall.steady hafter hblank hext
    · exact hleads _ hp
    · exact hl.of_inside (by rintro ⟨⟩) hne (by rintro _ ⟨⟩) hext_a (hleads _)
  · -- Without a default label control goes on after the statement.
    split at hx
    · exact hx.elim
    · rename_i hnone
      obtain ⟨rfl, rfl⟩ := hx
      rw [CaseGroup.defaultTarget?_eq_none (Bool.eq_false_iff.mpr hnone)] at hdefault
      rw [List.append_nil]
      exact hleads w hdefault

end MethodFlow
