import Mathlib.Data.List.Perm.Subperm
import MethodFlow.Proofs.Consistency

/-!
# Which edges a terminator accepts

The check of a block compares numbers of edges and looks for each edge that the terminator
prescribes. It does not look for edges that are too many. It need not: the edges that a terminator
prescribes are distinct, so as many edges as there should be, with all the prescribed ones among
them, are these edges in some order. Whatever is accepted can therefore be put in an order in which
it is just what the terminator prescribes.

Main result: `Terminator.checkEdges_exact`.
-/

namespace MethodFlow.Terminator

variable {t : Terminator} {edges edges' : List Edge}

/-! ## Counting edges -/

/-- As many edges as there are distinct ones, with all of these among them, are just these in some
order. -/
theorem perm_iff_length_eq {normal prescribed : List Edge} (hnodup : prescribed.Nodup) :
    normal.Perm prescribed ↔ normal.length = prescribed.length ∧ ∀ e ∈ prescribed, e ∈ normal := by
  constructor
  · intro h
    exact ⟨h.length_eq, fun e he => h.mem_iff.mpr he⟩
  · rintro ⟨hlength, hall⟩
    exact ((hnodup.subperm hall).perm_of_length_le (Nat.le_of_eq hlength)).symm

/-- A single edge is accepted when it is the only one and of an allowed kind. -/
theorem single_eq_ok_iff {allowed : List EdgeKind} {normal : List Edge} {e : Edge} :
    t.single allowed normal = .ok e ↔ normal = [e] ∧ e.kind ∈ allowed := by
  constructor
  · intro h
    unfold single at h
    split at h
    · split at h
      · cases h
        exact ⟨rfl, List.contains_iff_mem.mp ‹_›⟩
      · cases h
    · cases h
  · rintro ⟨rfl, hkind⟩
    exact if_pos (List.contains_iff_mem.mpr hkind)

/-- The one normal edge stays the one normal edge. -/
theorem single_of_perm {allowed : List EdgeKind} {normal normal' : List Edge} {e : Edge}
    (h : normal.Perm normal') (hs : t.single allowed normal = .ok e) :
      t.single allowed normal' = .ok e := by
  obtain ⟨rfl, hkind⟩ := single_eq_ok_iff.mp hs
  exact single_eq_ok_iff.mpr ⟨h.symm.eq_singleton, hkind⟩

/-! ## Verdicts -/

theorem ite_eq_ok_iff {mismatch : EdgeMismatch} {c : Prop} [Decidable c] :
    (if c then Except.ok () else Except.error mismatch) = Except.ok () ↔ c := by
  split <;> simp [*]

/-- A branch needs one edge for each outcome and no further normal edge. -/
theorem checkEdges_branch_iff {onTrue onFalse : BlockId} :
    (branch onTrue onFalse).checkEdges edges = .ok () ↔
      (edges.filter (·.isNormal)).Perm [⟨.onTrue, onTrue⟩, ⟨.onFalse, onFalse⟩] := by
  rw [perm_iff_length_eq (by simp), List.forall_mem_cons, List.forall_mem_singleton]
  simp only [checkEdges, ite_eq_ok_iff, Bool.and_eq_true, beq_iff_eq,
    List.contains_iff_mem, and_assoc, List.length_cons, List.length_nil]

/-- A switch needs one edge for each group and one for its default. -/
theorem checkEdges_switch_iff {cases : List BlockId} {default : Option BlockId} :
    (switch cases default).checkEdges edges = .ok () ↔
      (edges.filter (·.isNormal)).Perm (switchEdges cases default) := by
  rw [perm_iff_length_eq (nodup_switchEdges cases default)]
  simp only [checkEdges]
  by_cases hlength : (edges.filter (·.isNormal)).length = (switchEdges cases default).length
  · rw [hlength, bne_self_eq_false, if_neg Bool.false_ne_true]
    split
    · rename_i e hmissing
      have he := List.find?_some hmissing
      rw [Bool.not_eq_true', List.contains_eq_mem, decide_eq_false_iff_not] at he
      simp only [reduceCtorEq, true_and, false_iff]
      exact fun hall => he (hall e (List.mem_of_find?_eq_some hmissing))
    · rename_i hnone
      simp only [true_and, true_iff]
      exact fun e he => by simpa using List.find?_eq_none.mp hnone e he
  · rw [if_pos (bne_iff_ne.mpr hlength)]
    simp [hlength]

theorem checkEdges_jump_iff {target : BlockId} :
    (jump target).checkEdges edges = .ok () ↔
      ∃ kind, (kind = .sequential ∨ kind = .loopBack) ∧ edges.filter (·.isNormal) =
        [⟨kind, target⟩] := by
  constructor
  · intro h
    obtain ⟨e, he, htarget⟩ := Except.of_bind_ok h
    obtain ⟨hnormal, hkind⟩ := single_eq_ok_iff.mp he
    rw [ite_eq_ok_iff, beq_iff_eq] at htarget
    subst htarget
    exact ⟨e.kind, by simpa using hkind, hnormal⟩
  · rintro ⟨kind, hkind, hnormal⟩
    have he : (jump target).single [.sequential, .loopBack] (edges.filter (·.isNormal)) =
        .ok ⟨kind, target⟩ :=
      single_eq_ok_iff.mpr ⟨hnormal, by simpa using hkind⟩
    simp only [checkEdges, he]
    exact if_pos (beq_self_eq_true target)

theorem checkEdges_throwing_iff :
    throwing.checkEdges edges = .ok () ↔ edges.filter (·.isNormal) = [] ∧ edges ≠ [] := by
  simp [checkEdges]

theorem checkEdges_methodExit_iff : methodExit.checkEdges edges = .ok () ↔ edges = [] := by
  simp [checkEdges]

/-- The end of a `finally` clause resumes somewhere, by edges a jump could have. -/
theorem checkEdges_endFinally_iff :
    endFinally.checkEdges edges = .ok () ↔
      (∀ e ∈ edges.filter (·.isNormal), e.kind ∈ [.sequential, .loopBack]) ∧ edges ≠ [] := by
  simp only [checkEdges, ite_eq_ok_iff, Bool.and_eq_true, List.all_map, List.all_eq_true,
    Function.comp_apply, List.contains_iff_mem, Bool.not_eq_true', List.isEmpty_eq_false_iff]

/-! ## The order of edges -/

/-- What is accepted in one order is accepted in any. -/
theorem checkEdges_of_perm (h : edges.Perm edges') (hok : t.checkEdges edges = .ok ()) :
    t.checkEdges edges' = .ok () := by
  have hnormal : (edges.filter (·.isNormal)).Perm (edges'.filter (·.isNormal)) := h.filter _
  cases t with
  | fallThrough | returning | breaking | continuing =>
    obtain ⟨e, he, _⟩ := Except.of_bind_ok hok
    simp only [checkEdges, single_of_perm hnormal he]
    rfl
  | jump target =>
    obtain ⟨kind, hkind, hone⟩ := checkEdges_jump_iff.mp hok
    rw [hone] at hnormal
    exact checkEdges_jump_iff.mpr ⟨kind, hkind, hnormal.symm.eq_singleton⟩
  | branch onTrue onFalse =>
    exact checkEdges_branch_iff.mpr (hnormal.symm.trans (checkEdges_branch_iff.mp hok))
  | switch cases default =>
    exact checkEdges_switch_iff.mpr (hnormal.symm.trans (checkEdges_switch_iff.mp hok))
  | throwing =>
    obtain ⟨hnone, hsome⟩ := checkEdges_throwing_iff.mp hok
    rw [hnone] at hnormal
    exact checkEdges_throwing_iff.mpr ⟨hnormal.symm.eq_nil, fun h' => hsome (h' ▸ h).eq_nil⟩
  | methodExit =>
    exact checkEdges_methodExit_iff.mpr (checkEdges_methodExit_iff.mp hok ▸ h.symm).eq_nil
  | endFinally =>
    obtain ⟨hkinds, hsome⟩ := checkEdges_endFinally_iff.mp hok
    exact checkEdges_endFinally_iff.mpr
      ⟨fun e he => hkinds e (hnormal.mem_iff.mpr he), fun h' => hsome (h' ▸ h).eq_nil⟩

/-- Only the normal edges are looked at, except that three terminators ask whether there are edges
at all. -/
theorem checkEdges_congr (hthrow : t ≠ throwing) (hexit : t ≠ methodExit) (hend : t ≠ endFinally)
    (h : edges.filter (·.isNormal) = edges'.filter (·.isNormal)) :
      t.checkEdges edges = t.checkEdges edges' := by
  cases t with
  | throwing => exact absurd rfl hthrow
  | methodExit => exact absurd rfl hexit
  | endFinally => exact absurd rfl hend
  | _ => simp only [checkEdges, h]

/-- The check accepts just the edges that a terminator prescribes. For a choice between two blocks
these are one edge of each kind, to the block that belongs to it, and for a `switch` one edge for
each of its cases and one for its default if it has any: in some order, with no edge missing,
repeated or left over. For a jump it is a single edge of one of two kinds. Whatever the terminator,
the verdict does not depend on the order of the edges. Lists that differ by exceptional edges alone
get the same verdict from all terminators but three. -/
theorem checkEdges_exact (edges : List Edge) :
    (∀ onTrue onFalse, (branch onTrue onFalse).checkEdges edges = .ok () ↔
      (edges.filter (·.isNormal)).Perm [⟨.onTrue, onTrue⟩, ⟨.onFalse, onFalse⟩]) ∧
    (∀ cases default, (switch cases default).checkEdges edges = .ok () ↔
      (edges.filter (·.isNormal)).Perm
        (cases.mapIdx (fun index target => ⟨.case index, target⟩) ++
          default.toList.map (⟨.default, ·⟩))) ∧
    (∀ target, (jump target).checkEdges edges = .ok () ↔
      ∃ kind, (kind = .sequential ∨ kind = .loopBack) ∧ edges.filter (·.isNormal) =
        [⟨kind, target⟩]) ∧
    (∀ t edges', edges.Perm edges' → (checkEdges t edges = .ok () ↔ checkEdges t edges' = .ok ())) ∧
    (∀ t edges', t ≠ throwing → t ≠ methodExit → t ≠ endFinally →
      edges.filter (·.isNormal) = edges'.filter (·.isNormal) →
        checkEdges t edges = checkEdges t edges') := by
  refine ⟨fun _ _ => checkEdges_branch_iff, fun _ _ => checkEdges_switch_iff,
    fun _ => checkEdges_jump_iff, ?_, ?_⟩
  · intro t edges' h
    exact ⟨checkEdges_of_perm h, checkEdges_of_perm h.symm⟩
  · intro t edges' hthrow hexit hend h
    exact checkEdges_congr hthrow hexit hend h

/-- A `switch` with two cases that lead to one block. Its edges are accepted in another order and
with an exceptional edge besides them. -/
theorem checkEdges_exact_sharedCase :
    let prescribed : List Edge := [⟨.case 0, 1⟩, ⟨.case 1, 1⟩, ⟨.default, 2⟩]
    let edges : List Edge := [⟨.default, 2⟩, ⟨.case 1, 1⟩, ⟨.case 0, 1⟩]
    edges.Perm prescribed ∧ (switch [1, 1] (some 2)).checkEdges prescribed = .ok () ∧
      (switch [1, 1] (some 2)).checkEdges edges = .ok () ∧
      (switch [1, 1] (some 2)).checkEdges (.exceptional 3 :: edges) = .ok () ∧
      (switch [1, 1] (some 2)).checkEdges [⟨.case 0, 1⟩, ⟨.case 0, 1⟩, ⟨.default, 2⟩] ≠ .ok () := by
  intro prescribed edges
  obtain ⟨_, hswitch, _, hperm, hcongr⟩ := checkEdges_exact edges
  have hp : edges.Perm prescribed := by decide
  have hok : (switch [1, 1] (some 2)).checkEdges edges = .ok () := (hswitch _ _).mpr (by decide)
  refine ⟨hp, (hperm _ _ hp).mp hok, hok, ?_, ?_⟩
  · exact (hcongr _ (.exceptional 3 :: edges) (by decide) (by decide) (by decide)
      rfl).symm.trans hok
  · rw [Ne, (checkEdges_exact _).2.1]
    decide

end MethodFlow.Terminator
