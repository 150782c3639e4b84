import Mathlib.Logic.Relation
import MethodFlow.Proofs.Paths

/-!
# What a search visits, and what it leaves over

A search takes blocks from the list of those not found yet, so what it has visited and what it
leaves over make up, together, what there was (`Search.run_perm`), and what is left over stays in
order. Within that list it visits just the blocks that its queue leads to (`Search.mem_run_iff`).

From there, `Search.exists_region_iff` says which candidates start a region: those that no candidate
before them leads to. An earlier region is closed under edges, so no way from a later candidate runs
through it, and it does not matter that its blocks are no longer there to be found. If every block
is a candidate, the regions make up all that there was to find (`Search.regions_perm`).
-/

namespace MethodFlow

namespace Search

/-! ## Nothing is lost and nothing is doubled -/

theorem discover_perm (unfound targets : List BlockId) :
    ((discover unfound targets).1 ++ (discover unfound targets).2).Perm unfound := by
  induction targets generalizing unfound with
  | nil =>
    rw [discover, List.append_nil]
  | cons target targets ih =>
    simp only [discover]
    split
    · rename_i h
      refine List.perm_middle.trans (((ih (unfound.erase target)).cons target).trans ?_)
      exact (List.perm_cons_erase (List.contains_iff_mem.mp h)).symm
    · exact ih unfound

theorem discover_sublist (unfound targets : List BlockId) :
    (discover unfound targets).1.Sublist unfound := by
  induction targets generalizing unfound with
  | nil => exact List.Sublist.refl _
  | cons target targets ih =>
    simp only [discover]
    split
    · exact (ih _).trans List.erase_sublist
    · exact ih unfound

variable (next : BlockId → List BlockId)

/-- A search neither loses nor doubles a block. -/
theorem run_perm (unfound queue : List BlockId) :
    ((run next unfound queue).1 ++ (run next unfound queue).2).Perm (queue ++ unfound) := by
  fun_induction run next unfound queue with
  | case1 unfound => exact List.Perm.refl _
  | case2 unfound block queue found rest ih =>
    refine (ih.trans ?_).cons block
    rw [List.append_assoc]
    exact ((List.perm_append_comm.trans (discover_perm unfound (next block)))).append_left queue

/-- What a search leaves over keeps its order. -/
theorem run_sublist (unfound queue : List BlockId) :
    (run next unfound queue).2.Sublist unfound := by
  fun_induction run next unfound queue with
  | case1 unfound => exact List.Sublist.refl _
  | case2 unfound block queue found rest ih =>
    exact ih.trans (discover_sublist unfound (next block))

/-! ## Where a search comes -/

/-- The search can go from one block to another that is there to be found. -/
def Within (found : List BlockId) (a b : BlockId) : Prop := b ∈ next a ∧ b ∈ found

/-- Steps of a search lead from one block to another. -/
def Leads (found : List BlockId) : BlockId → BlockId → Prop :=
    Relation.ReflTransGen (Within next found)

variable {next} {unfound queue : List BlockId} {a b : BlockId}

theorem Leads.mono {found : List BlockId} (hsub : unfound ⊆ found) (h : Leads next unfound a b) :
    Leads next found a b :=
  Relation.ReflTransGen.mono (fun _ _ hs => ⟨hs.1, hsub hs.2⟩) a b h

/-- A search visits just what its queue leads to. -/
theorem mem_run_iff : b ∈ (run next unfound queue).1 ↔ ∃ a ∈ queue, Leads next unfound a b := by
  constructor
  · intro h
    fun_induction run next unfound queue with
    | case1 => cases h
    | case2 unfound block queue found rest ih =>
      rcases List.mem_cons.mp h with rfl | h
      · exact ⟨b, List.mem_cons_self, .refl⟩
      · obtain ⟨a, ha, hlead⟩ := ih h
        have hlead := hlead.mono (discover_sublist unfound (next block)).subset
        rcases List.mem_append.mp ha with ha | ha
        · exact ⟨a, List.mem_cons_of_mem _ ha, hlead⟩
        · have hnew : a ∈ unfound :=
            (discover_perm unfound (next block)).mem_iff.mp (List.mem_append_right _ ha)
          exact ⟨block, List.mem_cons_self, hlead.head ⟨mem_of_mem_discover ha, hnew⟩⟩
  · rintro ⟨a, ha, hlead⟩
    induction hlead with
    | refl => exact mem_run_of_mem_queue next ha
    | tail _ hs ih => exact run_closed next ih hs.1 hs.2

/-- What a search leaves over is what it did not visit. -/
theorem mem_left_iff (hnodup : (queue ++ unfound).Nodup) :
    b ∈ (run next unfound queue).2 ↔ b ∈ unfound ∧ b ∉ (run next unfound queue).1 := by
  have hperm := run_perm next unfound queue
  have hdisjoint := (List.nodup_append.mp (hperm.nodup_iff.mpr hnodup)).2.2
  constructor
  · intro h
    exact ⟨(run_sublist next unfound queue).subset h, fun h' => hdisjoint b h' b h rfl⟩
  · rintro ⟨hb, hnot⟩
    have hmem := hperm.mem_iff.mpr (List.mem_append_right queue hb)
    exact (List.mem_append.mp hmem).resolve_left hnot

/-! ## Which candidates start a region -/

section Region

variable {head : BlockId}

theorem leads_erase : Leads next (unfound.erase head) head b ↔ Leads next unfound head b := by
  constructor
  · exact Leads.mono List.erase_subset
  · intro h
    induction h with
    | refl => exact .refl
    | @tail _ c _ hs ih =>
      -- A way that comes back to the head can start anew there.
      by_cases hc : c = head
      · rw [hc]
        exact .refl
      · exact ih.tail ⟨hs.1, (List.mem_erase_of_ne hc).mpr hs.2⟩

/-- What the search from a head leaves over is what the head does not lead to. -/
theorem mem_left_region_iff (hnodup : unfound.Nodup) (hhead : head ∈ unfound) :
    b ∈ (run next (unfound.erase head) [head]).2 ↔ b ∈ unfound ∧ ¬ Leads next unfound head b := by
  have hperm := List.perm_cons_erase hhead
  rw [mem_left_iff (hperm.nodup_iff.mp hnodup), mem_run_iff]
  simp only [List.mem_singleton, exists_eq_left, leads_erase]
  constructor
  · rintro ⟨hb, hnot⟩
    exact ⟨List.mem_of_mem_erase hb, hnot⟩
  · rintro ⟨hb, hnot⟩
    refine ⟨(List.mem_erase_of_ne ?_).mpr hb, hnot⟩
    rintro rfl
    exact hnot .refl

/-- A way to what is left over does not come through the region. -/
theorem Leads.avoids {left : List BlockId} (h : Leads next unfound a b)
    (hleft : ∀ x, x ∈ left ↔ x ∈ unfound ∧ ¬ Leads next unfound head x) (ha : a ∈ unfound)
    (hb : b ∈ left) :
    a ∈ left ∧ Leads next left a b := by
  induction h using Relation.ReflTransGen.head_induction_on with
  | refl => exact ⟨hb, .refl⟩
  | head hs _ ih =>
    obtain ⟨hc, hlead⟩ := ih hs.2
    refine ⟨(hleft _).mpr ⟨ha, fun hto => ((hleft _).mp hc).2 (hto.tail hs)⟩, hlead.head ⟨hs.1, hc⟩⟩

end Region

/-- A block starts a region if it is among the candidates and none of those before it leads to
it. -/
theorem exists_region_iff {heads : List BlockId} (hnodup : unfound.Nodup) :
    (∃ rest, b :: rest ∈ regions next unfound heads) ↔
      b ∈ unfound ∧ ∃ before after, heads = before ++ b :: after ∧
        ∀ a ∈ before, a ∈ unfound → ¬ Leads next unfound a b := by
  induction heads generalizing unfound with
  | nil =>
    constructor
    · rintro ⟨rest, hrest⟩
      exact nomatch hrest
    · rintro ⟨_, before, after, hsplit, _⟩
      exact absurd hsplit.symm (List.append_ne_nil_of_right_ne_nil _ (List.cons_ne_nil _ _))
  | cons head heads ih =>
    rw [regions]
    by_cases hhead : head ∈ unfound
    · rw [if_pos (List.contains_iff_mem.mpr hhead)]
      -- What the region of `head` leaves unfound is what `head` does not lead to.
      have hleft : ∀ x, x ∈ (run next (unfound.erase head) [head]).2 ↔
          x ∈ unfound ∧ ¬ Leads next unfound head x := fun x => mem_left_region_iff hnodup hhead
      have hsub := (run_sublist next (unfound.erase head) [head]).trans List.erase_sublist
      have hfirst : ∃ rest, (run next (unfound.erase head) [head]).1 = head :: rest := by
        rw [run]
        exact ⟨_, rfl⟩
      have ih := ih (hnodup.sublist hsub)
      dsimp only
      generalize run next (unfound.erase head) [head] = region at *
      obtain ⟨tail, htail⟩ := hfirst
      constructor
      · rintro ⟨rest, hrest⟩
        rcases List.mem_cons.mp hrest with hrest | hrest
        · rw [htail] at hrest
          obtain ⟨rfl, _⟩ := List.cons.inj hrest
          exact ⟨hhead, [], heads, rfl, nofun⟩
        · obtain ⟨hb, before, after, rfl, hbefore⟩ := ih.mp ⟨rest, hrest⟩
          refine ⟨((hleft b).mp hb).1, head :: before, after, rfl, fun a ha hu hlead => ?_⟩
          -- A way to `b` avoids the region, for from there `b` would have been found.
          obtain ⟨hal, hlead'⟩ := hlead.avoids hleft hu hb
          rcases List.mem_cons.mp ha with rfl | ha
          · exact ((hleft b).mp hb).2 hlead
          · exact hbefore a ha hal hlead'
      · rintro ⟨hb, before, after, hsplit, hbefore⟩
        cases before with
        | nil =>
          obtain ⟨rfl, _⟩ := List.cons.inj hsplit
          exact ⟨tail, htail ▸ List.mem_cons_self⟩
        | cons first before =>
          obtain ⟨rfl, rfl⟩ := List.cons.inj hsplit
          have hbl := (hleft b).mpr ⟨hb, hbefore head List.mem_cons_self hhead⟩
          obtain ⟨rest, hrest⟩ := ih.mpr ⟨hbl, before, after, rfl, fun a ha hal hlead =>
            hbefore a (List.mem_cons_of_mem _ ha) (hsub.subset hal) (hlead.mono hsub.subset)⟩
          exact ⟨rest, List.mem_cons_of_mem _ hrest⟩
    · rw [if_neg (fun h => hhead (List.contains_iff_mem.mp h)), ih hnodup]
      -- A head found before starts no region.
      refine and_congr_right fun hb => ?_
      constructor
      · rintro ⟨before, after, rfl, hbefore⟩
        refine ⟨head :: before, after, rfl, fun a ha hu => ?_⟩
        rcases List.mem_cons.mp ha with rfl | ha
        · exact absurd hu hhead
        · exact hbefore a ha hu
      · rintro ⟨before, after, hsplit, hbefore⟩
        cases before with
        | nil =>
          obtain ⟨rfl, _⟩ := List.cons.inj hsplit
          exact absurd hb hhead
        | cons first before =>
          obtain ⟨rfl, rfl⟩ := List.cons.inj hsplit
          exact ⟨before, after, rfl, fun a ha => hbefore a (List.mem_cons_of_mem _ ha)⟩

/-! ## Regions make up what there is -/

/-- If everything is a candidate, the regions together are all that there was to find. -/
theorem regions_perm {heads : List BlockId} (hnodup : unfound.Nodup) (hall : unfound ⊆ heads) :
    (regions next unfound heads).flatten.Perm unfound := by
  induction heads generalizing unfound with
  | nil => rw [List.subset_nil.mp hall, regions, List.flatten_nil]
  | cons head heads ih =>
    rw [regions]
    by_cases hhead : head ∈ unfound
    · rw [if_pos (List.contains_iff_mem.mpr hhead)]
      dsimp only
      have hperm := run_perm next (unfound.erase head) [head]
      have hsub := (run_sublist next (unfound.erase head) [head]).trans List.erase_sublist
      have hrest : (run next (unfound.erase head) [head]).2 ⊆ heads := by
        intro b hb
        obtain ⟨hmem, hnot⟩ := (mem_left_region_iff hnodup hhead).mp hb
        rcases List.mem_cons.mp (hall hmem) with rfl | hlater
        · exact absurd .refl hnot
        · exact hlater
      rw [List.flatten_cons]
      refine ((ih (hnodup.sublist hsub) hrest).append_left _).trans (hperm.trans ?_)
      exact (List.perm_cons_erase hhead).symm
    · rw [if_neg fun h => hhead (List.contains_iff_mem.mp h)]
      refine ih hnodup fun b hb => (List.mem_cons.mp (hall hb)).resolve_left ?_
      rintro rfl
      exact hhead hb

/-- A region begins with its head, which leads to all of it. -/
theorem exists_head_of_mem_regions {heads region : List BlockId}
    (h : region ∈ regions next unfound heads) :
    ∃ head rest, region = head :: rest ∧ head ∈ unfound ∧ ∀ b ∈ region,
      Leads next unfound head b := by
  induction heads generalizing unfound with
  | nil => exact nomatch h
  | cons head heads ih =>
    rw [regions] at h
    split at h
    · rename_i hcontains
      rcases List.mem_cons.mp h with rfl | h
      · obtain ⟨rest, hrest⟩ : ∃ rest, (run next (unfound.erase head) [head]).1 = head :: rest := by
          rw [run]
          exact ⟨_, rfl⟩
        refine ⟨head, rest, hrest, List.contains_iff_mem.mp hcontains, fun b hb => ?_⟩
        obtain ⟨a, ha, hlead⟩ := mem_run_iff.mp hb
        rw [List.mem_singleton.mp ha] at hlead
        exact leads_erase.mp hlead
      · have hsub := (run_sublist next (unfound.erase head) [head]).trans List.erase_sublist
        obtain ⟨first, rest, hregion, hfirst, hlead⟩ := ih h
        exact ⟨first, rest, hregion, hsub.subset hfirst, fun b hb => (hlead b hb).mono hsub.subset⟩
    · exact ih h

end Search

namespace Graph

variable (g : Graph)

/-- Every block is reachable or not, and is listed once. -/
theorem reachability_perm :
    (g.reachability.reachable ++ g.reachability.unreachable).Perm g.ids := by
  have hentry : entry ∈ g.ids := List.mem_range.mpr (Nat.lt_of_succ_lt g.two_le_size)
  exact (Search.run_perm _ _ _).trans (List.perm_cons_erase hentry).symm

/-- Dead blocks are listed in the order in which they were made. -/
theorem unreachable_sorted : g.reachability.unreachable.Pairwise (· < ·) :=
  List.pairwise_lt_range.sublist ((Search.run_sublist _ _ _).trans List.erase_sublist)

variable {g}

theorem isReachable_iff {id : BlockId} :
    g.reachability.isReachable id = true ↔ id ∈ g.reachability.reachable :=
  List.contains_iff_mem

theorem mem_unreachable_iff {id : BlockId} :
    id ∈ g.reachability.unreachable ↔ id < g.size ∧ ¬ g.reachability.isReachable id = true := by
  have hmem := g.reachability_perm.mem_iff (a := id)
  have hnodup : (g.reachability.reachable ++ g.reachability.unreachable).Nodup :=
    g.reachability_perm.nodup_iff.mpr List.nodup_range
  rw [List.mem_append, ids, List.mem_range] at hmem
  rw [isReachable_iff]
  constructor
  · intro h
    exact ⟨hmem.mp (Or.inr h), fun h' => (List.nodup_append.mp hnodup).2.2 id h' id h rfl⟩
  · rintro ⟨hlt, hnot⟩
    exact (hmem.mpr hlt).resolve_left hnot

/-- The reachable blocks are listed once each. -/
theorem reachable_perm (g : Graph) :
    g.reachability.reachable.Perm (g.ids.filter g.reachability.isReachable) := by
  have hnodup : (g.reachability.reachable ++ g.reachability.unreachable).Nodup :=
    g.reachability_perm.nodup_iff.mpr List.nodup_range
  refine (List.perm_ext_iff_of_nodup (List.nodup_append.mp hnodup).1
    (List.nodup_range.filter _)).mpr fun id => ?_
  rw [List.mem_filter, isReachable_iff]
  exact ⟨fun h => ⟨g.reachability_perm.mem_iff.mp (List.mem_append_left _ h), h⟩, fun h => h.2⟩

theorem filter_isReachable (h : g.reachability.unreachable = []) :
    g.ids.filter g.reachability.isReachable = g.ids := by
  refine List.filter_eq_self.mpr fun id hid => ?_
  refine Decidable.byContradiction fun hnot => ?_
  have hdead := mem_unreachable_iff.mpr ⟨List.mem_range.mp hid, hnot⟩
  rw [h] at hdead
  exact nomatch hdead

end Graph

end MethodFlow
