import MethodFlow.Graph.Reachability
import MethodFlow.Proofs.Bookkeeping

/-!
# Paths and the elements they spell

`g.Path start w id` says that control can go from the start of one block to the start of another,
running through the elements `w` on the way: all elements of every block that is left by a normal
edge, and the first few of a block that is left by an exception.

The search of `Graph.reachability` finds every block that a path from the entry leads to
(`Path.isReachable`): whatever it has visited, it has visited the targets of all edges from there
too. And it comes nowhere else: what goes along edges holds wherever it comes
(`Graph.isReachable_invariant`).
-/

namespace MethodFlow

/-- What control has run through when it leaves a block by an edge. -/
def BasicBlock.Spells (b : BasicBlock) (e : Edge) (w : List Element) : Prop :=
  if e.isExceptional then w <+: b.elements else w = b.elements

namespace BasicBlock

/-- Any edge can be taken at the end of a block. -/
theorem spells_elements (b : BasicBlock) (e : Edge) : b.Spells e b.elements := by
  unfold Spells
  split
  · exact List.prefix_refl _
  · rfl

/-- An edge spells the first elements of its block, if not all. -/
theorem Spells.isPrefix {b : BasicBlock} {e : Edge} {w : List Element} (h : b.Spells e w) :
    w <+: b.elements := by
  unfold Spells at h
  split at h
  · exact h
  · exact h ▸ List.prefix_refl _

theorem spells_exceptional {b : BasicBlock} {id : BlockId} {w : List Element}
    (h : w <+: b.elements) :
    b.Spells (.exceptional id) w :=
  h

end BasicBlock

namespace Graph

/-- A way through a graph from the start of one block to the start of another, with the elements
that control runs through. -/
inductive Path (g : Graph) (start : BlockId) : List Element → BlockId → Prop
  | here : g.Path start [] start
  | step {w u : List Element} {id : BlockId} {b : BasicBlock} {e : Edge} (path : g.Path start w id)
      (isBlock : g.block? id = some b) (isEdge : e ∈ b.successors) (spelled : b.Spells e u) :
      g.Path start (w ++ u) e.target

end Graph

/-! ## What the search finds -/

namespace Search

theorem mem_discover_of_mem {unfound targets : List BlockId} {t : BlockId} (ht : t ∈ targets)
    (hu : t ∈ unfound) : t ∈ (discover unfound targets).2 := by
  induction targets generalizing unfound with
  | nil => exact nomatch ht
  | cons target targets ih =>
    simp only [discover]
    rcases List.mem_cons.mp ht with rfl | ht
    · rw [if_pos (List.contains_iff_mem.mpr hu)]
      exact List.mem_cons_self
    · split
      · by_cases he : t = target
        · rw [he]
          exact List.mem_cons_self
        · exact List.mem_cons_of_mem _ (ih ht ((List.mem_erase_of_ne he).mpr hu))
      · exact ih ht hu

theorem mem_of_mem_discover {unfound targets : List BlockId} {t : BlockId}
    (h : t ∈ (discover unfound targets).2) : t ∈ targets := by
  induction targets generalizing unfound with
  | nil => exact nomatch h
  | cons target targets ih =>
    simp only [discover] at h
    split at h
    · rcases List.mem_cons.mp h with rfl | h
      · exact List.mem_cons_self
      · exact List.mem_cons_of_mem _ (ih h)
    · exact List.mem_cons_of_mem _ (ih h)

/-- What was not found yet is found now or left over. -/
theorem mem_discover {unfound : List BlockId} {t : BlockId} (hu : t ∈ unfound)
    (targets : List BlockId) :
    t ∈ (discover unfound targets).1 ∨ t ∈ (discover unfound targets).2 := by
  induction targets generalizing unfound with
  | nil => exact Or.inl hu
  | cons target targets ih =>
    simp only [discover]
    split
    · by_cases he : t = target
      · rw [he]
        exact Or.inr List.mem_cons_self
      · rcases ih ((List.mem_erase_of_ne he).mpr hu) with h | h
        · exact Or.inl h
        · exact Or.inr (List.mem_cons_of_mem _ h)
    · exact ih hu

variable (next : BlockId → List BlockId)

/-- What is in the queue is visited. -/
theorem mem_run_of_mem_queue {unfound queue : List BlockId} {id : BlockId} (hid : id ∈ queue) :
    id ∈ (run next unfound queue).1 := by
  fun_induction run next unfound queue with
  | case1 => exact nomatch hid
  | case2 unfound block queue found rest ih =>
    rcases List.mem_cons.mp hid with rfl | hid
    · exact List.mem_cons_self
    · exact List.mem_cons_of_mem _ (ih (List.mem_append_left _ hid))

/-- The blocks that a search visits are closed under its edges, as far as there was something to
find. -/
theorem run_closed {unfound queue : List BlockId} {id t : BlockId}
    (hid : id ∈ (run next unfound queue).1) (ht : t ∈ next id) (hu : t ∈ unfound) :
    t ∈ (run next unfound queue).1 := by
  fun_induction run next unfound queue with
  | case1 => exact nomatch hid
  | case2 unfound block queue found rest ih =>
    have hfound : found.2 ⊆ rest.1 := fun x hx =>
      mem_run_of_mem_queue next (List.mem_append_right _ hx)
    rcases List.mem_cons.mp hid with rfl | hid
    · exact List.mem_cons_of_mem _ (hfound (mem_discover_of_mem ht hu))
    · rcases mem_discover hu (next block) with hu | hu
      · exact List.mem_cons_of_mem _ (ih hid hu)
      · exact List.mem_cons_of_mem _ (hfound hu)

/-- What holds in the queue, and goes from a block to the blocks next to it, holds wherever a search
comes. -/
theorem run_invariant {P : BlockId → Prop} (step : ∀ id, P id → ∀ t ∈ next id, P t)
    {unfound queue : List BlockId} (h : ∀ id ∈ queue, P id) :
    ∀ id ∈ (run next unfound queue).1, P id := by
  fun_induction run next unfound queue with
  | case1 => exact nofun
  | case2 unfound block queue found rest ih =>
    have hblock : P block := h block List.mem_cons_self
    intro id hid
    rcases List.mem_cons.mp hid with rfl | hid
    · exact hblock
    · refine ih (fun id hid => ?_) id hid
      rcases List.mem_append.mp hid with hid | hid
      · exact h id (List.mem_cons_of_mem _ hid)
      · exact step block hblock id (mem_of_mem_discover hid)

end Search

namespace Graph

variable {g : Graph}

theorem isReachable_entry (g : Graph) : g.reachability.isReachable entry = true :=
  List.contains_iff_mem.mpr (Search.mem_run_of_mem_queue _ List.mem_cons_self)

theorem mem_targets {id : BlockId} {b : BasicBlock} {e : Edge} (hb : g.block? id = some b)
    (he : e ∈ b.successors) : e.target ∈ g.targets id := by
  rw [targets, edgesFrom, hb]
  exact List.mem_map.mpr ⟨e, he, rfl⟩

/-- Where a reachable block leads is reachable. -/
theorem isReachable_target {id t : BlockId} (hid : g.reachability.isReachable id = true)
    (ht : t ∈ g.targets id) (hlt : t < g.size) : g.reachability.isReachable t = true := by
  by_cases he : t = entry
  · rw [he]
    exact g.isReachable_entry
  · have hu : t ∈ g.ids.erase entry := (List.mem_erase_of_ne he).mpr (List.mem_range.mpr hlt)
    exact List.contains_iff_mem.mpr
      (Search.run_closed _ (List.contains_iff_mem.mp hid) ht hu)

/-- What holds of the entry, and goes along edges, holds of every block that the search finds. -/
theorem isReachable_invariant {P : BlockId → Prop} (hentry : P entry)
    (step : ∀ id, P id → ∀ t ∈ g.targets id, P t) {id : BlockId}
    (h : g.reachability.isReachable id = true) :
    P id := by
  refine Search.run_invariant _ step (fun id hid => ?_) id (List.contains_iff_mem.mp h)
  rw [List.mem_singleton.mp hid]
  exact hentry

/-- Every block that a path from the entry leads to is found by the search. -/
theorem Path.isReachable {w : List Element} {id : BlockId} (h : g.Path entry w id)
    (hlt : id < g.size) :
    g.reachability.isReachable id = true := by
  induction h with
  | here => exact g.isReachable_entry
  | step _ isBlock isEdge _ ih =>
    exact isReachable_target (ih (lt_size_of_block? isBlock)) (mem_targets isBlock isEdge) hlt

end Graph

end MethodFlow
