import MethodFlow.Graph.Basic

/-!
# Gathering predecessors

The predecessors of a block are asked for by looking at all blocks. One pass over the edges finds
those of all blocks at once: each edge enters the block that it leaves into the list of the block
that it leads to. The pass has no result if an edge leads to a number that is no block.

One edge changes one list (`enterSource?_eq_some`), and after a pass every list has the sources of
all edges to its block, each once (`foldlM_enterSource?`). Main result: `gatherPredecessors?_eq`.
-/

namespace MethodFlow

section Appending

variable {α : Type} [BEq α]

theorem appendAllNew_append (xs ys zs : List α) :
    appendAllNew xs (ys ++ zs) = appendAllNew (appendAllNew xs ys) zs :=
  List.foldl_append

variable [LawfulBEq α]

/-- Nothing is added that is there already. -/
theorem appendAllNew_of_subset {xs ys : List α} (h : ys ⊆ xs) : appendAllNew xs ys = xs := by
  unfold appendAllNew
  induction ys with
  | nil => rfl
  | cons y ys ih =>
    have hadd : appendNew xs y = xs := if_pos (List.contains_iff_mem.mpr (h List.mem_cons_self))
    rw [List.foldl_cons, hadd]
    exact ih fun z hz => h (List.mem_cons_of_mem _ hz)

/-- A new value, however often it comes, is added once. -/
theorem appendAllNew_of_forall_eq {xs ys : List α} {x : α} (hx : x ∉ xs) (hne : ys ≠ [])
    (h : ∀ y ∈ ys, y = x) : appendAllNew xs ys = xs ++ [x] := by
  obtain ⟨y, ys, rfl⟩ := List.exists_cons_of_ne_nil hne
  obtain rfl := h y List.mem_cons_self
  have hadd : appendAllNew xs [y] = xs ++ [y] := if_neg fun hm => hx (List.contains_iff_mem.mp hm)
  have hrest : ys ⊆ xs ++ [y] := by
    intro z hz
    rw [h z (List.mem_cons_of_mem _ hz)]
    exact List.mem_append_right _ List.mem_cons_self
  rw [← List.singleton_append, appendAllNew_append, hadd, appendAllNew_of_subset hrest]

end Appending

namespace Graph

/-! ## One pass over the edges -/

/-- The blocks that edges to a block leave, in the order of the edges. -/
def sourcesTo (edges : List (BlockId × Edge)) (id : BlockId) : List BlockId :=
  (edges.filter (·.2.target == id)).map (·.1)

theorem mem_sourcesTo {edges : List (BlockId × Edge)} {id p : BlockId} :
    p ∈ sourcesTo edges id ↔ ∃ e, (p, e) ∈ edges ∧ e.target = id := by
  simp [sourcesTo]

theorem sourcesTo_append (edges more : List (BlockId × Edge)) (id : BlockId) :
    sourcesTo (edges ++ more) id = sourcesTo edges id ++ sourcesTo more id := by
  rw [sourcesTo, List.filter_append, List.map_append]
  rfl

/-- One edge changes one list. -/
theorem enterSource?_eq_some {lists : Array (List BlockId)} {edge : BlockId × Edge}
    (h : edge.2.target < lists.size) :
    enterSource? lists edge =
      some (lists.mapIdx fun id sources => appendAllNew sources (sourcesTo [edge] id)) := by
  rw [enterSource?, if_pos h, Option.some_inj]
  apply Array.ext_getElem?
  intro id
  rw [Array.getElem?_modify, Array.getElem?_mapIdx]
  by_cases hid : edge.2.target = id
  · have hsources : sourcesTo [edge] id = [edge.1] := by simp [sourcesTo, hid]
    rw [if_pos hid, hsources]
    rfl
  · have hsources : sourcesTo [edge] id = [] := by simp [sourcesTo, hid]
    rw [if_neg hid, hsources]
    exact Option.map_id'.symm

/-- After a pass every list has the sources of all edges to its block, each once. -/
theorem foldlM_enterSource? {edges : List (BlockId × Edge)} {lists : Array (List BlockId)}
    (h : ∀ p ∈ edges, p.2.target < lists.size) :
    edges.foldlM enterSource? lists =
      some (lists.mapIdx fun id sources => appendAllNew sources (sourcesTo edges id)) := by
  induction edges generalizing lists with
  | nil =>
    have hsame : lists.mapIdx (fun id sources => appendAllNew sources (sourcesTo [] id)) =
        lists := by
      apply Array.ext_getElem?
      intro id
      rw [Array.getElem?_mapIdx]
      exact Option.map_id'
    rw [hsame]
    rfl
  | cons p edges ih =>
    rw [List.foldlM_cons, enterSource?_eq_some (h p List.mem_cons_self), Option.bind_eq_bind,
      Option.bind_some, ih, Array.mapIdx_mapIdx]
    · simp only [← appendAllNew_append, ← sourcesTo_append, List.singleton_append,
        Function.comp_def]
    · intro q hq
      rw [Array.size_mapIdx]
      exact h q (List.mem_cons_of_mem _ hq)

variable {g : Graph}

theorem mem_edgesFrom {source : BlockId} {e : Edge} :
    e ∈ g.edgesFrom source ↔ ∃ b, g.block? source = some b ∧ e ∈ b.successors := by
  unfold edgesFrom
  cases g.block? source <;> simp

/-- The edges of a graph are those from each of its blocks. -/
theorem mem_edges {source : BlockId} {e : Edge} : (source, e) ∈ g.edges ↔
    e ∈ g.edgesFrom source := by
  unfold edges
  simp only [List.mem_flatMap, List.mem_map, Prod.mk.injEq]
  constructor
  · rintro ⟨_, _, e', he, rfl, rfl⟩
    exact he
  · intro he
    obtain ⟨b, hb, _⟩ := mem_edgesFrom.mp he
    exact ⟨source, List.mem_range.mpr (lt_size_of_block? hb), e, he, rfl, rfl⟩

/-- The sources of the edges to a block, gathered from blocks that were not met before. -/
theorem appendAllNew_sourcesTo (g : Graph) (id : BlockId) {ids found : List BlockId}
    (hnodup : ids.Nodup) (hnew : ∀ source ∈ ids, source ∉ found) :
    appendAllNew found
      (sourcesTo (ids.flatMap fun source => (g.edgesFrom source).map (source, ·)) id) =
      found ++ ids.filter fun source => (g.targets source).contains id := by
  induction ids generalizing found with
  | nil => exact (List.append_nil _).symm
  | cons source ids ih =>
    obtain ⟨hsource, hnodup⟩ := List.nodup_cons.mp hnodup
    obtain ⟨hfound, hnew⟩ := List.forall_mem_cons.mp hnew
    have hown : ∀ p, p ∈ sourcesTo ((g.edgesFrom source).map (source, ·)) id ↔
        p = source ∧ id ∈ g.targets source := by
      intro p
      rw [mem_sourcesTo, targets]
      grind
    rw [List.flatMap_cons, sourcesTo_append, appendAllNew_append]
    by_cases ht : id ∈ g.targets source
    · have hsome := List.ne_nil_of_mem ((hown source).mpr ⟨rfl, ht⟩)
      rw [List.filter_cons, if_pos (List.contains_iff_mem.mpr ht),
        appendAllNew_of_forall_eq hfound hsome fun p hp => ((hown p).mp hp).1, ih hnodup,
          List.append_assoc,
        List.singleton_append]
      intro p hp hm
      rcases List.mem_append.mp hm with hm | hm
      · exact hnew p hp hm
      · exact hsource (List.mem_singleton.mp hm ▸ hp)
    · have hnone : sourcesTo ((g.edgesFrom source).map (source, ·)) id = [] :=
        List.eq_nil_iff_forall_not_mem.mpr fun p hp => ht ((hown p).mp hp).2
      rw [List.filter_cons, if_neg fun hm => ht (List.contains_iff_mem.mp hm), hnone]
      exact ih hnodup hnew

/-- If all edges lead to blocks, the pass comes to its end, and its lists are the predecessors of
the blocks. -/
theorem gatherPredecessors?_eq (hg : ∀ p ∈ g.edges, p.2.target < g.size) :
    g.gatherPredecessors? = some (g.ids.map g.predecessors).toArray := by
  have hedges : ∀ p ∈ g.edges, p.2.target < (Array.replicate g.size ([] : List BlockId)).size := by
    rw [Array.size_replicate]
    exact hg
  rw [gatherPredecessors?, foldlM_enterSource? hedges, Option.some_inj]
  apply Array.ext_getElem?
  intro id
  rw [Array.getElem?_mapIdx, Array.getElem?_replicate, List.getElem?_toArray,
    List.getElem?_map, ids]
  by_cases hid : id < g.size
  · rw [if_pos hid, List.getElem?_range hid]
    exact congrArg some (g.appendAllNew_sourcesTo id List.nodup_range fun _ _ => List.not_mem_nil)
  · rw [if_neg hid, List.getElem?_eq_none (by simpa using hid)]
    rfl

end Graph

end MethodFlow
