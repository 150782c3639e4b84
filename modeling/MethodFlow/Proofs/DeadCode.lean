import MethodFlow.Lint.UnreachableCode
import MethodFlow.Proofs.DeadRegions
import MethodFlow.Proofs.Reaching

/-!
# Dead code is reported once

The regions of a graph are its dead blocks, each in one region and there once, and a region hangs
together: its first block leads to all of it without leaving dead code
(`Graph.partitions_deadRegions`). The rule makes one report for every region that has an element, at
the first one. So it is silent if and only if every block with an element can be reached.

Main result: `UnreachableCode.check_deadRegions`.
-/

namespace MethodFlow

namespace Graph

/-- A block that no way from the entry leads to. -/
def Dead (g : Graph) (b : BlockId) : Prop := b < g.size ∧ ¬ g.Reaches entry b

/-- The lists divide the dead blocks into parts that hang together. -/
structure Partitions (g : Graph) (regions : List (List BlockId)) : Prop where
  disjoint : regions.Pairwise List.Disjoint
  nodup : ∀ region ∈ regions, region.Nodup
  covers : ∀ b, (∃ region ∈ regions, b ∈ region) ↔ g.Dead b
  /-- A way over dead blocks alone leads from the first block of a part to each of its blocks. -/
  connected : ∀ region ∈ regions, ∃ head rest, region = head :: rest ∧
    ∀ b ∈ region, Relation.ReflTransGen (fun a b => b ∈ g.targets a ∧ g.Dead b) head b

variable {g : Graph}

/-- The dead regions list the unreachable blocks, each of them once. -/
theorem deadRegions_perm (g : Graph) :
    (g.deadRegions g.reachability).flatten.Perm g.reachability.unreachable :=
  Search.regions_perm (g.unreachable_sorted.imp Nat.ne_of_lt) (List.subset_append_right _ _)

/-- The dead regions partition the unreachable blocks. -/
theorem partitions_deadRegions (hg : g.InRange) : g.Partitions (g.deadRegions g.reachability) := by
  have hdead : ∀ b, b ∈ g.reachability.unreachable ↔ g.Dead b :=
    fun _ => mem_unreachable_iff_reaches hg
  have hnodup : (g.deadRegions g.reachability).flatten.Nodup :=
    g.deadRegions_perm.nodup_iff.mpr (g.unreachable_sorted.imp Nat.ne_of_lt)
  obtain ⟨hparts, hdisjoint⟩ := List.nodup_flatten.mp hnodup
  refine ⟨hdisjoint, hparts, fun b => ?_, fun region hregion => ?_⟩
  · rw [← hdead, ← g.deadRegions_perm.mem_iff, List.mem_flatten]
  · obtain ⟨head, rest, heq, _, hleads⟩ := Search.exists_head_of_mem_regions hregion
    refine ⟨head, rest, heq, fun b hb => ?_⟩
    exact Relation.ReflTransGen.mono (fun a c hs => ⟨hs.1, (hdead c).mp hs.2⟩) head b (hleads b hb)

theorem inRange_build {types : Subtyping} {body : Block} (hg : build types body = .ok g) :
    g.InRange := by
  obtain ⟨d, hd, rfl⟩ := exists_draft hg
  intro b hb e he
  obtain ⟨id, hid⟩ := Array.getElem?_of_mem hb
  exact edges_draft_lt hd hid he

end Graph

/-- The flow of a body is that of its graph. -/
theorem Flow.exists_graph {types : Subtyping} {body : Block} {flow : Flow}
    (h : Flow.build types body = .ok flow) :
    Graph.build types body = .ok flow.graph ∧ flow.reachability = flow.graph.reachability := by
  obtain ⟨g, hg, h⟩ := Except.of_bind_ok h
  cases h
  exact ⟨hg, rfl⟩

/-- What a partial function gives for the members of a list goes, one by one, with the members that
it is defined for. -/
theorem forall₂_filterMap {α β : Type} {R : α → β → Prop} {f : α → Option β} {p : α → Bool}
    (hp : ∀ a, p a = (f a).isSome) (hR : ∀ a b, f a = some b → R a b) (l : List α) :
    List.Forall₂ R (l.filter p) (l.filterMap f) := by
  induction l with
  | nil => exact .nil
  | cons a l ih =>
    cases hf : f a with
    | none =>
      rw [List.filterMap_cons_none hf, List.filter_cons_of_neg (by simp [hp, hf])]
      exact ih
    | some b =>
      rw [List.filterMap_cons_some hf, List.filter_cons_of_pos (by simp [hp, hf])]
      exact .cons (hR a b hf) ih

namespace UnreachableCode

/-- Whether a block has an element. -/
def hasElement (g : Graph) (id : BlockId) : Bool := (g.block? id).any (!·.isEmpty)

/-- The element is the first one of the first block in the list that has any. -/
def StartsWith (g : Graph) (region : List BlockId) (element : Element) : Prop :=
  ∃ before id after block, region = before ++ id :: after ∧ (∀ a ∈ before, hasElement g a = false) ∧
    g.block? id = some block ∧ block.elements.head? = some element

/-- The report is about the region: it is made at the region's first element. -/
def Reports (c : MethodContext) (g : Graph) (region : List BlockId) (report : Diagnostic) : Prop :=
  report.ruleId = info.id ∧ ∃ element, StartsWith g region element ∧
    report.start = c.position (some element.span)

variable {g : Graph} {region : List BlockId}

theorem hasElement_eq (g : Graph) (id : BlockId) :
    hasElement g id = ((g.block? id).bind (·.elements.head?)).isSome := by
  unfold hasElement BasicBlock.isEmpty
  cases g.block? id with
  | none => rfl
  | some b => cases hb : b.elements <;> simp [hb]

theorem startsWith_of_firstElement? {element : Element}
    (h : firstElement? g region = some element) :
    StartsWith g region element := by
  obtain ⟨before, id, after, hregion, hfirst, hbefore⟩ := List.findSome?_eq_some_iff.mp h
  obtain ⟨block, hblock, hhead⟩ := Option.bind_eq_some_iff.mp hfirst
  refine ⟨before, id, after, block, hregion, fun a ha => ?_, hblock, hhead⟩
  rw [hasElement_eq, hbefore a ha, Option.isSome_none]

/-- A region is reported exactly when one of its blocks has an element. -/
theorem isSome_report? (c : MethodContext) (g : Graph) (region : List BlockId) :
    (report? c g region).isSome = region.any (hasElement g) := by
  rw [report?, Option.isSome_map, firstElement?, List.isSome_findSome?]
  exact congrArg (List.any region) (funext fun id => (hasElement_eq g id).symm)

theorem report?_eq_none_iff {c : MethodContext} :
    report? c g region = none ↔ ∀ id ∈ region, ¬ hasElement g id = true := by
  rw [← Option.not_isSome_iff_eq_none, isSome_report?, List.any_eq_true]
  simp only [not_exists, not_and]

/-- A report is placed at the first element of its region. -/
theorem reports_of_report? {c : MethodContext} {report : Diagnostic}
    (h : report? c g region = some report) :
    Reports c g region report := by
  obtain ⟨element, helement, rfl⟩ := Option.map_eq_some_iff.mp h
  exact ⟨rfl, element, startsWith_of_firstElement? helement, rfl⟩

/-- The regions divide the dead blocks into parts that hang together. There is one report for each
region with an element, in the same order and made at its first element. So there is none if and
only if a way from the entry leads to every block that has an element. -/
theorem check_deadRegions {types : Subtyping} {body : Block} {flow : Flow}
    (hflow : Flow.build types body = .ok flow) (c : MethodContext) (hc : c.flow = some flow) :
    flow.graph.Partitions flow.deadRegions ∧
      List.Forall₂ (Reports c flow.graph) (flow.deadRegions.filter (·.any (hasElement flow.graph)))
        (rule.check c) ∧
      (rule.check c = [] ↔ ∀ id, hasElement flow.graph id = true →
        flow.graph.Reaches Graph.entry id) := by
  obtain ⟨hg, hreach⟩ := Flow.exists_graph hflow
  have hparts : flow.graph.Partitions flow.deadRegions := by
    rw [Flow.deadRegions, hreach]
    exact Graph.partitions_deadRegions (Graph.inRange_build hg)
  have hcheck : rule.check c = flow.deadRegions.filterMap (report? c flow.graph) := by
    simp only [rule, hc]
  rw [hcheck]
  refine ⟨hparts, forall₂_filterMap (fun region => (isSome_report? c flow.graph region).symm)
    (fun _ _ => reports_of_report?) _, ?_⟩
  rw [List.filterMap_eq_nil_iff]
  constructor
  · intro hnone id hid
    -- A dead block is in some region, and with an element in it that region is reported.
    refine Classical.byContradiction fun hnot => ?_
    obtain ⟨block, hblock, _⟩ := (Option.any_eq_true _ _).mp hid
    obtain ⟨region, hregion, hmem⟩ := (hparts.covers id).mpr ⟨Graph.lt_size_of_block? hblock, hnot⟩
    exact report?_eq_none_iff.mp (hnone region hregion) id hmem hid
  · intro hall region hregion
    refine report?_eq_none_iff.mpr fun id hmem hid => ?_
    exact ((hparts.covers id).mp ⟨region, hregion, hmem⟩).2 (hall id hid)

/-- Behind a `return`, a call and a loop without end. Nothing leads to the block after the loop. -/
def endlessLoop : Block where
  stmts :=
    [.returnStmt none {}, .expr (.call none "x" [] [] {}) {}, .forStmt [] none [] (.empty {}) {}]
  span := {}

/-- The call and the loop are a region with one report, and the block after the loop is a region
with none. -/
theorem check_deadRegions_endlessLoop :
    ∃ flow c, Flow.build ClassHierarchy.javaLang.subtyping endlessLoop = .ok flow ∧
      c.flow = some flow ∧
      flow.graph.Partitions flow.deadRegions ∧ flow.deadRegions = [[2, 3, 4], [5]] ∧
      List.Forall₂ (Reports c flow.graph) [[2, 3, 4]] (rule.check c) ∧
      ∃ id, hasElement flow.graph id = true ∧ ¬ flow.graph.Reaches Graph.entry id := by
  have hfacts : (Flow.build ClassHierarchy.javaLang.subtyping endlessLoop).toOption.map (fun flow =>
      (flow.deadRegions, flow.deadRegions.filter (·.any (hasElement flow.graph)))) =
      some ([[2, 3, 4], [5]], [[2, 3, 4]]) := by
    decide +kernel
  cases hflow : Flow.build ClassHierarchy.javaLang.subtyping endlessLoop with
  | error failure =>
    rw [hflow] at hfacts
    exact nomatch hfacts
  | ok flow =>
    rw [hflow] at hfacts
    obtain ⟨hregions, hfilter⟩ : _ ∧ _ := by simpa only [Prod.mk.injEq] using Option.some.inj hfacts
    let c : MethodContext := ⟨"Loop.java", { name := "run" }, endlessLoop, some flow, {}⟩
    obtain ⟨hparts, hreports, hsilent⟩ := check_deadRegions hflow c rfl
    rw [hfilter] at hreports
    refine ⟨flow, c, rfl, rfl, hparts, hregions, hreports, ?_⟩
    refine Classical.byContradiction fun hnone => ?_
    have hempty := hsilent.mpr fun id hid => Classical.byContradiction fun hnot =>
      hnone ⟨id, hid, hnot⟩
    rw [hempty] at hreports
    exact nomatch hreports

end UnreachableCode

end MethodFlow
