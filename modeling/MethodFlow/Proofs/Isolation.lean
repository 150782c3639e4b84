import Mathlib.Data.List.Perm.Basic
import Mathlib.Data.Prod.Lex
import Mathlib.Data.String.Basic
import MethodFlow.Lint.Engine

/-!
# Methods are analysed one by one

The reports about a file are those about its methods, put in order by their keys: line, column,
rule. Reports with the same key stay in the order of the methods. So the methods can come in any
order, be replaced or be removed, and what is reported about one of them is what is reported when it
is alone in the file.

Sorting is followed report by report. A report that is put in front of a list comes, in the sorted
list, right after all with smaller keys and before all others (`Diagnostic.exists_sort_cons`). That
sorting is stable, and that a part of a list becomes a part of the sorted list, follows by induction
on the list.

Main result: `Engine.analyze_isolated`.
-/

namespace MethodFlow

namespace Diagnostic

variable {d d' : Diagnostic} {ds ds' : List Diagnostic}

/-- What reports are put in order by. -/
def key (d : Diagnostic) : ℕ ×ₗ ℕ ×ₗ String :=
    toLex (d.start.line, toLex (d.start.column, d.ruleId))

/-- Diagnostics are ordered by their keys. -/
theorem notAfter_iff : d.notAfter d' = true ↔ d.key ≤ d'.key := by
  simp only [notAfter, key, Prod.Lex.toLex_le_toLex, Bool.or_eq_true, Bool.and_eq_true,
    decide_eq_true_eq, beq_iff_eq]

/-! ## Sorting -/

theorem notAfter_trans (a b c : Diagnostic) (hab : a.notAfter b = true)
    (hbc : b.notAfter c = true) :
    a.notAfter c = true :=
  notAfter_iff.mpr (le_trans (notAfter_iff.mp hab) (notAfter_iff.mp hbc))

theorem notAfter_total (a b : Diagnostic) : (a.notAfter b || b.notAfter a) = true := by
  rw [Bool.or_eq_true, notAfter_iff, notAfter_iff]
  exact le_total a.key b.key

/-- Sorting puts the keys in order. -/
theorem pairwise_sort (ds : List Diagnostic) : (sort ds).Pairwise fun d d' => d.key ≤ d'.key :=
  (List.pairwise_mergeSort notAfter_trans notAfter_total ds).imp notAfter_iff.mp

/-- A report in front of a list comes after those with smaller keys and before the others. -/
theorem exists_sort_cons (d : Diagnostic) (ds : List Diagnostic) :
    ∃ smaller others, sort (d :: ds) = smaller ++ d :: others ∧ sort ds = smaller ++ others ∧
      (∀ s ∈ smaller, s.key < d.key) ∧ ∀ o ∈ others, d.key ≤ o.key := by
  obtain ⟨smaller, others, hcons, hds, hsmaller⟩ :=
    List.mergeSort_cons notAfter_trans notAfter_total d ds
  refine ⟨smaller, others, hcons, hds, fun s hs => ?_, ?_⟩
  · have hnot := hsmaller s hs
    rw [Bool.not_eq_true', ← Bool.not_eq_true, notAfter_iff] at hnot
    exact lt_of_not_ge hnot
  · have hsorted := pairwise_sort (d :: ds)
    rw [sort, hcons, List.pairwise_append] at hsorted
    exact (List.pairwise_cons.mp hsorted.2.1).1

/-- The reports behind a first one are cut in two by its key. -/
theorem sort_cons (d : Diagnostic) (ds : List Diagnostic) :
    sort (d :: ds) = (sort ds).filter (·.key < d.key) ++ d :: (sort ds).filter (d.key ≤ ·.key) := by
  obtain ⟨smaller, others, hcons, hds, hsmaller, hothers⟩ := exists_sort_cons d ds
  rw [hcons, hds]
  simp only [List.filter_append]
  rw [List.filter_eq_self.mpr, List.filter_eq_nil_iff.mpr, List.filter_eq_nil_iff.mpr,
    List.filter_eq_self.mpr]
  all_goals grind

/-- Reports with the same key stay as they were. -/
theorem filter_sort (ds : List Diagnostic) (k : ℕ ×ₗ ℕ ×ₗ String) :
    (sort ds).filter (·.key = k) = ds.filter (·.key = k) := by
  induction ds with
  | nil => rw [sort, List.mergeSort_nil]
  | cons d ds ih =>
    obtain ⟨smaller, others, hcons, hds, hsmaller, -⟩ := exists_sort_cons d ds
    rw [hds, List.filter_append] at ih
    rw [hcons, List.filter_append]
    by_cases hk : d.key = k
    · -- What has a smaller key is not looked for, so nothing that is comes before the report.
      have hnone : smaller.filter (·.key = k) = [] :=
        List.filter_eq_nil_iff.mpr fun s hs => by
          rw [decide_eq_true_eq]
          exact (hk ▸ hsmaller s hs).ne
      rw [hnone, List.nil_append] at ih ⊢
      rw [List.filter_cons_of_pos (by simpa using hk),
        List.filter_cons_of_pos (by simpa using hk), ih]
    · rw [List.filter_cons_of_neg (by simpa using hk),
        List.filter_cons_of_neg (by simpa using hk), ih]

/-- Sorting more reports leaves those that were there in the same order. -/
theorem sort_sublist_sort (h : ds.Sublist ds') : (sort ds).Sublist (sort ds') := by
  induction h with
  | slnil => exact List.Sublist.refl _
  | cons d _ ih =>
    obtain ⟨smaller, others, hcons, hds, -, -⟩ := exists_sort_cons d _
    rw [hcons]
    exact ih.trans (hds ▸ (List.sublist_cons_self d others).append_left smaller)
  | @cons_cons ds ds' d _ ih =>
    -- Both lists are cut by the key of the report.
    rw [sort_cons, sort_cons]
    exact (ih.filter _).append ((ih.filter _).cons_cons d)

/-- Only the keys decide in which order they come. -/
theorem map_key_sort (h : ds.Perm ds') : (sort ds).map key = (sort ds').map key := by
  have hsorted (ds : List Diagnostic) : ((sort ds).map key).Pairwise (· ≤ ·) :=
    List.pairwise_map.mpr (pairwise_sort ds)
  have hperm := (perm_sort ds).trans (h.trans (perm_sort ds').symm)
  exact (hperm.map key).eq_of_pairwise (fun _ _ _ _ => le_antisymm) (hsorted ds) (hsorted ds')

end Diagnostic

/-! ## Who reports -/

theorem UnreachableCode.ruleId_of_report? {c : MethodContext} {g : Graph} {region : List BlockId}
    {d : Diagnostic} (h : report? c g region = some d) : d.ruleId = info.id := by
  obtain ⟨element, -, rfl⟩ := Option.map_eq_some_iff.mp h
  rfl

theorem RedundantJump.ruleId_of_report? {c : MethodContext} {g : Graph} {id : BlockId}
    {d : Diagnostic} (h : report? c g id = some d) : d.ruleId = info.id := by
  obtain ⟨b, -, h⟩ := Option.bind_eq_some_iff.mp h
  obtain ⟨word, -, h⟩ := Option.bind_eq_some_iff.mp h
  obtain ⟨-, h⟩ := Option.ite_none_right_eq_some.mp h
  cases h
  unfold report
  split
  · split <;> rfl
  · rfl

/-- Every report of a built-in rule carries the identifier of the rule. -/
theorem Rule.ruleId_of_mem_check {rule : Rule} (hrule : rule ∈ Rule.builtin) {c : MethodContext}
    {d : Diagnostic} (hd : d ∈ rule.check c) : d.ruleId = rule.info.id := by
  simp only [Rule.builtin, List.mem_cons, List.not_mem_nil, or_false] at hrule
  obtain rfl | rfl | rfl | rfl | rfl := hrule
  · simp only [UnreachableCode.rule] at hd
    split at hd
    · cases hd
    · obtain ⟨region, -, hd⟩ := List.mem_filterMap.mp hd
      exact UnreachableCode.ruleId_of_report? hd
  · simp only [MaxComplexity.rule] at hd
    split at hd
    · cases hd
    · split at hd
      · cases hd
      · rw [List.mem_singleton.mp hd]
        rfl
  · simp only [MaxDepth.rule] at hd
    split at hd
    · cases hd
    · rw [List.mem_singleton.mp hd]
      rfl
  · simp only [RedundantJump.rule] at hd
    split at hd
    · cases hd
    · obtain ⟨id, -, hd⟩ := List.mem_filterMap.mp hd
      exact RedundantJump.ruleId_of_report? hd
  · simp only [BrainMethod.rule] at hd
    split at hd
    · cases hd
    · split at hd
      · rw [List.mem_singleton.mp hd]
        rfl
      · cases hd

namespace Registry

variable {r : Registry} {c : MethodContext} {d : Diagnostic}

/-- Every report stems from a rule that is asked, up to its severity. -/
theorem exists_of_mem_run (hd : d ∈ r.run c) :
    ∃ rule ∈ r.rules, r.applies c rule = true ∧ ∃ found ∈ rule.check c,
      d.ruleId = found.ruleId := by
  obtain ⟨rule, hrule, hd⟩ := List.mem_flatMap.mp hd
  obtain ⟨hmem, happlies⟩ := List.mem_filter.mp hrule
  refine ⟨rule, hmem, happlies, ?_⟩
  rw [runRule] at hd
  split at hd
  · obtain ⟨found, hfound, rfl⟩ := List.mem_map.mp hd
    exact ⟨found, hfound, rfl⟩
  · exact ⟨d, hd, rfl⟩

/-- Only rules that need no flow are asked where there is none. -/
theorem flowSensitive_of_applies (hflow : c.flow = none) {rule : Rule}
    (h : r.applies c rule = true) :
    rule.info.flowSensitive = false := by
  rw [applies, hflow, Bool.and_eq_true] at h
  simpa using h.2

end Registry

namespace Engine

variable {e : Engine} {file : String}

/-- What is reported about a method is what is reported about a file with nothing else in it. -/
theorem perm_analyze_singleton (m : Method) :
    (e.analyze ⟨file, [m]⟩).Perm (e.checkMethod file m) := by
  rw [analyze, List.flatMap_singleton]
  exact Diagnostic.perm_sort _

/-- Methods in between only add their own diagnostics. -/
theorem perm_analyze_between (before between after : List Method) :
    (e.analyze ⟨file, before ++ between ++ after⟩).Perm
      (e.analyze ⟨file, before ++ after⟩ ++ e.analyze ⟨file, between⟩) := by
  have hmethods : (before ++ between ++ after).Perm (before ++ after ++ between) := by
    rw [List.append_assoc, List.append_assoc]
    exact List.perm_append_comm.append_left before
  have hfound : ((before ++ between ++ after).flatMap (e.checkMethod file)).Perm
      ((before ++ after).flatMap (e.checkMethod file) ++ between.flatMap (e.checkMethod file)) := by
    rw [← List.flatMap_append]
    exact hmethods.flatMap_right _
  exact (Diagnostic.perm_sort _).trans
    (hfound.trans ((Diagnostic.perm_sort _).append (Diagnostic.perm_sort _)).symm)

/-- The reports about the methods of a file are those about each of them, in the order of the
methods where the keys are the same. -/
theorem filter_analyze (methods : List Method) (k : ℕ ×ₗ ℕ ×ₗ String) :
    (e.analyze ⟨file, methods⟩).filter (·.key = k) =
      methods.flatMap fun m => (e.analyze ⟨file, [m]⟩).filter (·.key = k) := by
  simp only [analyze, Diagnostic.filter_sort, List.filter_flatMap, List.flatMap_singleton]

/-- A method whose flow cannot be drawn is looked at by those rules alone that need no flow. -/
theorem flowSensitive_of_build_error {settings : Settings} {m : Method} {body : Block}
    {failure : BuildFailure} (hbody : m.body = some body)
    (hbuild : Flow.build settings.hierarchy.subtyping body = .error failure)
    {d : Diagnostic} (hd : d ∈ (ofSettings settings).analyze ⟨file, [m]⟩) :
    ∃ rule ∈ Rule.builtin, rule.info.flowSensitive = false ∧ d.ruleId = rule.info.id := by
  rw [(perm_analyze_singleton m).mem_iff, checkMethod, hbody] at hd
  have hflow : ((ofSettings settings).context file m body).flow = none := by
    show (Flow.build settings.hierarchy.subtyping body).toOption = none
    rw [hbuild]
    rfl
  obtain ⟨rule, hrule, happlies, found, hfound, hid⟩ := Registry.exists_of_mem_run hd
  rw [rules_ofSettings] at hrule
  exact ⟨rule, hrule, Registry.flowSensitive_of_applies hflow happlies,
    hid.trans (Rule.ruleId_of_mem_check hrule hfound)⟩

/-- Methods are analysed in isolation. The reports about a file are in the order of their keys, and
that order of keys is the same for the methods in any order; reports with the same key come in the
order of the methods. Each method adds what is reported when it is alone in the file, so methods can
be put in, replaced and taken out without a change to what is reported about the others. A method
whose flow cannot be drawn adds reports of rules that need no flow. -/
theorem analyze_isolated (settings : Settings) (file : String) (methods : List Method) :
    let reports := fun methods => (ofSettings settings).analyze ⟨file, methods⟩
    (∀ methods', methods.Perm methods' →
      (reports methods).Perm (reports methods') ∧ (reports methods).map (·.key) =
      (reports methods').map (·.key)) ∧
    (reports methods).Pairwise (fun d d' => d.key ≤ d'.key) ∧
    (∀ key, (reports methods).filter (·.key = key) = methods.flatMap fun m =>
      (reports [m]).filter (·.key = key)) ∧
    (reports methods).Perm (methods.flatMap fun m => reports [m]) ∧
    (∀ m ∈ methods, ∀ body failure, m.body = some body →
      Flow.build settings.hierarchy.subtyping body = .error failure →
      ∀ d ∈ reports [m], ∃ rule ∈ Rule.builtin, rule.info.flowSensitive = false ∧
        d.ruleId = rule.info.id) ∧
    ∀ before between after,
      (reports (before ++ after)).Sublist (reports (before ++ between ++ after)) ∧
      (reports (before ++ between ++ after)).Perm
      (reports (before ++ after) ++ reports between) := by
  refine ⟨fun methods' h => ⟨?_, ?_⟩, Diagnostic.pairwise_sort _,
    filter_analyze methods, ?_, ?_, ?_⟩
  · exact (Diagnostic.perm_sort _).trans ((h.flatMap_right _).trans (Diagnostic.perm_sort _).symm)
  · exact Diagnostic.map_key_sort (h.flatMap_right _)
  · exact (Diagnostic.perm_sort _).trans (List.Perm.flatMap_left _ fun m _ =>
      (perm_analyze_singleton m).symm)
  · intro m _ body failure hbody hbuild d hd
    exact flowSensitive_of_build_error hbody hbuild hd
  · intro before between after
    refine ⟨Diagnostic.sort_sublist_sort ?_, ?_⟩
    · simp only [List.flatMap_append]
      exact (List.sublist_append_left _ _).append_right _
    · exact perm_analyze_between before between after

/-- A choice with a jump out of nothing, so that no flow can be drawn. -/
def jumpingNowhere : Block where
  stmts := [.ifStmt (.name "c" {}) (.breakStmt none {}) none {}]
  span := {}

def unfit (name : String) : Method where
  name := name
  body := some jumpingNowhere

def choosing : Method where
  name := "choosing"
  body := some { stmts := [.ifStmt (.name "c" {}) (.empty {}) none {}], span := {} }

/-- Every choice is one too many. -/
def strict : Settings where
  thresholds := { complexity := 1, depth := 0 }

/-- Two methods without a flow and, between them, one with a report that needs a flow. -/
theorem analyze_isolated_sharedKey :
    let reports := fun methods => (ofSettings strict).analyze ⟨"A.java", methods⟩
    let methods := [unfit "f", choosing, unfit "g"]
    ((reports methods).filter (·.key = toLex (1, toLex (1, "Q011")))).map (·.message) =
      ["Method 'f' has a nesting depth of 1 (max: 0)",
        "Method 'choosing' has a nesting depth of 1 (max: 0)",
          "Method 'g' has a nesting depth of 1 (max: 0)"] ∧
    ((reports methods).filter (·.key = toLex (1, toLex (1, "Q010")))).map (·.message) =
      ["Method 'choosing' has a cyclomatic complexity of 2 (max: 1)"] ∧
    (reports methods).map (·.key) = (reports [choosing, unfit "f", unfit "g"]).map (·.key) ∧
    (∀ d ∈ reports [unfit "f"], ∃ rule ∈ Rule.builtin, rule.info.flowSensitive = false ∧
      d.ruleId = rule.info.id) ∧
    (reports [unfit "f", unfit "g"]).Sublist (reports methods) := by
  obtain ⟨hperm, -, hkey, -, hfails, hbetween⟩ :=
    analyze_isolated strict "A.java" [unfit "f", choosing, unfit "g"]
  refine ⟨?_, ?_, (hperm _ (List.Perm.swap _ _ _)).2,
    hfails (unfit "f") List.mem_cons_self jumpingNowhere (.jumpOutsideTarget .breaking 0) rfl rfl,
    (hbetween [unfit "f"] [choosing] [unfit "g"]).1⟩
  all_goals
    rw [hkey]
    simp only [analyze, Diagnostic.filter_sort]
    decide +kernel

end Engine

end MethodFlow
