import Mathlib.Data.List.Pairwise
import MethodFlow.Lint.Registry

/-!
# What a registry remembers

A registry is built up by registering rules and by configuring it, in any order and any number of
times. Configuring leaves nothing of what was configured before (`Registry.configure_congr`),
neither in the lists it clears nor in the switches it overwrites. So after any steps the registry is
the one that has the same rules and took in the last settings alone (`Registry.foldl_step`), and a
rule that is registered late is treated as all others.

What the registry then says of a rule is what those settings say of it (`Registry.runs_configure`,
`Registry.lookup_severities_configure`). A rule is asked about by its identifier or by its name, and
identifiers are looked up first. Where no rule can be taken for another, both ways lead to the rule
itself (`Registry.isEnabled_id`, `Registry.isEnabled_name`).

Main result: `Registry.replay_settled`.
-/

namespace MethodFlow

namespace RuleSettings

/-- Whether settings let the rules of a category run. -/
def allows (s : RuleSettings) : Category → Bool
  | .quality => s.quality.getD true
  | .complexity => s.complexity.getD true

/-- Whether settings let a rule run: it is enabled, or its category is on and it is not disabled. -/
def runs (s : RuleSettings) (info : RuleInfo) : Bool :=
  info.isAmong s.enabled || (s.allows info.category && !info.isAmong s.disabled)

end RuleSettings

/-- An assigned severity is found under its reference, and every other reference keeps what it
had. -/
theorem Severity.lookup_assign (severities : List (String × Severity)) (ref other : String)
    (severity : Severity) :
    (assign severities ref severity).lookup other =
      if other = ref then some severity else severities.lookup other := by
  unfold assign
  rw [List.lookup_cons]
  split
  · rename_i h
    rw [if_pos (eq_of_beq h)]
  · rename_i h
    have hne : other ≠ ref := by simpa using h
    rw [if_neg hne]
    induction severities with
    | nil => rfl
    | cons e severities ih =>
      rw [List.filter_cons]
      split
      · rw [List.lookup_cons, List.lookup_cons, ih]
      · -- The entry that is dropped belongs to the reference, which is not the one looked up.
        rename_i he
        have he : e.1 = ref := by simpa using he
        rw [ih, List.lookup_cons, he, beq_false_of_ne hne]

/-- Where the first entry for a reference is assigned last, looking up finds that entry. -/
theorem Severity.lookup_foldr_assign (entries : List (String × Severity)) (ref : String) :
    (entries.foldr (fun e severities => assign severities e.1 e.2) []).lookup ref =
      entries.lookup ref := by
  induction entries with
  | nil => rfl
  | cons e entries ih =>
    rw [List.foldr_cons, lookup_assign, ih, List.lookup_cons]
    by_cases h : ref = e.1
    · rw [if_pos h, beq_iff_eq.mpr h]
    · rw [if_neg h, beq_false_of_ne h]

namespace Registry

/-- What is done to a registry. -/
inductive Step where
  | register (rule : Rule)
  | configure (settings : RuleSettings)

namespace Step

def rule? : Step → Option Rule
  | register rule => some rule
  | configure _ => none

def settings? : Step → Option RuleSettings
  | register _ => none
  | configure settings => some settings

end Step

def step (r : Registry) : Step → Registry
  | .register rule => r.register rule
  | .configure settings => r.configure settings

/-- A new registry after some steps. -/
def replay (steps : List Step) : Registry := steps.foldl step {}

/-- The rules that are registered, in order. -/
def registered (steps : List Step) : List Rule := steps.filterMap Step.rule?

/-- The settings that are configured last. -/
def lastSettings? (steps : List Step) : Option RuleSettings :=
    (steps.filterMap Step.settings?).getLast?

/-- The rules are registered first, and then the last settings are configured, if there are any. -/
def settled (steps : List Step) : List Step :=
  (registered steps).map .register ++ (lastSettings? steps).toList.map .configure

/-! ## What configuring leaves -/

/-- Configuring resets a registry: two registries with the same rules come out the same, whatever
else they held. -/
theorem configure_congr {r r' : Registry} (h : r.rules = r'.rules) (settings : RuleSettings) :
    r.configure settings = r'.configure settings := by
  rw [configure_eq, configure_eq, h]

/-- A rule that is registered after configuring is treated as one registered before. -/
theorem register_configure (r : Registry) (settings : RuleSettings) (rule : Rule) :
    (r.configure settings).register rule = (r.register rule).configure settings := by
  rw [configure_eq, configure_eq]
  rfl

theorem isAmong_distinct (info : RuleInfo) (refs : List String) :
    info.isAmong (distinct refs) = info.isAmong refs := by
  have hcontains : ∀ ref, (distinct refs).contains ref = refs.contains ref := by
    intro ref
    rw [Bool.eq_iff_iff, List.contains_iff_mem, List.contains_iff_mem, distinct, mem_appendAllNew]
    simp
  unfold RuleInfo.isAmong
  rw [hcontains, hcontains]

/-- A configured registry runs the rules that the settings let run. -/
theorem runs_configure (r : Registry) (settings : RuleSettings) (info : RuleInfo) :
    (r.configure settings).runs info = settings.runs info := by
  rw [configure_eq, runs, RuleSettings.runs, isAmong_distinct, isAmong_distinct]
  cases info.category <;> rfl

/-- Severities after configuring are those of the settings, whatever was set before. -/
theorem lookup_severities_configure (r : Registry) (settings : RuleSettings) (ref : String) :
    (r.configure settings).severities.lookup ref = settings.severity.lookup ref := by
  rw [configure_eq]
  exact Severity.lookup_foldr_assign settings.severity ref

/-! ## Rules and settings after some steps -/

theorem registerAll_eq (rules : List Rule) (r : Registry) :
    r.registerAll rules = { r with rules := r.rules ++ rules } := by
  unfold registerAll
  induction rules generalizing r with
  | nil => simp
  | cons rule rules ih =>
    rw [List.foldl_cons, ih, register]
    simp

/-- Rules may be registered before or after configuring. -/
theorem registerAll_configure (r : Registry) (settings : RuleSettings) (rules : List Rule) :
    (r.configure settings).registerAll rules = (r.registerAll rules).configure settings := by
  unfold registerAll
  induction rules generalizing r with
  | nil => rfl
  | cons rule rules ih => rw [List.foldl_cons, register_configure, ih, List.foldl_cons]

/-- Some steps amount to registering their rules and then configuring the last of their settings.
The induction is on the steps: settings move behind the rules registered later, where the settings
configured later reset them. -/
theorem foldl_step (steps : List Step) (r : Registry) :
    steps.foldl step r =
      (lastSettings? steps).elim (r.registerAll (registered steps))
        (r.registerAll (registered steps)).configure := by
  induction steps generalizing r with
  | nil => rfl
  | cons s steps ih =>
    rw [List.foldl_cons, ih]
    cases s with
    | register rule => rfl
    | configure settings =>
      have hlast : lastSettings? (.configure settings :: steps) =
          some ((lastSettings? steps).getD settings) := by
        have hsettings : (Step.configure settings).settings? = some settings := rfl
        rw [lastSettings?, List.filterMap_cons_some hsettings, List.getLast?_cons, lastSettings?]
      have hrules : registered (.configure settings :: steps) = registered steps := rfl
      rw [hlast, hrules, step, registerAll_configure]
      cases lastSettings? steps with
      | none => rfl
      | some later =>
        refine configure_congr ?_ later
        rw [configure_eq]

/-- Steps leave the rules that they registered, in order. -/
theorem rules_replay (steps : List Step) : (replay steps).rules = registered steps := by
  rw [replay, foldl_step, registerAll_eq]
  cases lastSettings? steps with
  | none => rfl
  | some settings => rw [Option.elim_some, configure_eq]; rfl

/-- The registry after some steps runs the rules that the last settings let run. A new registry and
one configured with no settings at all run the same rules. -/
theorem runs_replay (steps : List Step) (info : RuleInfo) :
    (replay steps).runs info = ((lastSettings? steps).getD {}).runs info := by
  rw [replay, foldl_step]
  cases lastSettings? steps with
  | none =>
    rw [Option.elim_none, registerAll_eq, runs, Option.getD_none, RuleSettings.runs]
    cases info.category <;> rfl
  | some settings => exact runs_configure _ settings info

/-- Severities after some steps are those of the last settings. -/
theorem lookup_severities_replay (steps : List Step) (ref : String) :
    (replay steps).severities.lookup ref = ((lastSettings? steps).getD {}).severity.lookup ref := by
  rw [replay, foldl_step]
  cases lastSettings? steps with
  | none => rw [Option.elim_none, registerAll_eq]; rfl
  | some settings => exact lookup_severities_configure _ settings ref

theorem registered_settled (steps : List Step) : registered (settled steps) = registered steps := by
  unfold settled
  rw [registered, List.filterMap_append]
  simp [Function.comp_def, Step.rule?, List.filterMap_map]

theorem lastSettings?_settled (steps : List Step) :
    lastSettings? (settled steps) = lastSettings? steps := by
  unfold settled
  rw [lastSettings?, List.filterMap_append]
  cases lastSettings? steps <;> simp [Function.comp_def, Step.settings?, List.filterMap_map]

/-- Settings that are replaced later leave no trace. -/
theorem replay_eq_replay_settled (steps : List Step) : replay steps = replay (settled steps) := by
  unfold replay
  rw [foldl_step, foldl_step, registered_settled, lastSettings?_settled]

end Registry

/-! ## Rules that cannot be taken for each other -/

namespace RuleInfo

/-- Neither rule has an identifier or a name of the other. -/
structure Apart (a b : RuleInfo) : Prop where
  ids : a.id ≠ b.id
  names : a.name ≠ b.name
  name_id : a.name ≠ b.id
  id_name : a.id ≠ b.name

theorem Apart.symm {a b : RuleInfo} (h : a.Apart b) : b.Apart a :=
  ⟨h.ids.symm, h.names.symm, h.id_name.symm, h.name_id.symm⟩

instance (a b : RuleInfo) : Decidable (a.Apart b) :=
  decidable_of_iff (a.id ≠ b.id ∧ a.name ≠ b.name ∧ a.name ≠ b.id ∧ a.id ≠ b.name)
    ⟨fun ⟨hi, hn, hni, hin⟩ => ⟨hi, hn, hni, hin⟩, fun h => ⟨h.ids, h.names, h.name_id, h.id_name⟩⟩

end RuleInfo

namespace Registry

/-- No rule can be taken for another one. -/
def Unambiguous (rules : List Rule) : Prop := rules.Pairwise fun rule other =>
    rule.info.Apart other.info

instance (rules : List Rule) : Decidable (Unambiguous rules) :=
  inferInstanceAs (Decidable (rules.Pairwise fun rule other => rule.info.Apart other.info))

variable {r : Registry} {rule : Rule}

/-- Two rules of which one has an identifier or a name of the other are the same. -/
theorem Unambiguous.eq (h : Unambiguous r.rules) {other : Rule} (hother : other ∈ r.rules)
    (hrule : rule ∈ r.rules) (hnot : ¬ other.info.Apart rule.info) : other = rule := by
  have hsymm : Std.Symm fun rule other : Rule => rule.info.Apart other.info :=
    ⟨fun _ _ => RuleInfo.Apart.symm⟩
  exact Classical.byContradiction fun hne => hnot (List.Pairwise.forall h hother hrule hne)

theorem mem_of_find? (key : RuleInfo → String) {ref : String}
    (h : r.rules.find? (fun rule => key rule.info == ref) = some rule) : rule ∈ r.rules ∧
      key rule.info = ref := by
  have hkey := List.find?_some h
  exact ⟨List.mem_of_find?_eq_some h, eq_of_beq hkey⟩

/-- A key that rules apart from each other do not share leads to the rule that has it. -/
theorem Unambiguous.find?_eq (h : Unambiguous r.rules) (hrule : rule ∈ r.rules)
    (key : RuleInfo → String) (hkey : ∀ {a b : RuleInfo}, a.Apart b → key a ≠ key b) :
    r.rules.find? (fun other => key other.info == key rule.info) = some rule := by
  have hfound : (r.rules.find? fun other => key other.info == key rule.info).isSome :=
    List.find?_isSome.mpr ⟨rule, hrule, beq_self_eq_true _⟩
  obtain ⟨other, hother⟩ := Option.isSome_iff_exists.mp hfound
  obtain ⟨hmem, hsame⟩ := mem_of_find? key hother
  rw [hother, h.eq hmem hrule fun hapart => hkey hapart hsame]

/-- An identifier leads to the rule that has it. -/
theorem isEnabled_id (h : Unambiguous r.rules) (hrule : rule ∈ r.rules) :
    r.isEnabled rule.info.id = r.runs rule.info := by
  unfold isEnabled byId?
  rw [h.find?_eq hrule (·.id) RuleInfo.Apart.ids]
  rfl

/-- A name leads to the rule that has it: no other rule has it as its identifier. -/
theorem isEnabled_name (h : Unambiguous r.rules) (hrule : rule ∈ r.rules) :
    r.isEnabled rule.info.name = r.runs rule.info := by
  unfold isEnabled
  cases hid : r.byId? rule.info.name with
  | none =>
    unfold byName?
    rw [h.find?_eq hrule (·.name) RuleInfo.Apart.names]
    rfl
  | some other =>
    -- A rule may have its name for an identifier, so what is found here can be the rule itself.
    obtain ⟨hmem, hother⟩ := mem_of_find? (·.id) hid
    rw [h.eq hmem hrule fun hapart => hapart.id_name hother]
    rfl

/-! ## What is run -/

/-- The severity given to the identifier of a rule, else the one given to its name, else the
report's own. -/
theorem runRule_eq_map (c : MethodContext) (rule : Rule) :
    r.runRule c rule = (rule.check c).map fun d =>
      d.withSeverity (((r.severities.lookup rule.info.id).or
        (r.severities.lookup rule.info.name)).getD d.severity) := by
  unfold runRule severityFor?
  cases (r.severities.lookup rule.info.id).or (r.severities.lookup rule.info.name) with
  | some severity => rfl
  | none => exact (List.map_id _).symm

/-- A rule is asked about a method if it is enabled, by its identifier and by its name. -/
theorem filter_applies (h : Unambiguous r.rules) (c : MethodContext) :
    r.rules.filter (r.applies c) = r.rules.filter fun rule =>
      r.isEnabled rule.info.id && r.isEnabled rule.info.name &&
        (!rule.info.flowSensitive || c.flow.isSome) := by
  refine List.filter_congr fun rule hrule => ?_
  rw [isEnabled_id h hrule, isEnabled_name h hrule, Bool.and_self, applies]

/-- Asked by its identifier or by its name, a rule is enabled if the settings configured last let it
run. -/
theorem isEnabled_replay (steps : List Step) (h : Unambiguous (registered steps)) {rule : Rule}
    (hrule : rule ∈ registered steps) :
    (replay steps).isEnabled rule.info.id = ((lastSettings? steps).getD {}).runs rule.info ∧
      (replay steps).isEnabled rule.info.name = ((lastSettings? steps).getD {}).runs rule.info := by
  rw [← rules_replay] at h hrule
  rw [isEnabled_id h hrule, isEnabled_name h hrule, runs_replay]
  exact ⟨rfl, rfl⟩

/-- What a registry answers depends on the rules that were registered, in their order, and on the
settings that were configured last. If no rule can be taken for another, a rule is enabled if those
settings let it run, and running the registry gives the reports of the rules that are enabled, in
order of registration, with the severities that the settings give them. -/
theorem replay_settled (steps : List Step) :
    (∀ ref, (replay steps).isEnabled ref = (replay (settled steps)).isEnabled ref) ∧
      (∀ c, (replay steps).run c = (replay (settled steps)).run c) ∧
      (Unambiguous (registered steps) →
        (∀ rule ∈ registered steps,
          (replay steps).isEnabled rule.info.id = ((lastSettings? steps).getD {}).runs rule.info ∧
          (replay steps).isEnabled rule.info.name =
          ((lastSettings? steps).getD {}).runs rule.info) ∧
        ∀ c, (replay steps).run c =
          ((registered steps).filter fun rule =>
            (replay steps).isEnabled rule.info.id && (replay steps).isEnabled rule.info.name &&
              (!rule.info.flowSensitive || c.flow.isSome)).flatMap fun rule =>
                (rule.check c).map fun d =>
                  d.withSeverity (((((lastSettings? steps).getD {}).severity.lookup rule.info.id).or
                    (((lastSettings? steps).getD {}).severity.lookup rule.info.name)).getD
                      d.severity)) := by
  refine ⟨fun ref => by rw [← replay_eq_replay_settled],
    fun c => by rw [← replay_eq_replay_settled],
    fun hrules => ⟨fun rule hrule => isEnabled_replay steps hrules hrule, ?_⟩⟩
  intro c
  rw [← rules_replay] at hrules ⊢
  rw [run, filter_applies hrules, funext (runRule_eq_map c)]
  simp only [lookup_severities_replay]

/-- A rule that reports every method. -/
def alwaysReporting (id name : String) (category : Category) (flowSensitive : Bool) : Rule where
  info := { id, name, description := "", category, severity := .hint, flowSensitive }
  check c :=
    [{ ruleId := id, severity := .hint, message := name, file := c.file, start :=
      c.method.span.position }]

/-- Three rules that need no flow, one that does, and one with a single word for its identifier and
its name. The settings in force at the end enable a rule that they also disable, and one whose
category they switch off. Nothing is left of the others, which switch a category off, enable,
disable and make more serious what the last ones do not mention. -/
def reconfigured : List Step :=
  [.configure { disabled := ["late", "plain"], quality := some false },
    .register (alwaysReporting "R1" "first" .quality false),
    .register (alwaysReporting "R2" "second" .complexity false),
    .configure { enabled := ["R2"], severity := [("second", .error), ("R4", .error)] },
    .register (alwaysReporting "R3" "graph" .quality true),
    .register (alwaysReporting "R4" "plain" .quality false),
    .configure
      { enabled := ["R1", "late"]
        disabled := ["first"]
        complexity := some false
        severity := [("late", .info), ("first", .warning), ("R1", .error)] },
    .register (alwaysReporting "late" "late" .complexity false)]

/-- A method whose graph could not be built. -/
def flowless : MethodContext where
  file := "A.java"
  method := { name := "m", span := ⟨3, 1, 5, 2⟩ }
  body := ⟨[], {}⟩
  flow := none
  settings := {}

/-- The first settings leave no trace: not a severity, a switch or a list of rules. -/
theorem replay_settled_reconfigured :
    Unambiguous (registered reconfigured) ∧ (replay reconfigured).run flowless =
      [{ ruleId := "R1", severity := .error, message := "first", file :=
        "A.java", start := ⟨3, 1⟩ },
          { ruleId := "R4", severity := .hint, message := "plain", file :=
            "A.java", start := ⟨3, 1⟩ },
        { ruleId := "late", severity := .info, message := "late", file := "A.java", start :=
          ⟨3, 1⟩ }] :=
  ⟨by decide, (((replay_settled reconfigured).2.2 (by decide)).2 flowless).trans (by decide)⟩

end Registry

end MethodFlow
