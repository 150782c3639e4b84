import Mathlib.Data.List.Nodup
import MethodFlow.Settings.File

/-!
# Keys that are ignored

Two parts look at a settings document. One reads the settings: it asks for the values under certain
keys and never sees the others. The other warns: it lists the keys that are not known, of the
document and of the sections with a fixed set of fields. Each has its own lists of keys, and they
agree. A key that is warned about is not read: whatever is put there, the settings stay the same
(`Settings.not_reads_of_ignored`). And a key that is not read is warned about.

Reading takes the document as it is written, and warning takes the plain document (`Toml.plain?`),
in which a table that begins with a reserved key stands for a date. `Warning.Heard` says that the
plain document has the place that a warning is about. Where it has not, nothing is said about the
key: all warnings are lost if a table anywhere begins with the reserved key without the text of a
date under it (`Warning.silent_reserved`).

In a document without reserved keys every warning is heard (`Warning.Added.heard`).

Main result: `Settings.ignored_keys`.
-/

namespace MethodFlow

namespace Toml

/-! ## Lookups -/

/-- The keys of a table. -/
def keys (entries : List (String × Toml)) : List String := entries.map (·.1)

section Lookups

variable {entries front back : List (String × Toml)} {key name : String}

theorem lookup_filter {p : String × Toml → Bool} (h : ∀ value, p (name, value) = true) :
    (entries.filter p).lookup name = entries.lookup name := by
  induction entries with
  | nil => rfl
  | cons entry entries ih =>
    obtain ⟨key, value⟩ := entry
    by_cases hkey : name = key
    · subst hkey
      rw [List.filter_cons_of_pos (h value), List.lookup_cons_self, List.lookup_cons_self]
    · have hbeq : (name == key) = false := beq_false_of_ne hkey
      rw [List.filter_cons, List.lookup_cons, hbeq]
      split
      · rw [List.lookup_cons, hbeq, ih]
      · exact ih

theorem lookup_mapValues (f : String → Toml → Toml) :
    (entries.map fun entry => (entry.1, f entry.1 entry.2)).lookup name =
    (entries.lookup name).map (f name) := by
  induction entries with
  | nil => rfl
  | cons entry entries ih =>
    obtain ⟨key, value⟩ := entry
    by_cases hkey : name = key
    · subst hkey
      rw [List.map_cons, List.lookup_cons_self, List.lookup_cons_self]
      rfl
    · have hbeq : (name == key) = false := beq_false_of_ne hkey
      rw [List.map_cons, List.lookup_cons, List.lookup_cons, hbeq, ih]

theorem lookup_insert (h : name ≠ key) (value : Toml) :
    (front ++ (key, value) :: back).lookup name = (front ++ back).lookup name := by
  rw [List.lookup_append, List.lookup_append, List.lookup_cons, beq_false_of_ne h]

theorem lookup_of_not_mem (h : name ∉ keys front) (value : Toml) :
    (front ++ (name, value) :: back).lookup name = some value := by
  have hfront : front.lookup name = none := by
    rw [List.lookup_eq_none_iff]
    intro entry hentry
    exact bne_iff_ne.mpr fun he => h (he ▸ List.mem_map_of_mem hentry)
  rw [List.lookup_append, hfront, Option.none_or, List.lookup_cons_self]

end Lookups

/-! ## Changes to a table -/

/-- Changes the entries of a value that is a table. -/
def mapTable (change : List (String × Toml) → List (String × Toml)) : Toml → Toml
  | table entries => table (change entries)
  | value => value

/-- Puts a value at a path, in place of what was there, or removes what was there. All but the last
key of the path have to be there. -/
def put : List String → Option Toml → List (String × Toml) → List (String × Toml)
  | [], _, entries => entries
  | [key], value, entries => entries.filter (·.1 != key) ++ value.toList.map (key, ·)
  | key :: next :: path, value, entries =>
    entries.map fun entry =>
      (entry.1, if entry.1 == key then entry.2.mapTable (put (next :: path) value) else entry.2)

theorem lookup_put {key name : String} (h : name ≠ key) (value : Option Toml)
    (entries : List (String × Toml)) :
    (put [key] value entries).lookup name = entries.lookup name := by
  have hnew : (value.toList.map (key, ·)).lookup name = none := by
    cases value with
    | none => rfl
    | some value =>
      rw [Option.toList_some, List.map_singleton, List.lookup_cons, beq_false_of_ne h]; rfl
  have hkept : (entries.filter (·.1 != key)).lookup name = entries.lookup name :=
    lookup_filter fun _ => bne_iff_ne.mpr h
  rw [put, List.lookup_append, hkept, hnew, Option.or_none]

/-! ## Values with the same fields -/

/-- The values are equal, or they are tables with the same fields of the given names. -/
inductive Agrees (names : List String) : Toml → Toml → Prop
  | refl (value : Toml) : Agrees names value value
  | table {entries entries' : List (String × Toml)}
    (h : ∀ name ∈ names, entries.lookup name = entries'.lookup name) :
      Agrees names (table entries) (table entries')

theorem optionRel_refl {R : Toml → Toml → Prop} (h : ∀ value, R value value) (value : Option Toml) :
    Option.Rel R value value := by
  cases value with
  | none => exact .none
  | some value => exact .some (h value)

/-- Tables changed outside the named fields agree on these. -/
theorem agrees_mapTable {names : List String} {change : List (String × Toml) → List (String × Toml)}
    (h : ∀ entries, ∀ name ∈ names, entries.lookup name = (change entries).lookup name)
    (value : Toml) :
    Agrees names value (value.mapTable change) := by
  cases value with
  | table entries => exact .table (h entries)
  | _ => exact .refl _

theorem field?_congr {α : Type} {entries entries' : List (String × Toml)}
    {name : String} {value : α} {read : Toml → Option α} {R : Toml → Toml → Prop}
    (h : Option.Rel R (entries.lookup name) (entries'.lookup name))
    (hread : ∀ v v', R v v' → read v = read v') :
    field? entries name value read = field? entries' name value read := by
  unfold field?
  generalize entries.lookup name = v at h
  generalize entries'.lookup name = v' at h
  cases h with
  | none => rfl
  | some h => exact hread _ _ h

end Toml

/-! ## What settings depend on -/

open Toml (Agrees)

/-- Rule settings are read from their own fields only. -/
theorem RuleSettings.ofToml?_of_agrees {v v' : Toml} (h : Agrees RuleSettings.fields v v') :
    RuleSettings.ofToml? v = RuleSettings.ofToml? v' := by
  cases h with
  | refl => rfl
  | table h =>
    unfold RuleSettings.ofToml? Toml.fields? Toml.entries? Toml.field?
    simp only [h "enabled" (by decide), h "disabled" (by decide), h "severity" (by decide),
      h "quality" (by decide), h "complexity" (by decide), Option.bind_eq_bind, Option.bind_some]

theorem Thresholds.ofToml?_of_agrees {v v' : Toml} (h : Agrees Thresholds.fields v v') :
    Thresholds.ofToml? v = Thresholds.ofToml? v' := by
  cases h with
  | refl => rfl
  | table h =>
    unfold Thresholds.ofToml? Toml.fields? Toml.entries? Toml.field?
    simp only [h "max_complexity" (by decide), h "max_depth" (by decide), Option.bind_eq_bind,
      Option.bind_some]

theorem BrainLimits.ofToml?_of_agrees {v v' : Toml} (h : Agrees BrainLimits.fields v v') :
    BrainLimits.ofToml? v = BrainLimits.ofToml? v' := by
  cases h with
  | refl => rfl
  | table h =>
    unfold BrainLimits.ofToml? Toml.fields? Toml.entries? Toml.field?
    simp only [h "loc" (by decide), h "cyclomatic" (by decide), h "nesting" (by decide),
      h "variables" (by decide), Option.bind_eq_bind, Option.bind_some]

namespace Settings

/-- The documents have the same exceptions, and their other sections have the same fields. -/
structure Agree (entries entries' : List (String × Toml)) : Prop where
  checked : ∀ part ∈ Warning.checkedSections,
    Option.Rel (Agrees part.2) (entries.lookup part.1) (entries'.lookup part.1)
  exceptions : entries.lookup "exceptions" = entries'.lookup "exceptions"

/-- Settings are read from what agreeing tables have in common. -/
theorem Agree.ofTable?_eq {entries entries' : List (String × Toml)} (h : Agree entries entries') :
    ofTable? entries = ofTable? entries' := by
  have hrules := h.checked ("rules", RuleSettings.fields) (by decide)
  have hthresholds := h.checked ("thresholds", Thresholds.fields) (by decide)
  have hbrain := h.checked ("brain_method", BrainLimits.fields) (by decide)
  have hexceptions :
      Option.Rel Eq (entries.lookup "exceptions") (entries'.lookup "exceptions") := by
    rw [h.exceptions]
    exact Toml.optionRel_refl (fun _ => rfl) _
  unfold ofTable?
  rw [Toml.field?_congr hrules fun _ _ => RuleSettings.ofToml?_of_agrees,
    Toml.field?_congr hthresholds fun _ _ => Thresholds.ofToml?_of_agrees,
    Toml.field?_congr hbrain fun _ _ => BrainLimits.ofToml?_of_agrees,
    Toml.field?_congr hexceptions fun _ _ he => he ▸ rfl]

end Settings

/-! ## Keys that nothing is read from -/

namespace Warning

/-- The path of the key. -/
def path : Warning → List String
  | unknownKey key => [key]
  | unknownField sectionName key => [sectionName, key]

/-- The key is not known where it is. -/
def Ignored : Warning → Prop
  | unknownKey key => key ∉ Settings.sections
  | unknownField sectionName key => ∃ known, (sectionName, known) ∈ checkedSections ∧ key ∉ known

/-- A new key that is not known, with any value, is added to a document or to one of its
sections. -/
inductive Added : Warning → List (String × Toml) → List (String × Toml) → Prop
  | key {key : String} {value : Toml} {front back : List (String × Toml)}
    (ignored : Ignored (unknownKey key)) (fresh : key ∉ Toml.keys (front ++ back)) :
    Added (unknownKey key) (front ++ back) (front ++ (key, value) :: back)
  | field {sectionName key : String} {value : Toml} {before past front back : List (String × Toml)}
    (ignored : Ignored (unknownField sectionName key)) (first : sectionName ∉ Toml.keys before)
    (fresh : key ∉ Toml.keys (front ++ back)) :
    Added (unknownField sectionName key) (before ++ (sectionName, .table (front ++ back)) :: past)
      (before ++ (sectionName, .table (front ++ (key, value) :: back)) :: past)

/-- A section without the keys that some warnings name. -/
def withoutFields (warnings : List Warning) (sectionName : String) : Toml → Toml :=
  Toml.mapTable (·.filter fun entry => !warnings.contains (unknownField sectionName entry.1))

/-- The document without the keys that some warnings name. -/
def without (warnings : List Warning) (entries : List (String × Toml)) : List (String × Toml) :=
  (entries.filter fun entry => !warnings.contains (unknownKey entry.1)).map fun entry =>
    (entry.1, withoutFields warnings entry.1 entry.2)

theorem mem_sections_of_checked {sectionName : String} {known : List String}
    (h : (sectionName, known) ∈ checkedSections) :
    sectionName ∈ Settings.sections ∧ sectionName ≠ "exceptions" := by
  have hall : ∀ part ∈ checkedSections, part.1 ∈ Settings.sections ∧ part.1 ≠ "exceptions" := by
    decide
  exact hall _ h

/-- No section is checked against two lists of keys. -/
theorem checked_unique {sectionName : String} {known known' : List String}
    (h : (sectionName, known) ∈ checkedSections) (h' : (sectionName, known') ∈ checkedSections) :
      known = known' := by
  have hall : ∀ part ∈ checkedSections, ∀ part' ∈ checkedSections, part.1 = part'.1 →
      part.2 = part'.2 := by decide
  exact hall _ h _ h' rfl

end Warning

namespace Settings

variable {entries entries' : List (String × Toml)}

/-- Documents with the same sections. -/
theorem Agree.of_lookup (h : ∀ name ∈ sections, entries.lookup name = entries'.lookup name) :
    Agree entries entries' where
  checked := by
    intro ⟨name, known⟩ hpart
    rw [h name (Warning.mem_sections_of_checked hpart).1]
    exact Toml.optionRel_refl .refl _
  exceptions := h "exceptions" (by decide)

/-- A change to the values under keys, which may depend on the key. -/
theorem Agree.mapValues {f : String → Toml → Toml}
    (h : ∀ part ∈ Warning.checkedSections, ∀ v, Agrees part.2 v (f part.1 v))
    (hexceptions : ∀ v, f "exceptions" v = v) :
    Agree entries (entries.map fun entry => (entry.1, f entry.1 entry.2)) where
  checked := by
    intro part hpart
    rw [Toml.lookup_mapValues]
    cases entries.lookup part.1 with
    | none => exact .none
    | some v => exact .some (h part hpart v)
  exceptions := by
    rw [Toml.lookup_mapValues]
    cases entries.lookup "exceptions" with
    | none => rfl
    | some v => rw [Option.map_some, hexceptions]

/-- Another value of one section, with the same fields. -/
theorem Agree.replace {before past : List (String × Toml)} {sectionName : String}
    {known : List String} {v v' : Toml} (hchecked : (sectionName, known) ∈ Warning.checkedSections)
    (hfirst : sectionName ∉ Toml.keys before) (h : Agrees known v v') :
    Agree (before ++ (sectionName, v) :: past) (before ++ (sectionName, v') :: past) where
  checked := by
    intro ⟨name, known'⟩ hpart
    by_cases hname : name = sectionName
    · subst hname
      cases Warning.checked_unique hpart hchecked
      rw [Toml.lookup_of_not_mem hfirst, Toml.lookup_of_not_mem hfirst]
      exact .some h
    · rw [Toml.lookup_insert hname, Toml.lookup_insert hname]
      exact Toml.optionRel_refl .refl _
  exceptions := by
    have hne := (Warning.mem_sections_of_checked hchecked).2.symm
    rw [Toml.lookup_insert hne, Toml.lookup_insert hne]

/-- Entries under an unknown key make no difference to the settings. -/
theorem agree_put_key {key : String} (h : key ∉ sections) (value : Option Toml) :
    Agree entries (Toml.put [key] value entries) := by
  refine .of_lookup fun name hname => (Toml.lookup_put ?_ value entries).symm
  rintro rfl
  exact h hname

/-- Entries under an unknown field make no difference to the settings. -/
theorem agree_put_field {sectionName key : String} {known : List String}
    (hchecked : (sectionName, known) ∈ Warning.checkedSections) (hkey : key ∉ known)
    (value : Option Toml) :
    Agree entries (Toml.put [sectionName, key] value entries) := by
  refine .mapValues (f := fun name v => if name == sectionName
    then v.mapTable (Toml.put [key] value) else v) ?_ ?_
  · rintro ⟨name, known'⟩ hpart v
    dsimp only
    split
    · next he =>
      have hname : name = sectionName := eq_of_beq he
      subst hname
      refine Toml.agrees_mapTable (fun inner field hfield => ?_) v
      refine (Toml.lookup_put ?_ value inner).symm
      rintro rfl
      exact hkey (Warning.checked_unique hpart hchecked ▸ hfield)
    · exact .refl v
  · intro v
    have hne := (Warning.mem_sections_of_checked hchecked).2
    rw [if_neg fun he => hne (eq_of_beq he).symm]

/-- Some change of what is at the path, or its removal, makes a difference to some settings. -/
def Reads (path : List String) : Prop :=
  ∃ entries value, ofTable? (Toml.put path value entries) ≠ ofTable? entries

/-- A key that is not known is not read. -/
theorem not_reads_of_ignored {w : Warning} (h : w.Ignored) : ¬ Reads w.path := by
  rintro ⟨entries, value, hne⟩
  cases w with
  | unknownKey key => exact hne (agree_put_key h value).ofTable?_eq.symm
  | unknownField sectionName key =>
    obtain ⟨known, hchecked, hkey⟩ := h
    exact hne (agree_put_field hchecked hkey value).ofTable?_eq.symm

/-- The keys of the document that are read. A section cannot be a number. -/
theorem reads_key_iff {key : String} : Reads [key] ↔ key ∈ sections := by
  constructor
  · intro hreads
    exact Classical.byContradiction fun hnot =>
      not_reads_of_ignored (w := .unknownKey key) hnot hreads
  · have hall : ∀ key ∈ sections, ofTable? (Toml.put [key] (some (.integer 0)) []) ≠
        ofTable? [] := by decide
    exact fun hkey => ⟨[], some (.integer 0), hall key hkey⟩

/-- The keys that are read in a section with a fixed set of fields. No field is a date. -/
theorem reads_field_iff {sectionName key : String} {known : List String}
    (h : (sectionName, known) ∈ Warning.checkedSections) : Reads [sectionName, key] ↔
      key ∈ known := by
  constructor
  · intro hreads
    refine Classical.byContradiction fun hnot => ?_
    exact not_reads_of_ignored (w := .unknownField sectionName key) ⟨known, h, hnot⟩ hreads
  · have hall : ∀ part ∈ Warning.checkedSections, ∀ key ∈ part.2,
        ofTable? (Toml.put [part.1, key] (some (.datetime "")) [(part.1, .table [])]) ≠
          ofTable? [(part.1, .table [])] := by
      decide
    exact fun hkey => ⟨_, _, hall _ h key hkey⟩

/-- Every key is read in the section of exceptions. -/
theorem reads_exception (key : String) : Reads ["exceptions", key] := by
  refine ⟨[("exceptions", .table [])], some (.string "Exception"), ?_⟩
  have hput :
    ofTable?
      (Toml.put ["exceptions", key] (some (.string "Exception")) [("exceptions", .table [])]) =
      some { exceptions := [(key, "Exception")] } := rfl
  have hbare : ofTable? [("exceptions", .table [])] = some {} := rfl
  rw [hput, hbare]
  simp

/-- Every key is read among the severities. -/
theorem reads_severity (key : String) : Reads ["rules", "severity", key] := by
  refine ⟨[("rules", .table [("severity", .table [])])], some (.string "error"), ?_⟩
  have hput : ofTable? (Toml.put ["rules", "severity", key] (some (.string "error"))
      [("rules", .table [("severity", .table [])])]) =
        some { rules := { severity := [(key, .error)] } } := rfl
  have hbare : ofTable? [("rules", .table [("severity", .table [])])] = some {} := rfl
  rw [hput, hbare]
  simp

end Settings

/-! ## The plain document -/

namespace Toml

variable {entries front back plain : List (String × Toml)} {key name : String} {value : Toml}

theorem plainEntries?_cons_iff :
    plainEntries? ((key, value) :: entries) = some plain ↔
      ∃ value' entries', value.plain? = some value' ∧ plainEntries? entries = some entries' ∧
        plain = (key, value') :: entries' := by
  rw [plainEntries?]
  cases value.plain? <;> cases plainEntries? entries <;> simp [eq_comm]

theorem plainEntries?_append_iff :
    plainEntries? (front ++ back) = some plain ↔
      ∃ front' back', plainEntries? front = some front' ∧ plainEntries? back = some back' ∧
        plain = front' ++ back' := by
  induction front generalizing plain with
  | nil => simp [plainEntries?]
  | cons entry front ih =>
    obtain ⟨key, value⟩ := entry
    rw [List.cons_append, plainEntries?_cons_iff]
    constructor
    · rintro ⟨value', entries', hvalue, hentries, rfl⟩
      obtain ⟨front', back', hfront, hback, rfl⟩ := ih.mp hentries
      exact ⟨_, back', plainEntries?_cons_iff.mpr ⟨value', front', hvalue, hfront, rfl⟩, hback, rfl⟩
    · rintro ⟨front₁, back', hfront, hback, rfl⟩
      obtain ⟨value', front', hvalue, hfront', rfl⟩ := plainEntries?_cons_iff.mp hfront
      exact ⟨value', front' ++ back', hvalue, ih.mpr ⟨front', back', hfront', hback, rfl⟩, rfl⟩

theorem keys_of_plainEntries? (h : plainEntries? entries = some plain) :
    keys plain = keys entries := by
  induction entries generalizing plain with
  | nil =>
    cases h
    rfl
  | cons entry entries ih =>
    obtain ⟨key, value⟩ := entry
    obtain ⟨value', entries', _, hentries, rfl⟩ := plainEntries?_cons_iff.mp h
    exact congrArg (List.cons key) (ih hentries)

/-- The plain document has plain values under the same keys. -/
theorem lookup_of_plainEntries? (h : plainEntries? entries = some plain) (name : String) :
    Option.Rel (fun value value' => value.plain? = some value') (entries.lookup name)
      (plain.lookup name) := by
  induction entries generalizing plain with
  | nil =>
    cases h
    exact .none
  | cons entry entries ih =>
    obtain ⟨key, value⟩ := entry
    obtain ⟨value', entries', hvalue, hentries, rfl⟩ := plainEntries?_cons_iff.mp h
    rw [List.lookup_cons, List.lookup_cons]
    cases name == key with
    | true => exact .some hvalue
    | false => exact ih hentries

/-- What is a table in the plain document is one in the document, and is not taken for a date. -/
theorem plain?_eq_table_iff :
    value.plain? = some (table plain) ↔
      ∃ entries, value = table entries ∧ reserved? entries = none ∧
        plainEntries? entries = some plain := by
  cases value with
  | table entries =>
    rw [plain?]
    cases hreserved : reserved? entries with
    | none => simp [hreserved]
    | some v => cases v <;> simp [ofDatetimeText?, hreserved]
  | array items => simp [plain?]
  | _ => simp [plain?]

end Toml

namespace Warning

variable {entries plain : List (String × Toml)}

/-- The plain document has the place that the warning is about. -/
def Heard (w : Warning) (entries : List (String × Toml)) : Prop :=
  ∃ plain, Toml.plainEntries? entries = some plain ∧
    match w with
    | unknownKey _ => True
    | unknownField sectionName _ => ∃ inner, plain.lookup sectionName = some (.table inner)

theorem mem_unknownKeys {known : List String} {key : String} :
    key ∈ unknownKeys known entries ↔ key ∈ Toml.keys entries ∧ key ∉ known := by
  unfold unknownKeys Toml.keys
  rw [(List.mergeSort_perm _ _).mem_iff]
  simp

theorem mem_ofSection {sectionName : String} {known : List String} {w : Warning} :
    w ∈ ofSection plain sectionName known ↔ ∃ inner key, plain.lookup sectionName =
      some (.table inner) ∧
      key ∈ Toml.keys inner ∧ key ∉ known ∧ w = unknownField sectionName key := by
  unfold ofSection
  split
  · next inner hlookup => simp [hlookup, mem_unknownKeys, eq_comm, and_assoc]
  · next hother =>
    have hnone : ∀ inner, plain.lookup sectionName ≠ some (.table inner) :=
      fun inner h => hother inner h
    simp [hnone]

/-- A key is warned about exactly when it is no section. -/
theorem unknownKey_mem_ofPlainTable {key : String} :
    unknownKey key ∈ ofPlainTable plain ↔ key ∈ Toml.keys plain ∧ key ∉ Settings.sections := by
  simp [ofPlainTable, mem_unknownKeys, mem_ofSection]

/-- A field is warned about exactly when its section is checked and does not know it. -/
theorem unknownField_mem_ofPlainTable {sectionName key : String} :
    unknownField sectionName key ∈ ofPlainTable plain ↔
      ∃ known inner, (sectionName, known) ∈ checkedSections ∧ plain.lookup sectionName =
        some (.table inner) ∧
        key ∈ Toml.keys inner ∧ key ∉ known := by
  simp only [ofPlainTable, List.mem_append, List.mem_map, List.mem_flatMap, mem_ofSection]
  constructor
  · rintro (⟨_, _, hw⟩ | ⟨⟨name, known⟩, hchecked, inner, key, hlookup, hkey, hknown, hw⟩)
    · cases hw
    · cases hw
      exact ⟨known, inner, hchecked, hlookup, hkey, hknown⟩
  · rintro ⟨known, inner, hchecked, hlookup, hkey, hknown⟩
    exact Or.inr ⟨(sectionName, known), hchecked, inner, key, hlookup, hkey, hknown, rfl⟩

/-- Warnings are given of the plain document, and of none if there is none. -/
theorem mem_ofTable_iff {w : Warning} :
    w ∈ ofTable entries ↔ ∃ plain, Toml.plainEntries? entries = some plain ∧
      w ∈ ofPlainTable plain := by
  unfold ofTable
  cases Toml.plainEntries? entries <;> simp

/-- Only keys that are not known are warned about, and only where the plain document has them. -/
theorem ignored_of_mem {w : Warning} (h : w ∈ ofTable entries) : w.Ignored ∧ w.Heard entries := by
  obtain ⟨plain, hplain, hw⟩ := mem_ofTable_iff.mp h
  cases w with
  | unknownKey key => exact ⟨(unknownKey_mem_ofPlainTable.mp hw).2, plain, hplain, trivial⟩
  | unknownField sectionName key =>
    obtain ⟨known, inner, hchecked, hlookup, -, hknown⟩ := unknownField_mem_ofPlainTable.mp hw
    exact ⟨⟨known, hchecked, hknown⟩, plain, hplain, inner, hlookup⟩

/-! ## One key more -/

section Insertion

variable {front back : List (String × Toml)} {key : String} {value : Toml}

/-- An unknown key more is a warning more. -/
theorem unknownKeys_insert {known : List String} (h : key ∉ known) :
    (unknownKeys known (front ++ (key, value) :: back)).Perm
    (key :: unknownKeys known (front ++ back)) := by
  unfold unknownKeys
  refine (List.mergeSort_perm _ _).trans (.trans ?_ ((List.mergeSort_perm _ _).symm.cons key))
  have hkey : (!known.contains key) = true := by simpa using h
  have hcons : ((key, value) :: back).map (·.1) = key :: back.map (·.1) := rfl
  rw [List.map_append, List.map_append, hcons, List.filter_append, List.filter_append,
    List.filter_cons, if_pos hkey]
  exact List.perm_middle

theorem ofSection_congr {plain plain' : List (String × Toml)} {sectionName : String}
    (h : plain'.lookup sectionName = plain.lookup sectionName) (known : List String) :
    ofSection plain' sectionName known = ofSection plain sectionName known := by
  unfold ofSection
  rw [h]

/-- A key more in the plain document. -/
theorem ofPlainTable_insert_key (h : key ∉ Settings.sections) :
    (ofPlainTable (front ++ (key, value) :: back)).Perm
    (unknownKey key :: ofPlainTable (front ++ back)) := by
  have hsections :
    (checkedSections.flatMap fun part => ofSection (front ++ (key, value) :: back) part.1 part.2) =
      checkedSections.flatMap fun part => ofSection (front ++ back) part.1 part.2 := by
    refine List.flatMap_congr fun part hpart => ofSection_congr (Toml.lookup_insert ?_ value) part.2
    rintro rfl
    exact h (mem_sections_of_checked hpart).1
  unfold ofPlainTable
  rw [hsections]
  exact ((unknownKeys_insert h).map unknownKey).append_right _

/-- One of several lists has one item more. -/
theorem flatMap_insert {α β : Type} (f f' : α → List β) {xs : List α} {x : α} {b : β}
    (hnodup : xs.Nodup) (hx : x ∈ xs) (h : (f' x).Perm (b :: f x))
    (hothers : ∀ y ∈ xs, y ≠ x → f' y = f y) :
    (xs.flatMap f').Perm (b :: xs.flatMap f) := by
  obtain ⟨before, past, rfl⟩ := List.append_of_mem hx
  obtain ⟨hnot, -⟩ := List.nodup_cons.mp (List.nodup_middle.mp hnodup)
  have hsame : ∀ y ∈ before ++ past, f' y = f y := by
    intro y hy
    refine hothers y ?_ fun he => hnot (he ▸ hy)
    exact (List.mem_append.mp hy).elim (List.mem_append_left _) fun hy =>
      List.mem_append_right _ (List.mem_cons_of_mem _ hy)
  rw [List.flatMap_append, List.flatMap_append, List.flatMap_cons, List.flatMap_cons,
    List.flatMap_congr fun y hy => hsame y (List.mem_append_left _ hy),
    List.flatMap_congr fun y hy => hsame y (List.mem_append_right _ hy)]
  exact ((h.append_right _).append_left _).trans List.perm_middle

/-- A key more in a section of the plain document. -/
theorem ofPlainTable_insert_field {before past : List (String × Toml)} {sectionName : String}
    {known : List String} (hchecked : (sectionName, known) ∈ checkedSections) (hkey : key ∉ known)
    (hfirst : sectionName ∉ Toml.keys before) :
    (ofPlainTable (before ++ (sectionName, .table (front ++ (key, value) :: back)) :: past)).Perm
      (unknownField sectionName key ::
        ofPlainTable (before ++ (sectionName, .table (front ++ back)) :: past)) := by
  have hkeys : ∀ v v' : Toml, unknownKeys Settings.sections (before ++ (sectionName, v) :: past) =
      unknownKeys Settings.sections (before ++ (sectionName, v') :: past) := by
    intro v v'
    simp only [unknownKeys, List.map_append, List.map_cons]
  have hsections := flatMap_insert
    (fun part => ofSection (before ++ (sectionName, .table (front ++ back)) :: past) part.1 part.2)
    (fun part => ofSection (before ++ (sectionName, .table (front ++ (key, value) :: back)) :: past)
      part.1 part.2)
    (b := unknownField sectionName key) (by decide) hchecked ?_ ?_
  · unfold ofPlainTable
    rw [hkeys]
    exact (hsections.append_left _).trans List.perm_middle
  · simp only [ofSection, Toml.lookup_of_not_mem hfirst]
    exact (unknownKeys_insert hkey).map _
  · -- Sections differ in their names, so the others hold what they held.
    rintro ⟨name, known'⟩ hpart hne
    have hname : name ≠ sectionName := by
      rintro rfl
      exact hne (by rw [checked_unique hpart hchecked])
    exact ofSection_congr (by rw [Toml.lookup_insert hname, Toml.lookup_insert hname]) known'

end Insertion

theorem ofTable_of_plain (h : Toml.plainEntries? entries = some plain) :
    ofTable entries = ofPlainTable plain := by
  rw [ofTable, h, Option.elim_some]

variable {w : Warning} {entries' : List (String × Toml)}

/-- If the plain document has the table of a section, then it is made of the plain parts of the
document. -/
theorem Heard.exists_plain {sectionName key : String} {inner before past : List (String × Toml)}
    (hfirst : sectionName ∉ Toml.keys before)
    (h : (unknownField sectionName key).Heard (before ++ (sectionName, .table inner) :: past)) :
    ∃ before' inner' past', Toml.plainEntries? before = some before' ∧ Toml.plainEntries? inner =
      some inner' ∧
      Toml.plainEntries? past = some past' ∧
      Toml.plainEntries? (before ++ (sectionName, .table inner) :: past) =
        some (before' ++ (sectionName, .table inner') :: past') := by
  obtain ⟨plain, hplain, written, hlookup⟩ := h
  obtain ⟨before', rest, hbefore, hrest, rfl⟩ := Toml.plainEntries?_append_iff.mp hplain
  obtain ⟨value', past', hvalue, hpast, rfl⟩ := Toml.plainEntries?_cons_iff.mp hrest
  rw [Toml.lookup_of_not_mem (Toml.keys_of_plainEntries? hbefore ▸ hfirst)] at hlookup
  cases hlookup
  obtain ⟨entries, hentries, -, hinner⟩ := Toml.plain?_eq_table_iff.mp hvalue
  cases hentries
  exact ⟨before', written, past', hbefore, hinner, hpast, hplain⟩

/-- A key that is added is warned about if the plain document has its place. -/
theorem Added.mem_iff (h : Added w entries entries') : w ∈ ofTable entries' ↔ w.Heard entries' := by
  refine ⟨fun hw => (ignored_of_mem hw).2, fun hheard => ?_⟩
  cases h with
  | key ignored fresh =>
    obtain ⟨plain, hplain, -⟩ := hheard
    rw [ofTable_of_plain hplain, unknownKey_mem_ofPlainTable, Toml.keys_of_plainEntries? hplain]
    exact ⟨by simp [Toml.keys], ignored⟩
  | field ignored first fresh =>
    obtain ⟨known, hchecked, hkey⟩ := ignored
    obtain ⟨before', inner, past', hbefore, hinner, -, hplain⟩ := hheard.exists_plain first
    rw [ofTable_of_plain hplain, unknownField_mem_ofPlainTable]
    refine ⟨known, inner, hchecked, Toml.lookup_of_not_mem ?_ _, ?_, hkey⟩
    · rw [Toml.keys_of_plainEntries? hbefore]
      exact first
    · rw [Toml.keys_of_plainEntries? hinner]
      simp [Toml.keys]

/-- A key that is added is warned about once, and no other warning comes or goes. -/
theorem Added.warnings_perm (h : Added w entries entries') (hheard : w.Heard entries)
    (hheard' : w.Heard entries') :
    (ofTable entries').Perm (w :: ofTable entries) := by
  cases h with
  | key ignored fresh =>
    obtain ⟨plain', hplain', -⟩ := hheard'
    obtain ⟨front', rest, hfront, hrest, rfl⟩ := Toml.plainEntries?_append_iff.mp hplain'
    obtain ⟨value', back', -, hback, rfl⟩ := Toml.plainEntries?_cons_iff.mp hrest
    have hplain := Toml.plainEntries?_append_iff.mpr ⟨front', back', hfront, hback, rfl⟩
    rw [ofTable_of_plain hplain', ofTable_of_plain hplain]
    exact ofPlainTable_insert_key ignored
  | field ignored first fresh =>
    obtain ⟨known, hchecked, hkey⟩ := ignored
    obtain ⟨before', inner, past', hbefore, hinner, hpast, hplain⟩ := hheard.exists_plain first
    obtain ⟨before₁, inner₁, past₁, hbefore₁, hinner₁, hpast₁, hplain₁⟩ :=
      hheard'.exists_plain first
    obtain ⟨front', rest, hfront, hrest, rfl⟩ := Toml.plainEntries?_append_iff.mp hinner₁
    obtain ⟨value', back', -, hback, rfl⟩ := Toml.plainEntries?_cons_iff.mp hrest
    -- What is around the new key has one plain form, which both documents share.
    cases hbefore.symm.trans hbefore₁
    cases hpast.symm.trans hpast₁
    cases hinner.symm.trans (Toml.plainEntries?_append_iff.mpr ⟨front', back', hfront, hback, rfl⟩)
    rw [ofTable_of_plain hplain₁, ofTable_of_plain hplain]
    exact ofPlainTable_insert_field hchecked hkey (Toml.keys_of_plainEntries? hbefore ▸ first)

/-- A key that is added makes no difference to the settings. -/
theorem Added.agree (h : Added w entries entries') : Settings.Agree entries entries' := by
  cases h with
  | key ignored fresh =>
    refine .of_lookup fun name hname => (Toml.lookup_insert ?_ _).symm
    rintro rfl
    exact ignored hname
  | field ignored first fresh =>
    obtain ⟨known, hchecked, hkey⟩ := ignored
    refine .replace hchecked first (.table fun field hfield => (Toml.lookup_insert ?_ _).symm)
    rintro rfl
    exact hkey hfield

/-! ## No key that is warned about -/

section Without

variable {warnings : List Warning} {sectionName key : String}

theorem withoutFields_of_not_mem (h : ∀ key, unknownField sectionName key ∉ warnings)
    (value : Toml) :
    withoutFields warnings sectionName value = value := by
  cases value <;> simp [withoutFields, Toml.mapTable, h]

theorem without_nil (entries : List (String × Toml)) : without [] entries = entries := by
  simp [without, withoutFields_of_not_mem]

/-- Only the keys that were warned about are removed. -/
theorem mem_keys_without :
    key ∈ Toml.keys (without warnings entries) ↔ key ∈ Toml.keys entries ∧
      unknownKey key ∉ warnings := by
  simp [without, Toml.keys]

/-- A section that stays loses only the fields that were warned about. -/
theorem lookup_without (h : unknownKey sectionName ∉ warnings) :
    (without warnings entries).lookup sectionName =
      (entries.lookup sectionName).map (withoutFields warnings sectionName) := by
  unfold without
  rw [Toml.lookup_mapValues, Toml.lookup_filter fun _ => by simpa using h]

/-- Keys that are not known can be removed. -/
theorem agree_without (h : ∀ w ∈ warnings, w.Ignored) :
    Settings.Agree entries (without warnings entries) where
  checked := by
    intro part hpart
    rw [lookup_without fun hw => h _ hw (mem_sections_of_checked hpart).1]
    cases entries.lookup part.1 with
    | none => exact .none
    | some v =>
      refine .some
        (Toml.agrees_mapTable (fun inner name hname => (Toml.lookup_filter fun _ => ?_).symm) v)
      have hnot : unknownField part.1 name ∉ warnings := by
        intro hw
        obtain ⟨known, hchecked, hkey⟩ := h _ hw
        exact hkey (checked_unique hpart hchecked ▸ hname)
      simpa using hnot
  exceptions := by
    have hnot (key : String) : unknownField "exceptions" key ∉ warnings := by
      intro hw
      obtain ⟨known, hchecked, -⟩ := h _ hw
      exact (mem_sections_of_checked hchecked).2 rfl
    rw [lookup_without fun hw => h _ hw (by decide)]
    cases entries.lookup "exceptions" with
    | none => rfl
    | some v => rw [Option.map_some, withoutFields_of_not_mem hnot]

end Without

/-- A section that is a table for the warnings is one before some of its keys are removed: from a
section that is taken for a date nothing is removed. -/
theorem lookup_of_lookup_without {plain' inner' : List (String × Toml)} {sectionName : String}
    {known : List String} (hchecked : (sectionName, known) ∈ checkedSections)
    (hplain : Toml.plainEntries? entries = some plain)
    (hplain' : Toml.plainEntries? (without (ofTable entries) entries) = some plain')
    (h : plain'.lookup sectionName = some (.table inner')) :
    ∃ inner, plain.lookup sectionName = some (.table inner) ∧
      ∀ key ∈ Toml.keys inner', key ∈ Toml.keys inner ∧ unknownField sectionName key ∉
        ofTable entries := by
  have hknown : unknownKey sectionName ∉ ofTable entries :=
    fun hw => (ignored_of_mem hw).1 (mem_sections_of_checked hchecked).1
  have hwhole := Toml.lookup_of_plainEntries? hplain sectionName
  have hkept := Toml.lookup_of_plainEntries? hplain' sectionName
  rw [lookup_without hknown, h] at hkept
  cases hv : entries.lookup sectionName with
  | none =>
    rw [hv] at hkept
    cases hkept
  | some v =>
    rw [hv] at hkept hwhole
    cases hkept with
    | some hkept =>
    generalize hv' : plain.lookup sectionName = found at hwhole
    cases hwhole with
    | some hwhole =>
    -- If the section were a date, there would be no warning about a field of it, and all of it
    -- would be kept.
    have htable : ∃ inner, v.plain? = some (.table inner) := by
      refine Classical.byContradiction fun hnone => hnone ⟨inner', ?_⟩
      rwa [withoutFields_of_not_mem] at hkept
      intro key hw
      obtain ⟨-, plain₁, hplain₁, inner, hlookup⟩ := ignored_of_mem hw
      cases hplain.symm.trans hplain₁
      cases hv'.symm.trans hlookup
      exact hnone ⟨inner, hwhole⟩
    obtain ⟨inner, hinner⟩ := htable
    cases hwhole.symm.trans hinner
    refine ⟨inner, rfl, fun key hkey => ?_⟩
    obtain ⟨written, rfl, -, hwritten⟩ := Toml.plain?_eq_table_iff.mp hinner
    obtain ⟨left, hleft, -, hkeys⟩ := Toml.plain?_eq_table_iff.mp hkept
    cases hleft
    rw [Toml.keys_of_plainEntries? hkeys] at hkey
    rw [Toml.keys_of_plainEntries? hwritten]
    simpa [Toml.keys] using hkey

/-- Without the keys that are warned about there is no warning. -/
theorem ofTable_without (entries : List (String × Toml)) :
    ofTable (without (ofTable entries) entries) = [] := by
  cases hplain : Toml.plainEntries? entries with
  | none =>
    -- Without a plain document nothing is warned about, and so nothing is removed.
    have hnone : ofTable entries = [] := by
      rw [ofTable, hplain, Option.elim_none]
    rw [hnone, without_nil, hnone]
  | some plain =>
    refine List.eq_nil_iff_forall_not_mem.mpr fun w hw => ?_
    obtain ⟨plain', hplain', hw⟩ := mem_ofTable_iff.mp hw
    cases w with
    | unknownKey key =>
      obtain ⟨hkey, hignored⟩ := unknownKey_mem_ofPlainTable.mp hw
      rw [Toml.keys_of_plainEntries? hplain', mem_keys_without] at hkey
      refine hkey.2
        (mem_ofTable_iff.mpr ⟨plain, hplain, unknownKey_mem_ofPlainTable.mpr ⟨?_, hignored⟩⟩)
      rw [Toml.keys_of_plainEntries? hplain]
      exact hkey.1
    | unknownField sectionName key =>
      obtain ⟨known, inner', hchecked, hlookup', hkey', hignored⟩ :=
        unknownField_mem_ofPlainTable.mp hw
      obtain ⟨inner, hlookup, hkeys⟩ := lookup_of_lookup_without hchecked hplain hplain' hlookup'
      obtain ⟨hkey, hnot⟩ := hkeys key hkey'
      refine hnot (mem_ofTable_iff.mpr ⟨plain, hplain, unknownField_mem_ofPlainTable.mpr ?_⟩)
      exact ⟨known, inner, hchecked, hlookup, hkey, hignored⟩

/-! ## Documents without reserved keys -/

end Warning

namespace Toml

mutual

/-- No table in the value begins with the reserved key. -/
def unreserved : Toml → Bool
  | table entries => (reserved? entries).isNone && unreservedEntries entries
  | array items => unreservedItems items
  | _ => true

def unreservedEntries : List (String × Toml) → Bool
  | [] => true
  | (_, value) :: entries => value.unreserved && unreservedEntries entries

def unreservedItems : List Toml → Bool
  | [] => true
  | item :: items => item.unreserved && unreservedItems items

end

mutual

/-- Without reserved keys, a value is plain as it is written. -/
theorem plain?_of_unreserved : ∀ {value : Toml}, value.unreserved = true → value.plain? = some value
  | table entries, h => by
    rw [unreserved, Bool.and_eq_true, Option.isNone_iff_eq_none] at h
    rw [plain?, h.1, plainEntries?_of_unreserved h.2]
    rfl
  | array items, h => by
    rw [unreserved] at h
    rw [plain?, plainItems?_of_unreserved h]
    rfl
  | string _, _ | integer _, _ | float _, _ | boolean _, _ | datetime _, _ => by simp [plain?]

/-- Entries without reserved keys are plain already. -/
theorem plainEntries?_of_unreserved : ∀ {entries : List (String × Toml)},
    unreservedEntries entries = true →
    plainEntries? entries = some entries
  | [], _ => by rw [plainEntries?]
  | (key, value) :: entries, h => by
    rw [unreservedEntries, Bool.and_eq_true] at h
    rw [plainEntries?, plain?_of_unreserved h.1, plainEntries?_of_unreserved h.2]
    rfl

theorem plainItems?_of_unreserved : ∀ {items : List Toml}, unreservedItems items = true →
    plainItems? items = some items
  | [], _ => by rw [plainItems?]
  | item :: items, h => by
    rw [unreservedItems, Bool.and_eq_true] at h
    rw [plainItems?, plain?_of_unreserved h.1, plainItems?_of_unreserved h.2]
    rfl

end

end Toml

/-- Without reserved keys, the plain document has every place that a key is added to. -/
theorem Warning.Added.heard {w : Warning} {entries entries' : List (String × Toml)}
    (h : Added w entries entries') :
    (Toml.unreservedEntries entries = true → w.Heard entries) ∧
      (Toml.unreservedEntries entries' = true → w.Heard entries') := by
  refine ⟨fun hfree => ⟨_, Toml.plainEntries?_of_unreserved hfree, ?_⟩,
    fun hfree => ⟨_, Toml.plainEntries?_of_unreserved hfree, ?_⟩⟩
  all_goals
    cases h with
    | key => trivial
    | field _ first => exact ⟨_, Toml.lookup_of_not_mem first _⟩

/-! ## The main result -/

namespace Settings

/-- Reads settings from a document. -/
def ofDocument? (entries : List (String × Toml)) : Option LoadedSettings :=
  (ofTable? entries).map (⟨·, Warning.ofTable entries⟩)

/-- A file is loaded as the document in it is read. -/
theorem load_eq_ok {t : FileTree} {path : TreePath} {text : String} {entries : List (String × Toml)}
    {loaded : LoadedSettings} (htext : t.readText path = .ok text)
    (hparsed : Toml.parse? text = some entries) (h : ofDocument? entries = some loaded) :
      load t path = .ok loaded := by
  have hloaded : parse? text = some loaded := by
    obtain ⟨settings, hsettings, rfl⟩ := Option.map_eq_some_iff.mp h
    rw [parse?, hparsed, Option.bind_eq_bind, Option.bind_some, hsettings]
    rfl
  rw [load, htext]
  simp only [hloaded]

theorem ofDocument?_eq_some_iff {entries : List (String × Toml)} {loaded : LoadedSettings} :
    ofDocument? entries = some loaded ↔
      ofTable? entries = some loaded.settings ∧ loaded.warnings = Warning.ofTable entries := by
  obtain ⟨settings, warnings⟩ := loaded
  unfold ofDocument?
  cases ofTable? entries <;> simp [eq_comm]

/-- Let a document be read as settings with some warnings, as it is when a file with it is loaded. A
key that is not known, with any value, can be added to the document or to one of its sections with a
fixed set of fields: the settings stay the same, and there is one warning more, the one that names
the key, unless the plain document has not its place. Without reserved keys it always has. The keys
that are warned about can be removed: the settings stay the same, and no warning is left. No key
that is warned about is read. Read are the sections, the fields of those with a fixed set of them,
and all keys of the exceptions and of the severities. -/
theorem ignored_keys {entries : List (String × Toml)} {loaded : LoadedSettings}
    (hloaded : ofDocument? entries = some loaded) :
    (∀ t path text, t.readText path = .ok text → Toml.parse? text = some entries →
      load t path = .ok loaded) ∧
    (∀ w entries', Warning.Added w entries entries' →
      ∃ loaded', ofDocument? entries' = some loaded' ∧ loaded'.settings = loaded.settings ∧
        (w ∈ loaded'.warnings ↔ w.Heard entries') ∧
        (w.Heard entries → w.Heard entries' → loaded'.warnings.Perm (w :: loaded.warnings)) ∧
        (Toml.unreservedEntries entries = true → w.Heard entries) ∧
        (Toml.unreservedEntries entries' = true → w.Heard entries')) ∧
    ofDocument? (Warning.without loaded.warnings entries) = some ⟨loaded.settings, []⟩ ∧
    (∀ w ∈ loaded.warnings, ¬ Reads w.path) ∧
    (∀ key, Reads [key] ↔ key ∈ sections) ∧
    (∀ part ∈ Warning.checkedSections, ∀ key, Reads [part.1, key] ↔ key ∈ part.2) ∧
    (∀ key, Reads ["exceptions", key] ∧ Reads ["rules", "severity", key]) := by
  obtain ⟨hsettings, hwarnings⟩ := ofDocument?_eq_some_iff.mp hloaded
  have hignored : ∀ w ∈ loaded.warnings, w.Ignored :=
    fun w hw => (Warning.ignored_of_mem (hwarnings ▸ hw)).1
  refine ⟨fun _ _ _ htext hparsed => load_eq_ok htext hparsed hloaded, ?_,
    ofDocument?_eq_some_iff.mpr ⟨?_, ?_⟩, fun w hw => not_reads_of_ignored (hignored w hw),
    fun _ => reads_key_iff, fun _ hpart _ => reads_field_iff hpart,
    fun key => ⟨reads_exception key, reads_severity key⟩⟩
  · intro w entries' hadded
    rw [hadded.agree.ofTable?_eq] at hsettings
    refine ⟨⟨loaded.settings, Warning.ofTable entries'⟩,
      ofDocument?_eq_some_iff.mpr ⟨hsettings, rfl⟩, rfl, hadded.mem_iff,
      fun hheard hheard' => ?_, hadded.heard⟩
    rw [hwarnings]
    exact hadded.warnings_perm hheard hheard'
  · rw [← (Warning.agree_without hignored).ofTable?_eq, hsettings]
  · rw [hwarnings, Warning.ofTable_without]

/-- A limit, next to a field of another section with a table under it. -/
def misplaced : List (String × Toml) :=
  [("thresholds", .table [("max_depth", .integer 3), ("nesting", .table [("loc", .integer 1)])])]

/-- The misplaced field: one warning more, and the settings of the rest. -/
theorem ignored_keys_misplaced :
    Warning.Added (.unknownField "thresholds" "nesting")
      [("thresholds", .table [("max_depth", .integer 3)])]
      misplaced ∧
    (∃ loaded, ofDocument? misplaced = some loaded ∧
      loaded.settings = { thresholds := { depth := 3 } } ∧
      loaded.warnings = [.unknownField "thresholds" "nesting"] ∧
      ofDocument? (Warning.without loaded.warnings misplaced) =
        some ⟨{ thresholds := { depth := 3 } }, []⟩ ∧
      ∀ w ∈ loaded.warnings, ¬ Reads w.path) ∧
    (Reads ["thresholds", "max_depth"] ↔ "max_depth" ∈ Thresholds.fields) := by
  have hadded : Warning.Added (.unknownField "thresholds" "nesting")
      [("thresholds", .table [("max_depth", .integer 3)])] misplaced :=
    @Warning.Added.field _ _ _ [] [] [("max_depth", .integer 3)] []
      ⟨Thresholds.fields, by decide, by decide⟩ (by decide) (by decide)
  have hloaded : ofDocument? [("thresholds", .table [("max_depth", .integer 3)])] =
      some ⟨{ thresholds := { depth := 3 } }, []⟩ :=
    ofDocument?_eq_some_iff.mpr ⟨rfl, by decide +kernel⟩
  obtain ⟨loaded, hextended, hsettings, -, hone, hheard, hheard'⟩ :=
    (ignored_keys hloaded).2.1 _ _ hadded
  obtain ⟨-, -, hwithout, hwarned, -, hfields, -⟩ := ignored_keys hextended
  have hwarnings := List.perm_singleton.mp (hone (hheard (by decide)) (hheard' (by decide)))
  rw [hsettings] at hwithout
  exact ⟨hadded, ⟨loaded, hextended, hsettings, hwarnings, hwithout, hwarned⟩,
    hfields ("thresholds", Thresholds.fields) (by decide) "max_depth"⟩

end Settings

/-- A table that begins with the reserved key and holds no text of a date is read as any other value
under a key that is not known, but there is no warning about it, nor about any other key. -/
theorem Warning.silent_reserved :
    Added (unknownKey "x") [("y", .integer 0)]
      [("x", .table [(Toml.datetimeKey, .boolean true)]), ("y", .integer 0)] ∧
    Settings.ofDocument? [("y", .integer 0)] = some ⟨{}, [unknownKey "y"]⟩ ∧
    Settings.ofDocument? [("x", .table [(Toml.datetimeKey, .boolean true)]), ("y", .integer 0)] =
      some ⟨{}, []⟩ := by
  have hignored : "x" ∉ Settings.sections := by decide
  refine ⟨@Warning.Added.key _ _ [] _ hignored (by decide),
    Settings.ofDocument?_eq_some_iff.mpr ⟨rfl, ?_⟩, Settings.ofDocument?_eq_some_iff.mpr ⟨rfl, ?_⟩⟩
  · decide +kernel
  · decide +kernel

end MethodFlow
