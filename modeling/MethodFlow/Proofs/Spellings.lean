import Mathlib.Data.List.Forall2
import MethodFlow.Tree.Reading
import MethodFlow.Tree.Writing

/-!
# The ways to spell a record

A record can be spelled in many ways. As an object, its entries may come in any order, fields that
hold their default may be left out, and entries that belong to no field may be added. As an array,
it lists its fields in order, and a tail of fields that hold their default may be left off. A tagged
record names its kind besides. `Json.SpellsRecord` and `Json.SpellsTagged` are all these spellings,
said without reading any of them.

Reading finds the same in each of them: what it finds for a field spells that field, and a field for
which it finds nothing holds its default (`Record.Holds`). So a reader of a record comes to the same
result for all spellings if the readers of its fields do.
-/

namespace MethodFlow

namespace Json

/-! ## Spellings of values -/

/-- The values that spell something. -/
abbrev Spelling := Json → Prop

namespace Spelling

def text (s : String) : Spelling := fun j => j = .string s

def flag (b : Bool) : Spelling := fun j => j = .bool b

def number (n : UInt32) : Spelling := fun j => j = .ofNat n.toNat

/-- An array with one item for each member of a list. -/
def list (members : List Spelling) : Spelling := fun j =>
  ∃ items, j = .array items ∧ List.Forall₂ (fun member item => member item) members items

/-- Something that may be absent. -/
def option : Option Spelling → Spelling
  | none => fun j => j = .null
  | some spelling => spelling

end Spelling

/-- A field of a record: its name, how its content is spelled, and whether that is the default, so
that the field may be left out. -/
structure Field where
  name : String
  content : Spelling
  isDefault : Prop

namespace Field

/-- A field without a default. -/
def required (name : String) (content : Spelling) : Field := ⟨name, content, False⟩

/-- A list, empty by default. -/
def list (name : String) (members : List Spelling) : Field := ⟨name, .list members, members = []⟩

/-- Something that is absent by default. -/
def optional (name : String) (content : Option Spelling) : Field :=
    ⟨name, .option content, content = none⟩

end Field

/-! ## Spellings of records -/

/-- Entries for fields, in order. Some of the fields that hold their default have none. -/
inductive Entries : List Field → List (String × Json) → Prop
  | nil : Entries [] []
  | keep {f : Field} {fields : List Field} {j : Json} {entries : List (String × Json)}
      (h : f.content j) (rest : Entries fields entries) :
        Entries (f :: fields) ((f.name, j) :: entries)
  | drop {f : Field} {fields : List Field} {entries : List (String × Json)} (h : f.isDefault)
      (rest : Entries fields entries) : Entries (f :: fields) entries

/-- The items for fields, in order. A tail of fields that hold their default may have none. -/
inductive Items : List Field → List Json → Prop
  | stop {fields : List Field} (h : ∀ f ∈ fields, f.isDefault) : Items fields []
  | item {f : Field} {fields : List Field} {j : Json} {items : List Json} (h : f.content j)
      (rest : Items fields items) : Items (f :: fields) (j :: items)

/-- The value spells a record with the given fields. -/
inductive SpellsRecord (fields : List Field) : Spelling
  | keyed {own extra entries : List (String × Json)} (h : Entries fields own)
      (unknown : ∀ e ∈ extra, e.1 ∉ fields.map (·.name)) (perm : entries.Perm (own ++ extra)) :
      SpellsRecord fields (.object entries)
  | positional {items : List Json} (h : Items fields items) : SpellsRecord fields (.array items)

/-- The value spells a tagged record with the given fields. -/
inductive SpellsTagged (tag : String) (fields : List Field) : Spelling
  | keyed {own extra entries : List (String × Json)} (h : Entries fields own)
      (unknown : ∀ e ∈ extra, e.1 ≠ tagKey ∧ e.1 ∉ fields.map (·.name))
      (perm : entries.Perm ((tagKey, .string tag) :: (own ++ extra))) :
        SpellsTagged tag fields (.object entries)
  | positional {items : List Json} (h : Items fields items) :
      SpellsTagged tag fields (.array (.string tag :: items))

theorem entries_of_forall₂ {fields : List Field} {values : List Json}
    (h : List.Forall₂ (fun f j => f.content j) fields values) :
    Entries fields ((fields.map (·.name)).zip values) := by
  induction h with
  | nil => exact .nil
  | cons h _ ih => exact .keep h ih

/-- The canonical spelling is one of the spellings. -/
theorem spellsRecord_ofRecord {fields : List Field} {values : List Json}
    (h : List.Forall₂ (fun f j => f.content j) fields values) :
    SpellsRecord fields (.ofRecord (fields.map (·.name)) values) := by
  refine .keyed (entries_of_forall₂ h) (List.forall_mem_nil _) ?_
  rw [List.append_nil]

/-- A record written with its tag is a spelling. -/
theorem spellsTagged_ofTagged {tag : String} {fields : List Field} {values : List Json}
    (h : List.Forall₂ (fun f j => f.content j) fields values) :
    SpellsTagged tag fields (.ofTagged tag (fields.map (·.name)) values) := by
  refine .keyed (entries_of_forall₂ h) (List.forall_mem_nil _) ?_
  rw [List.append_nil]
  exact List.Perm.refl _

/-! ## Depth -/

theorem depth_le_listDepth {j : Json} {items : List Json} (h : j ∈ items) :
    j.depth ≤ listDepth items := by
  induction items with
  | nil => exact absurd h List.not_mem_nil
  | cons item items ih =>
    rw [listDepth]
    rcases List.mem_cons.mp h with rfl | h
    · exact Nat.le_max_left _ _
    · exact Nat.le_trans (ih h) (Nat.le_max_right _ _)

theorem depth_le_entriesDepth {key : String} {j : Json} {entries : List (String × Json)}
    (h : (key, j) ∈ entries) : j.depth ≤ entriesDepth entries := by
  induction entries with
  | nil => exact absurd h List.not_mem_nil
  | cons entry entries ih =>
    rw [entriesDepth]
    rcases List.mem_cons.mp h with rfl | h
    · exact Nat.le_max_left _ _
    · exact Nat.le_trans (ih h) (Nat.le_max_right _ _)

theorem entriesDepth_le {entries : List (String × Json)} {n : Nat}
    (h : ∀ e ∈ entries, e.2.depth ≤ n) :
    entriesDepth entries ≤ n := by
  induction entries with
  | nil => exact Nat.zero_le n
  | cons entry entries ih =>
    rw [entriesDepth]
    exact Nat.max_le.mpr ⟨h entry List.mem_cons_self, ih fun e he =>
      h e (List.mem_cons_of_mem _ he)⟩

theorem depth_lt_of_mem_items {j : Json} {items : List Json} (h : j ∈ items) :
    j.depth < (array items).depth := by
  rw [depth]
  exact Nat.lt_succ_of_le (depth_le_listDepth h)

theorem depth_lt_of_mem_entries {key : String} {j : Json} {entries : List (String × Json)}
    (h : (key, j) ∈ entries) : j.depth < (object entries).depth := by
  rw [depth]
  exact Nat.lt_succ_of_le (depth_le_entriesDepth h)

theorem SpellsRecord.depth_pos {fields : List Field} {j : Json} (h : SpellsRecord fields j) :
    0 < j.depth := by
  cases h <;> exact Nat.succ_pos _

/-! ## What is found for the fields -/

/-- What a record has for a field spells its content, at less than the given depth. If it has
nothing then the field holds its default. -/
def Record.Holds (r : Record) (bound : Nat) (f : Field) : Prop :=
  match r.lookup f.name with
  | some j => f.content j ∧ j.depth < bound
  | none => f.isDefault

theorem Record.Holds.mono {r : Record} {bound bound' : Nat} {f : Field} (h : r.Holds bound f)
    (hle : bound ≤ bound') : r.Holds bound' f := by
  unfold Record.Holds at h ⊢
  split at h
  next => exact ⟨h.1, Nat.lt_of_lt_of_le h.2 hle⟩
  next => exact h

theorem lookup_of_mem {r : Record} (hr : (r.map (·.1)).Nodup) {key : String} {j : Json}
    (h : (key, j) ∈ r) :
    r.lookup key = some j := by
  induction r with
  | nil => exact absurd h List.not_mem_nil
  | cons entry r ih =>
    rw [List.map_cons, List.nodup_cons] at hr
    rcases List.mem_cons.mp h with rfl | h
    · exact List.lookup_cons_self
    · have hne : key ≠ entry.1 := by
        rintro rfl
        exact hr.1 (List.mem_map.mpr ⟨_, h, rfl⟩)
      rw [List.lookup_cons, beq_false_of_ne hne]
      exact ih hr.2 h

theorem lookup_of_not_mem {r : Record} {key : String} (h : key ∉ r.map (·.1)) :
    r.lookup key = none := by
  rw [List.lookup_eq_none_iff]
  intro entry hm
  rw [bne_iff_ne]
  rintro rfl
  exact h (List.mem_map.mpr ⟨entry, hm, rfl⟩)

theorem Entries.keys_sublist {fields : List Field} {entries : List (String × Json)}
    (h : Entries fields entries) :
    List.Sublist (entries.map (·.1)) (fields.map (·.name)) := by
  induction h with
  | nil => exact .slnil
  | keep _ _ ih => exact ih.cons_cons _
  | drop _ _ ih => exact ih.cons _

/-- Each field has its entry, or its default if it has none. -/
theorem Entries.content {fields : List Field} {entries : List (String × Json)}
    (h : Entries fields entries) (hn : (fields.map (·.name)).Nodup) :
    ∀ f ∈ fields, (∃ j, (f.name, j) ∈ entries ∧ f.content j) ∨ f.isDefault ∧
      f.name ∉ entries.map (·.1) := by
  induction h with
  | nil => exact nofun
  | @keep f₀ fields j entries hj rest ih =>
    rw [List.map_cons, List.nodup_cons] at hn
    intro f hf
    rcases List.mem_cons.mp hf with rfl | hf
    · exact Or.inl ⟨j, List.mem_cons_self, hj⟩
    · rcases ih hn.2 f hf with ⟨j', hm, hc⟩ | ⟨hd, hm⟩
      · exact Or.inl ⟨j', List.mem_cons_of_mem _ hm, hc⟩
      · refine Or.inr ⟨hd, ?_⟩
        rw [List.map_cons, List.mem_cons, not_or]
        exact ⟨fun he => hn.1 (List.mem_map.mpr ⟨f, hf, he⟩), hm⟩
  | @drop f₀ fields entries hd rest ih =>
    rw [List.map_cons, List.nodup_cons] at hn
    intro f hf
    rcases List.mem_cons.mp hf with rfl | hf
    · exact Or.inr ⟨hd, fun hm => hn.1 (rest.keys_sublist.subset hm)⟩
    · exact ih hn.2 f hf

theorem Items.length_le {fields : List Field} {items : List Json} (h : Items fields items) :
    items.length ≤ fields.length := by
  induction h with
  | stop => exact Nat.zero_le _
  | item _ _ ih => exact Nat.succ_le_succ ih

/-- Items in an array hold for the fields in the same places. -/
theorem Items.holds {fields : List Field} {items : List Json} (h : Items fields items)
    (hn : (fields.map (·.name)).Nodup) {bound : Nat} (hb : ∀ j ∈ items, j.depth < bound) :
    ∀ f ∈ fields, Record.Holds ((fields.map (·.name)).zip items) bound f := by
  induction h with
  | stop hd =>
    intro f hf
    rw [Record.Holds, List.zip_nil_right]
    exact hd f hf
  | @item f₀ fields j items hj _ ih =>
    rw [List.map_cons, List.nodup_cons] at hn
    intro f hf
    rw [List.map_cons, List.zip_cons_cons, Record.Holds]
    rcases List.mem_cons.mp hf with rfl | hf
    · rw [List.lookup_cons_self]
      exact ⟨hj, hb j List.mem_cons_self⟩
    · have hne : f.name ≠ f₀.name := fun he => hn.1 (he ▸ List.mem_map.mpr ⟨f, hf, rfl⟩)
      rw [List.lookup_cons, beq_false_of_ne hne]
      exact ih hn.2 (fun j hj => hb j (List.mem_cons_of_mem _ hj)) f hf

/-! ## Reading -/

/-- Of the entries of a spelling, reading keeps the record's own. -/
theorem filter_perm_own {fields : List Field} {own extra entries : List (String × Json)}
    (h : Entries fields own) (unknown : ∀ e ∈ extra, e.1 ∉ fields.map (·.name))
    (perm : entries.Perm (own ++ extra)) :
    (entries.filter fun e => (fields.map (·.name)).contains e.1).Perm own := by
  have hown : (own.filter fun e => (fields.map (·.name)).contains e.1) = own := by
    refine List.filter_eq_self.mpr fun e he => ?_
    exact List.contains_iff_mem.mpr (h.keys_sublist.subset (List.mem_map.mpr ⟨e, he, rfl⟩))
  have hextra : (extra.filter fun e => (fields.map (·.name)).contains e.1) = [] := by
    refine List.filter_eq_nil_iff.mpr fun e he => ?_
    rw [List.contains_iff_mem]
    exact unknown e he
  have hp := perm.filter fun e => (fields.map (·.name)).contains e.1
  rw [List.filter_append, hown, hextra, List.append_nil] at hp
  exact hp

/-- Every spelling of a record, by names or by places, is found to hold for its fields. -/
theorem SpellsRecord.record? {fields : List Field} {j : Json} (h : SpellsRecord fields j)
    (hn : (fields.map (·.name)).Nodup) :
    ∃ r, j.record? (fields.map (·.name)) = some r ∧ fields.Forall (r.Holds j.depth) := by
  cases h with
  | @keyed own extra entries h unknown perm =>
    have hp := filter_perm_own h unknown perm
    have hkeys : ((entries.filter fun e => (fields.map (·.name)).contains e.1).map (·.1)).Nodup :=
      (hp.map (·.1)).nodup_iff.mpr (hn.sublist h.keys_sublist)
    refine ⟨_, if_pos hkeys, List.forall_iff_forall_mem.mpr fun f hf => ?_⟩
    rw [Record.Holds]
    rcases h.content hn f hf with ⟨v, hm, hc⟩ | ⟨hd, hm⟩
    · have hm := hp.mem_iff.mpr hm
      rw [lookup_of_mem hkeys hm]
      exact ⟨hc, depth_lt_of_mem_entries (List.mem_of_mem_filter hm)⟩
    · rw [lookup_of_not_mem fun hk => hm ((hp.map (·.1)).mem_iff.mp hk)]
      exact hd
  | @positional items h =>
    have hle : items.length ≤ (fields.map (·.name)).length := by
      rw [List.length_map]
      exact h.length_le
    exact ⟨_, if_pos hle,
      List.forall_iff_forall_mem.mpr (h.holds hn fun j hj => depth_lt_of_mem_items hj)⟩

/-- Reading splits a spelling of a tagged record into the kind and a spelling of the fields. -/
theorem SpellsTagged.tagged? {κ : Type} {kinds : List κ} {name : κ → String} {kind : κ}
    {fields : List Field} {tag : String} {j : Json} (h : SpellsTagged tag fields j)
    (hkind : kinds.find? (name · == tag) = some kind) (htag : tagKey ∉ fields.map (·.name))
    (ordinals : Bool) :
    ∃ body, j.tagged? kinds name ordinals = some (kind, body) ∧ SpellsRecord fields body ∧
      body.depth ≤ j.depth := by
  cases h with
  | @keyed own extra entries h unknown perm =>
    -- The tag is the only entry with its key, so it is found whatever the order.
    have hother : ∀ e ∈ own ++ extra, e.1 ≠ tagKey := by
      intro e he
      rcases List.mem_append.mp he with he | he
      · intro heq
        exact htag (heq ▸ h.keys_sublist.subset (List.mem_map.mpr ⟨e, he, rfl⟩))
      · exact (unknown e he).1
    have hkinds : entries.filter (·.1 == tagKey) = [(tagKey, .string tag)] := by
      have hp := perm.filter (·.1 == tagKey)
      have hnone : (own ++ extra).filter (·.1 == tagKey) = [] :=
        List.filter_eq_nil_iff.mpr fun e he => by simpa using hother e he
      rw [List.filter_cons_of_pos (by simp), hnone] at hp
      exact List.perm_singleton.mp hp
    have hrest : (entries.filter (·.1 != tagKey)).Perm (own ++ extra) := by
      have hp := perm.filter (·.1 != tagKey)
      have hall : (own ++ extra).filter (·.1 != tagKey) = own ++ extra :=
        List.filter_eq_self.mpr fun e he => by simpa using hother e he
      rw [List.filter_cons_of_neg (by simp), hall] at hp
      exact hp
    refine ⟨_, ?_, .keyed h (fun e he => (unknown e he).2) hrest, ?_⟩
    · simp only [Json.tagged?, hkinds, kind?, hkind, Option.map_some]
    · rw [depth, depth]
      refine Nat.succ_le_succ (entriesDepth_le fun e he => ?_)
      exact depth_le_entriesDepth (List.mem_of_mem_filter he)
  | @positional items h =>
    refine ⟨.array items, ?_, .positional h, ?_⟩
    · simp only [Json.tagged?, kind?, hkind, Option.map_some]
    · rw [depth, depth, listDepth]
      exact Nat.succ_le_succ (Nat.le_max_right _ _)

/-- What a reader with an allowance of levels finds in a record: one level is used up, and the
fields need no more than the rest. -/
theorem SpellsRecord.read {fields : List Field} {j : Json} (h : SpellsRecord fields j)
    (hn : (fields.map (·.name)).Nodup) {n : Nat} (hle : j.depth ≤ n) :
    ∃ m r, n = m + 1 ∧ j.record? (fields.map (·.name)) = some r ∧
      fields.Forall (r.Holds (m + 1)) := by
  cases n with
  | zero => exact absurd h.depth_pos (Nat.not_lt_of_le hle)
  | succ m =>
    obtain ⟨r, hr, hold⟩ := h.record? hn
    exact ⟨m, r, rfl, hr, hold.imp fun f hf => hf.mono hle⟩

/-- A tagged record is read by the reader of its kind. -/
theorem SpellsTagged.read {κ : Type} {kinds : List κ} {name : κ → String} {kind : κ}
    {fields : List Field} {tag : String} {j : Json} (h : SpellsTagged tag fields j)
    (hkind : kinds.find? (name · == tag) = some kind) (htag : tagKey ∉ fields.map (·.name))
    (hn : (fields.map (·.name)).Nodup) (ordinals : Bool) {n : Nat} (hle : j.depth ≤ n) :
    ∃ m body r, n = m + 1 ∧
      (∀ (α : Type) (next : κ × Json → Option α),
        j.tagged? kinds name ordinals >>= next = next (kind, body)) ∧
      body.record? (fields.map (·.name)) = some r ∧ fields.Forall (r.Holds (m + 1)) := by
  obtain ⟨body, hbody, hs, hdepth⟩ := h.tagged? hkind htag ordinals
  obtain ⟨m, r, hm, hr, hold⟩ := hs.read hn (Nat.le_trans hdepth hle)
  refine ⟨m, body, r, hm, fun α next => ?_, hr, hold⟩
  rw [hbody]
  rfl

namespace Record

variable {α : Type} {r : Record} {bound : Nat} {name : String} {read : Json → Option α}

/-- A required field is read when its content is. -/
theorem Holds.required? {content : Spelling} {a : α} (h : r.Holds bound (.required name content))
    (hread : ∀ j, content j → j.depth < bound → read j = some a) :
      r.required? name read = some a := by
  unfold Holds Field.required at h
  unfold Record.required?
  cases hl : r.lookup name with
  | none =>
    rw [hl] at h
    exact h.elim
  | some j =>
    rw [hl] at h
    exact hread j h.1 h.2

/-- A field with a default is read, or its default taken. -/
theorem Holds.defaulted? {content : Spelling} {isDefault : Prop} {value a : α}
    (h : r.Holds bound ⟨name, content, isDefault⟩) (hvalue : isDefault → value = a)
    (hread : ∀ j, content j → j.depth < bound → read j = some a) :
      r.defaulted? name value read = some a := by
  unfold Holds at h
  unfold Record.defaulted?
  dsimp only at h
  cases hl : r.lookup name with
  | none =>
    rw [hl] at h
    exact congrArg some (hvalue h)
  | some j =>
    rw [hl] at h
    exact hread j h.1 h.2

/-- An optional field is read when it is there and not `null`. -/
theorem Holds.optional? {content : α → Spelling} {a : Option α}
    (h : r.Holds bound (.optional name (a.map content))) (hnull : read .null = none)
    (hread : ∀ x, a = some x → ∀ j, content x j → j.depth < bound → read j = some x) :
    r.optional? name read = some a := by
  refine h.defaulted? (fun hd => ?_) fun j hj hlt => ?_
  · exact (Option.map_eq_none_iff.mp hd).symm
  · cases a with
    | none =>
      have hj : j = .null := hj
      rw [hj]
      rfl
    | some x =>
      have hx := hread x rfl j hj hlt
      cases j with
      | null => exact nomatch hnull.symm.trans hx
      | _ => exact (congrArg (Option.map some) hx).trans rfl

end Record

theorem listOf?_of_spells {α : Type} {read : Json → Option α} {content : α → Spelling}
    {xs : List α} {j : Json} {bound : Nat} (h : Spelling.list (xs.map content) j)
    (hlt : j.depth < bound)
    (hread : ∀ x ∈ xs, ∀ j, content x j → j.depth < bound → read j = some x) :
      listOf? read j = some xs := by
  obtain ⟨items, rfl, hitems⟩ := h
  have hdepth : ∀ j ∈ items, j.depth < bound :=
    fun j hj => Nat.lt_trans (depth_lt_of_mem_items hj) hlt
  have hall : items.mapM read = some xs := by
    clear hlt
    induction xs generalizing items with
    | nil =>
      cases hitems
      rfl
    | cons x xs ih =>
      obtain _ | ⟨hx, hrest⟩ := hitems
      rename_i j items
      have hj := hread x List.mem_cons_self j hx (hdepth j List.mem_cons_self)
      have hjs := ih (fun x hm => hread x (List.mem_cons_of_mem _ hm)) items hrest
        fun j hm => hdepth j (List.mem_cons_of_mem _ hm)
      rw [List.mapM_cons, hj, hjs]
      rfl
  exact hall

theorem Record.Holds.list? {α : Type} {r : Record} {bound : Nat} {name : String}
    {read : Json → Option α} {content : α → Spelling} {xs : List α}
    (h : r.Holds bound (.list name (xs.map content)))
    (hread : ∀ x ∈ xs, ∀ j, content x j → j.depth < bound → read j = some x) :
      r.list? name read = some xs := by
  refine h.defaulted? (fun hd => ?_) fun j hj hlt => listOf?_of_spells hj hlt hread
  exact (List.map_eq_nil_iff.mp hd).symm

end Json

end MethodFlow
