import MethodFlow.Proofs.Canonical
import MethodFlow.Proofs.Interests

/-!
# Units read from text

The text of a unit is read for the known fields of units, methods, blocks and spans only. What is
kept of a spelling of such a node is a spelling of it as well: entries of no interest belong to no
field, and what is kept of an entry that belongs to a field still spells that field. So a text gives
the unit that its value spells.
-/

namespace MethodFlow

open Json (Field Spelling SpellsRecord Interest)

namespace Json

/-! ## Interest in everything -/

mutual

/-- Interest in everything keeps everything. -/
theorem Interest.keep_whole : ∀ j : Json, Interest.whole.keep j = j
  | .array js => congrArg Json.array (Interest.keepItems_whole 0 js)
  | .object es => congrArg Json.object (Interest.keepEntries_whole es)
  | .null => rfl
  | .bool _ => rfl
  | .number _ => rfl
  | .string _ => rfl

theorem Interest.keepItems_whole : ∀ (k : Nat) (items : List Json),
    Interest.whole.keepItems k items = items
  | _, [] => rfl
  | k, j :: rest =>
    congrArg₂ List.cons (Interest.keep_whole j) (Interest.keepItems_whole (k + 1) rest)

theorem Interest.keepEntries_whole :
    ∀ entries : List (String × Json), Interest.whole.keepEntries entries = entries
  | [] => rfl
  | (key, j) :: rest =>
    congrArg₂ (fun j' rest' => (key, j') :: rest') (Interest.keep_whole j)
      (Interest.keepEntries_whole rest)

end

theorem Interest.keepItems_items (each : Interest) (k : Nat) (items : List Json) :
    (Interest.items each).keepItems k items = items.map each.keep := by
  induction items generalizing k with
  | nil => rfl
  | cons j items ih => exact congrArg (_ :: ·) (ih (k + 1))

/-! ## Interest in the fields of a record -/

/-- What an interest keeps of a value that spells something spells it, too. -/
def Interest.Keeps (i : Interest) (content : Spelling) : Prop := ∀ j, content j → content (i.keep j)

theorem Interest.whole_keeps (content : Spelling) : Interest.whole.Keeps content := by
  intro j hj
  rw [Interest.keep_whole]
  exact hj

theorem Interest.items_keeps {each : Interest} {members : List Spelling}
    (h : ∀ m ∈ members, each.Keeps m) :
    (Interest.items each).Keeps (.list members) := by
  rintro _ ⟨items, rfl, hitems⟩
  refine ⟨items.map each.keep, congrArg Json.array (Interest.keepItems_items each 0 items), ?_⟩
  induction hitems with
  | nil => exact .nil
  | cons hj _ ih =>
    rw [List.forall_mem_cons] at h
    exact .cons (h.1 _ hj) (ih h.2)

theorem Interest.option_keeps {i : Interest} {content : Option Spelling}
    (h : ∀ spelling, content = some spelling → i.Keeps spelling) : i.Keeps (.option content) := by
  intro j hj
  cases content with
  | none =>
    rw [show j = .null from hj]
    rfl
  | some spelling => exact h spelling rfl j hj

/-- The interest in each field, in order, keeps what spells it. -/
def KeepsFields (known : List (String × Interest)) (fields : List Field) : Prop :=
  List.Forall₂ (fun k (f : Field) => k.1 = f.name ∧ k.2.Keeps f.content) known fields

variable {known : List (String × Interest)} {fields : List Field}

theorem KeepsFields.names_eq (h : KeepsFields known fields) :
    known.map (·.1) = fields.map (·.name) := by
  induction h with
  | nil => rfl
  | cons hk _ ih => exact congrArg₂ List.cons hk.1 ih

/-- Items from some position on, of which the fields before are not part. -/
theorem Items.keepItems {items : List Json} (hs : Items fields items)
    {before : List (String × Interest)} (h : KeepsFields known fields) :
    Items fields ((Interest.fields (before ++ known)).keepItems before.length items) := by
  induction hs generalizing before known with
  | stop hd => exact .stop hd
  | @item f fields j items hj _ ih =>
    obtain _ | ⟨hk, hrest⟩ := h
    rename_i k known
    have hitem : (Interest.fields (before ++ k :: known)).item before.length = k.2 := by
      rw [Interest.item, List.getElem?_append_right (Nat.le_refl _), Nat.sub_self]
      rfl
    rw [Interest.keepItems, hitem]
    refine .item (hk.2 j hj) ?_
    have hnext := @ih known (before ++ [k]) hrest
    rw [List.append_assoc, List.length_append] at hnext
    exact hnext

theorem lookup_of_keepsFields (h : KeepsFields known fields) (hn : (fields.map (·.name)).Nodup) :
    ∀ f ∈ fields, ∃ i, known.lookup f.name = some i ∧ i.Keeps f.content := by
  induction h with
  | nil => exact nofun
  | @cons k f₀ known fields hk _ ih =>
    rw [List.map_cons, List.nodup_cons] at hn
    intro f hf
    by_cases hname : f.name = k.1
    · rcases List.mem_cons.mp hf with rfl | hf
      · exact ⟨k.2, by rw [List.lookup_cons, hname, beq_self_eq_true], hk.2⟩
      · exact absurd (List.mem_map.mpr ⟨f, hf, hname.trans hk.1⟩) hn.1
    · rcases List.mem_cons.mp hf with rfl | hf
      · exact absurd hk.1.symm hname
      · rw [List.lookup_cons, beq_false_of_ne hname]
        exact ih hn.2 f hf

theorem Entries.keepEntries {own : List (String × Json)} (hs : Entries fields own)
    (h : ∀ f ∈ fields, ∃ i, known.lookup f.name = some i ∧ i.Keeps f.content) :
    Entries fields (own.filterMap (Interest.fields known).keepPair?) := by
  induction hs with
  | nil => exact .nil
  | @keep f fields j entries hj _ ih =>
    rw [List.forall_mem_cons] at h
    obtain ⟨⟨i, hi, hkeeps⟩, hrest⟩ := h
    have hentry : (Interest.fields known).keepPair? (f.name, j) = some (f.name, i.keep j) := by
      rw [Interest.keepPair?, Interest.field?, hi]
      rfl
    rw [List.filterMap_cons_some hentry]
    exact .keep (hkeeps j hj) (ih hrest)
  | @drop f fields entries hd _ ih => exact .drop hd (ih (List.forall_mem_cons.mp h).2)

/-- Interest in the fields of a record keeps a spelling of the record. -/
theorem SpellsRecord.keep (h : KeepsFields known fields) (hn : (fields.map (·.name)).Nodup) :
    (Interest.fields known).Keeps (SpellsRecord fields) := by
  intro j hj
  cases hj with
  | @keyed own extra entries hs unknown perm =>
    have hextra : extra.filterMap (Interest.fields known).keepPair? = [] := by
      refine List.filterMap_eq_nil_iff.mpr fun e he => ?_
      have hnone : known.lookup e.1 = none := by
        rw [List.lookup_eq_none_iff]
        intro k hk
        rw [bne_iff_ne]
        intro heq
        exact unknown e he (h.names_eq ▸ heq ▸ List.mem_map.mpr ⟨k, hk, rfl⟩)
      rw [Interest.keepPair?, Interest.field?, hnone]
      rfl
    have hp := perm.filterMap (Interest.fields known).keepPair?
    rw [List.filterMap_append, hextra] at hp
    rw [Interest.keep, Interest.keepEntries_eq]
    exact .keyed (hs.keepEntries (lookup_of_keepsFields h hn)) (List.forall_mem_nil _) hp
  | @positional items hs => exact .positional (@Items.keepItems known fields items hs [] h)

end Json

/-! ## Units -/

theorem Span.interest_keeps (s : Span) : Span.interest.Keeps s.Spelled := by
  have hw := Interest.whole_keeps
  have hnodup : Span.fields.Nodup := by decide
  exact SpellsRecord.keep
    (.cons ⟨rfl, hw _⟩ (.cons ⟨rfl, hw _⟩ (.cons ⟨rfl, hw _⟩ (.cons ⟨rfl, hw _⟩ .nil)))) hnodup

theorem Block.interest_keeps (b : Block) : Block.interest.Keeps b.Spelled := by
  obtain ⟨stmts, span⟩ := b
  have hstmts : (Interest.items .whole).Keeps (.list (Stmt.listSpelled stmts)) :=
    Interest.items_keeps fun m _ => Interest.whole_keeps m
  have hnodup : StmtKind.block.fields.Nodup := by decide
  exact SpellsRecord.keep (.cons ⟨rfl, hstmts⟩ (.cons ⟨rfl, span.interest_keeps⟩ .nil)) hnodup

theorem Method.interest_keeps (m : Method) : Method.interest.Keeps m.Spelled := by
  have hw := Interest.whole_keeps
  have hbody : Block.interest.Keeps (.option (m.body.map Block.Spelled)) := by
    refine Interest.option_keeps fun spelling hs => ?_
    obtain ⟨b, -, rfl⟩ := Option.map_eq_some_iff.mp hs
    exact b.interest_keeps
  have hnodup : Method.fields.Nodup := by decide
  exact SpellsRecord.keep (.cons ⟨rfl, hw _⟩ (.cons ⟨rfl, hw _⟩
    (.cons ⟨rfl, hbody⟩ (.cons ⟨rfl, m.span.interest_keeps⟩ .nil)))) hnodup

/-- What a unit is read from is kept by the interest in units. -/
theorem CompilationUnit.interest_keeps (u : CompilationUnit) :
    CompilationUnit.interest.Keeps u.Spelled := by
  have hmethods :
      (Interest.items Method.interest).Keeps (.list (u.methods.map Method.Spelled)) := by
    refine Interest.items_keeps fun spelling hs => ?_
    obtain ⟨m, -, rfl⟩ := List.mem_map.mp hs
    exact m.interest_keeps
  have hnodup : CompilationUnit.fields.Nodup := by decide
  exact SpellsRecord.keep (.cons ⟨rfl, Interest.whole_keeps _⟩ (.cons ⟨rfl, hmethods⟩ .nil)) hnodup

/-- A text that spells a unit, and nests no deeper than texts may, reads as the unit. -/
theorem CompilationUnit.parse?_of_spelled {u : CompilationUnit} {text : String} {j : Json}
    (h : Json.read? none .whole text = some j) (hj : u.Spelled j) (hdepth : j.depth ≤ depthLimit) :
    CompilationUnit.parse? text = some u := by
  rw [CompilationUnit.parse?, Json.read?_keep CompilationUnit.interest h hdepth, Option.bind_some]
  exact CompilationUnit.ofJson?_of_spelled (u.interest_keeps j hj)

/-- The canonical text of a unit, unless it nests deeper than texts may, reads as the unit. -/
theorem CompilationUnit.parse?_render {u : CompilationUnit} (h : u.toJson.depth ≤ depthLimit) :
    CompilationUnit.parse? u.toJson.render = some u :=
  CompilationUnit.parse?_of_spelled (Json.read?_render u.toJson u.exact_toJson) u.spelled_toJson h

/-- All spellings of a unit read as the unit, the canonical one among them. So do texts of them that
nest no deeper than texts may, and the text that is written for the unit is one of these. -/
theorem CompilationUnit.decode_spellings (u : CompilationUnit) :
    CompilationUnit.ofJson? u.toJson = some u ∧
      (∀ j, u.Spelled j → CompilationUnit.ofJson? j = some u) ∧
      (∀ text j, Json.read? none .whole text = some j → u.Spelled j → j.depth ≤ depthLimit →
        CompilationUnit.parse? text = some u) ∧
      (u.toJson.depth ≤ depthLimit → CompilationUnit.parse? u.toJson.render = some u) :=
  ⟨CompilationUnit.ofJson?_of_spelled u.spelled_toJson,
    fun _ hj => CompilationUnit.ofJson?_of_spelled hj,
    fun _ _ h hj hdepth => CompilationUnit.parse?_of_spelled h hj hdepth,
    CompilationUnit.parse?_render⟩

/-- A unit with one method that returns at once. -/
def CompilationUnit.oneReturn : CompilationUnit where
  filename := "A.java"
  methods := [{ name := "f", body := some ⟨[.returnStmt none .unknown], .unknown⟩ }]

/-- The unit is a list, its method an object that has an entry too many and leaves out two fields,
and the rest are lists again. -/
def CompilationUnit.oneReturnText : String :=
  "[\"A.java\",[\x7b\"note\":[],\"body\":[[[\"return\"]]],\"name\":\"f\"\x7d]]"

/-- A unit with one `return` is read from its text. -/
theorem CompilationUnit.decode_spellings_oneReturn :
    CompilationUnit.parse? oneReturnText = some oneReturn := by
  have htokens : Json.tokens? oneReturnText =
    some [.openArray, .string (some "A.java"), .comma, .openArray,
      .openObject, .string (some "note"), .colon, .openArray, .closeArray, .comma,
        .string (some "body"), .colon,
      .openArray, .openArray, .openArray, .string (some "return"), .closeArray, .closeArray,
        .closeArray, .comma,
      .string (some "name"), .colon, .string (some "f"), .closeObject, .closeArray,
        .closeArray] := by
    decide +kernel
  have hread : Json.read? none .whole oneReturnText =
    some (.array [.string "A.java", .array [.object
      [("note", .array []), ("body", .array [.array [.array [.string "return"]]]),
        ("name", .string "f")]]]) := by
    rw [Json.read?, htokens]
    rfl
  have hreturn : (Stmt.returnStmt none .unknown).Spelled (.array [.string "return"]) :=
    .positional (.stop (by simp [Field.optional, Field.span]))
  have hbody : (Block.mk [.returnStmt none .unknown] .unknown).Spelled
      (.array [.array [.array [.string "return"]]]) :=
    .positional (.item ⟨_, rfl, .cons hreturn .nil⟩ (.stop (by simp [Field.span])))
  have hmethod :
      Method.Spelled { name := "f", body := some ⟨[.returnStmt none .unknown], .unknown⟩ } (.object
      [("note", .array []), ("body", .array [.array [.array [.string "return"]]]),
        ("name", .string "f")]) := by
    refine @SpellsRecord.keyed _ _ [("note", .array [])] _
      (.keep rfl (.drop rfl (.keep hbody (.drop rfl .nil)))) ?_
      (List.reverse_perm _).symm
    simp [Field.required, Field.optional, Field.span]
  refine (decode_spellings oneReturn).2.2.1 oneReturnText _ hread ?_ (by decide)
  exact .positional (.item rfl (.item ⟨_, rfl, .cons hmethod .nil⟩ (.stop (List.forall_mem_nil _))))

end MethodFlow
