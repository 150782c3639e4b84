import MethodFlow.Proofs.Decoding
import MethodFlow.Proofs.Rendering

/-!
# The canonical spelling of a tree

Writing gives each node as a keyed object with all its fields in order. That is one of the spellings
of the node, and what it holds for the fields spells them by induction.
-/

namespace MethodFlow

open Json (Field Spelling)

namespace Json

theorem Spelling.list_map {α : Type} {content : α → Spelling} {write : α → Json} {xs : List α}
    (h : ∀ x ∈ xs, content x (write x)) :
      Spelling.list (xs.map content) (.array (xs.map write)) := by
  refine ⟨_, rfl, ?_⟩
  rw [List.forall₂_map_left_iff, List.forall₂_map_right_iff, List.forall₂_same]
  exact h

theorem Spelling.list_ofTexts (texts : List String) :
    Spelling.list (texts.map .text) (.ofTexts texts) :=
  Spelling.list_map fun _ _ => rfl

theorem Spelling.option_ofOption {α : Type} {content : α → Spelling} {write : α → Json}
    {a : Option α} (h : ∀ x, a = some x → content x (write x)) :
      Spelling.option (a.map content) (.ofOption write a) := by
  cases a with
  | none => rfl
  | some x => exact h x rfl

end Json

theorem Span.spelled_toJson (s : Span) : s.Spelled s.toJson :=
  Json.spellsRecord_ofRecord (.cons rfl (.cons rfl (.cons rfl (.cons rfl .nil))))

/-! ## Expressions -/

theorem Expr.listToJson_eq (es : List Expr) : Expr.listToJson es = es.map Expr.toJson := by
  induction es with
  | nil => rw [Expr.listToJson, List.map_nil]
  | cons e es ih => rw [Expr.listToJson, List.map_cons, ih]

/-- The fields of an expression end with its span. -/
theorem Span.forall₂_toJson (s : Span) :
    List.Forall₂ (fun (f : Field) j => f.content j) [.span s] [s.toJson] :=
  .cons s.spelled_toJson .nil

theorem Expr.list_listToJson {es : List Expr} (h : ∀ e ∈ es, e.Spelled e.toJson) :
    Spelling.list (Expr.listSpelled es) (.array (Expr.listToJson es)) := by
  rw [Expr.listSpelled_eq, Expr.listToJson_eq]
  exact Json.Spelling.list_map h

/-- An expression is spelled by the JSON it writes. -/
theorem Expr.spelled_toJson (e : Expr) : e.Spelled e.toJson := by
  induction e using Expr.induct with
  | name ident span => exact Json.spellsTagged_ofTagged (.cons rfl span.forall₂_toJson)
  | this span => exact Json.spellsTagged_ofTagged span.forall₂_toJson
  | literal value span => exact Json.spellsTagged_ofTagged (.cons rfl span.forall₂_toJson)
  | binary op left right span ihl ihr =>
    exact Json.spellsTagged_ofTagged (.cons rfl (.cons ihl (.cons ihr span.forall₂_toJson)))
  | unary op arg span ih | cast ty inner span ih =>
    exact Json.spellsTagged_ofTagged (.cons rfl (.cons ih span.forall₂_toJson))
  | assign op target value span iht ihv =>
    exact Json.spellsTagged_ofTagged (.cons rfl (.cons iht (.cons ihv span.forall₂_toJson)))
  | cond test cons alt span iht ihc iha =>
    exact Json.spellsTagged_ofTagged (.cons iht (.cons ihc (.cons iha span.forall₂_toJson)))
  | call receiver method args throws span ihr iha =>
    have hargs := Expr.list_listToJson iha
    have hthrows := Json.Spelling.list_ofTexts throws
    cases receiver with
    | none =>
      exact Json.spellsTagged_ofTagged
        (.cons rfl (.cons rfl (.cons hargs (.cons hthrows span.forall₂_toJson))))
    | some receiver =>
      exact Json.spellsTagged_ofTagged
        (.cons (ihr receiver rfl) (.cons rfl (.cons hargs (.cons hthrows span.forall₂_toJson))))
  | new cls args throws span ih =>
    exact Json.spellsTagged_ofTagged (.cons rfl (.cons (Expr.list_listToJson ih)
      (.cons (Json.Spelling.list_ofTexts throws) span.forall₂_toJson)))
  | newArray elem dims init span ihd ihi =>
    exact Json.spellsTagged_ofTagged (.cons rfl (.cons (Expr.list_listToJson ihd)
      (.cons (Expr.list_listToJson ihi) span.forall₂_toJson)))
  | member object ident span ih | instanceOf inner ty span ih =>
    exact Json.spellsTagged_ofTagged (.cons ih (.cons rfl span.forall₂_toJson))
  | index array offset span iha iho =>
    exact Json.spellsTagged_ofTagged (.cons iha (.cons iho span.forall₂_toJson))
  | lambda span => exact Json.spellsTagged_ofTagged span.forall₂_toJson
  | paren inner span ih => exact Json.spellsTagged_ofTagged (.cons ih span.forall₂_toJson)

theorem Expr.option_toJson (e : Option Expr) :
    Spelling.option (e.map Expr.Spelled) (.ofOption Expr.toJson e) :=
  Json.Spelling.option_ofOption fun e _ => e.spelled_toJson

theorem Json.Spelling.option_texts (s : Option String) :
    Spelling.option (s.map .text) (.ofOption .string s) :=
  Json.Spelling.option_ofOption fun _ _ => rfl

/-! ## Declarations and labels -/

theorem LocalVar.forall₂_values (d : LocalVar) :
    List.Forall₂ (fun (f : Field) j => f.content j) d.spelledFields d.values :=
  .cons rfl
    (.cons (Json.Spelling.option_texts d.ty)
      (.cons (Expr.option_toJson d.init) d.span.forall₂_toJson))

theorem LocalVar.spelled_toJson (d : LocalVar) : d.Spelled d.toJson :=
  Json.spellsRecord_ofRecord d.forall₂_values

theorem CaseLabel.spelled_toJson (label : CaseLabel) : label.Spelled label.toJson := by
  cases label with
  | case values =>
    exact Json.spellsTagged_ofTagged
      (.cons (Json.Spelling.list_map fun e _ => e.spelled_toJson) .nil)
  | default => exact Json.spellsTagged_ofTagged .nil

/-! ## Statements -/

theorem Stmt.listToJson_eq (stmts : List Stmt) : Stmt.listToJson stmts = stmts.map Stmt.toJson := by
  induction stmts with
  | nil => rw [Stmt.listToJson, List.map_nil]
  | cons s stmts ih => rw [Stmt.listToJson, List.map_cons, ih]

theorem Stmt.list_listToJson {stmts : List Stmt} (h : ∀ s ∈ stmts, s.Spelled s.toJson) :
    Spelling.list (Stmt.listSpelled stmts) (.array (Stmt.listToJson stmts)) := by
  rw [Stmt.listSpelled_eq, Stmt.listToJson_eq]
  exact Json.Spelling.list_map h

theorem Block.spelled_toJson_of {b : Block} (ih : ∀ s ∈ b.stmts, s.Spelled s.toJson) :
    b.Spelled b.toJson := by
  obtain ⟨stmts, span⟩ := b
  rw [Block.Spelled, Block.toJson]
  exact Json.spellsRecord_ofRecord (.cons (Stmt.list_listToJson ih) span.forall₂_toJson)

theorem CaseGroup.list_listToJson {groups : List CaseGroup}
    (ih : ∀ group ∈ groups, ∀ s ∈ group.body, s.Spelled s.toJson) :
    Spelling.list (CaseGroup.listSpelled groups) (.array (CaseGroup.listToJson groups)) := by
  refine ⟨_, rfl, ?_⟩
  induction groups with
  | nil =>
    rw [CaseGroup.listSpelled, CaseGroup.listToJson]
    exact .nil
  | cons group groups ihg =>
    obtain ⟨labels, body, arrow, span⟩ := group
    rw [CaseGroup.listSpelled, CaseGroup.listToJson, CaseGroup.Spelled]
    refine .cons ?_ (ihg fun group hg => ih group (List.mem_cons_of_mem _ hg))
    exact Json.spellsRecord_ofRecord
      (.cons (Json.Spelling.list_map fun label _ => label.spelled_toJson)
      (.cons (Stmt.list_listToJson (ih _ List.mem_cons_self)) (.cons rfl span.forall₂_toJson)))

theorem CatchClause.list_listToJson {clauses : List CatchClause}
    (ih : ∀ clause ∈ clauses, ∀ s ∈ clause.body.stmts, s.Spelled s.toJson) :
    Spelling.list (CatchClause.listSpelled clauses) (.array (CatchClause.listToJson clauses)) := by
  refine ⟨_, rfl, ?_⟩
  induction clauses with
  | nil =>
    rw [CatchClause.listSpelled, CatchClause.listToJson]
    exact .nil
  | cons clause clauses ihc =>
    obtain ⟨param, types, body, span⟩ := clause
    rw [CatchClause.listSpelled, CatchClause.listToJson, CatchClause.Spelled]
    refine .cons ?_ (ihc fun clause hc => ih clause (List.mem_cons_of_mem _ hc))
    exact Json.spellsRecord_ofRecord (.cons rfl (.cons (Json.Spelling.list_ofTexts types)
      (.cons (Block.spelled_toJson_of (ih _ List.mem_cons_self)) span.forall₂_toJson)))

theorem Stmt.spelled_toJson (s : Stmt) : s.Spelled s.toJson := by
  induction s using Stmt.induct with
  | block b ih =>
    obtain ⟨stmts, span⟩ := b
    exact Json.spellsTagged_ofTagged (.cons (Stmt.list_listToJson ih) span.forall₂_toJson)
  | expr e span => exact Json.spellsTagged_ofTagged (.cons e.spelled_toJson span.forall₂_toJson)
  | localVar decl => exact Json.spellsTagged_ofTagged decl.forall₂_values
  | ifStmt test cons alt span ihc iha =>
    cases alt with
    | none =>
      exact Json.spellsTagged_ofTagged
        (.cons test.spelled_toJson (.cons ihc (.cons rfl span.forall₂_toJson)))
    | some alt =>
      exact Json.spellsTagged_ofTagged
        (.cons test.spelled_toJson (.cons ihc (.cons (iha alt rfl) span.forall₂_toJson)))
  | whileStmt test body span ih =>
    exact Json.spellsTagged_ofTagged (.cons test.spelled_toJson (.cons ih span.forall₂_toJson))
  | doWhile body test span ih =>
    exact Json.spellsTagged_ofTagged (.cons ih (.cons test.spelled_toJson span.forall₂_toJson))
  | forStmt init test update body span ihi ihb =>
    exact Json.spellsTagged_ofTagged
      (.cons (Stmt.list_listToJson ihi) (.cons (Expr.option_toJson test)
      (.cons (Json.Spelling.list_map fun e _ => e.spelled_toJson) (.cons ihb span.forall₂_toJson))))
  | forEach var iterable body span ih =>
    exact Json.spellsTagged_ofTagged
      (.cons rfl (.cons iterable.spelled_toJson (.cons ih span.forall₂_toJson)))
  | switch selector groups span ih =>
    exact Json.spellsTagged_ofTagged
      (.cons selector.spelled_toJson (.cons (CaseGroup.list_listToJson ih) span.forall₂_toJson))
  | tryStmt resources block catches finalizer span ihb ihc ihf =>
    have hresources :
        Spelling.list (resources.map LocalVar.Spelled) (.array (resources.map LocalVar.toJson)) :=
      Json.Spelling.list_map fun d _ => d.spelled_toJson
    have hblock := Block.spelled_toJson_of ihb
    have hcatches := CatchClause.list_listToJson ihc
    cases finalizer with
    | none =>
      exact Json.spellsTagged_ofTagged
        (.cons hresources (.cons hblock (.cons hcatches (.cons rfl span.forall₂_toJson))))
    | some final =>
      exact Json.spellsTagged_ofTagged (.cons hresources (.cons hblock
        (.cons hcatches (.cons (Block.spelled_toJson_of (ihf final rfl)) span.forall₂_toJson))))
  | labeled label body span ih =>
    exact Json.spellsTagged_ofTagged (.cons rfl (.cons ih span.forall₂_toJson))
  | breakStmt label span | continueStmt label span =>
    exact Json.spellsTagged_ofTagged (.cons (Json.Spelling.option_texts label) span.forall₂_toJson)
  | returnStmt arg span =>
    exact Json.spellsTagged_ofTagged (.cons (Expr.option_toJson arg) span.forall₂_toJson)
  | throwStmt arg span =>
    exact Json.spellsTagged_ofTagged (.cons arg.spelled_toJson span.forall₂_toJson)
  | synchronized lock body span ih =>
    exact Json.spellsTagged_ofTagged
      (.cons lock.spelled_toJson (.cons (Block.spelled_toJson_of ih) span.forall₂_toJson))
  | assertStmt test message span =>
    exact Json.spellsTagged_ofTagged
      (.cons test.spelled_toJson (.cons (Expr.option_toJson message) span.forall₂_toJson))
  | localClass ident span => exact Json.spellsTagged_ofTagged (.cons rfl span.forall₂_toJson)
  | empty span | missing span => exact Json.spellsTagged_ofTagged span.forall₂_toJson

/-! ## Methods and units -/

theorem Method.spelled_toJson (m : Method) : m.Spelled m.toJson := by
  have hbody : Spelling.option (m.body.map Block.Spelled) (.ofOption Block.toJson m.body) :=
    Json.Spelling.option_ofOption fun b _ => Block.spelled_toJson_of fun s _ => s.spelled_toJson
  exact Json.spellsRecord_ofRecord (.cons rfl (.cons rfl (.cons hbody m.span.forall₂_toJson)))

/-- A unit is spelled by the JSON it writes. -/
theorem CompilationUnit.spelled_toJson (u : CompilationUnit) : u.Spelled u.toJson := by
  have hmethods :
      Spelling.list (u.methods.map Method.Spelled) (.array (u.methods.map Method.toJson)) :=
    Json.Spelling.list_map fun m _ => m.spelled_toJson
  exact Json.spellsRecord_ofRecord (.cons rfl (.cons hmethods .nil))

/-! ## Its numbers

The only numbers in the canonical spelling are those of spans, so a text can give them all back.
-/

namespace Json

theorem exact_ofRecord {names : List String} {values : List Json} (h : ∀ j ∈ values, j.Exact) :
    (ofRecord names values).Exact :=
  exact_object.mpr fun e he => h e.2 (List.of_mem_zip he).2

theorem exact_ofTagged {tag : String} {names : List String} {values : List Json}
    (h : ∀ j ∈ values, j.Exact) : (ofTagged tag names values).Exact :=
  exact_object.mpr (List.forall_mem_cons.mpr ⟨trivial, fun e he => h e.2 (List.of_mem_zip he).2⟩)

@[simp] theorem exact_ofTexts (texts : List String) : (ofTexts texts).Exact := by
  simp [ofTexts]

@[simp] theorem exact_ofOption {α : Type} {write : α → Json} {a : Option α} :
    (ofOption write a).Exact ↔ ∀ x, a = some x → (write x).Exact := by
  cases a <;> simp [ofOption]

end Json

open Json (exact_ofRecord exact_ofTagged)

@[simp] theorem Span.exact_toJson (s : Span) : s.toJson.Exact :=
  exact_ofRecord (by simp)

/-- No number in the JSON of an expression loses digits. -/
theorem Expr.exact_toJson (e : Expr) : e.toJson.Exact := by
  induction e using Expr.induct with
  | call receiver method args throws span ihr iha =>
    cases receiver with
    | none => exact exact_ofTagged (by simpa [Expr.listToJson_eq] using iha)
    | some receiver =>
      have hreceiver := ihr receiver rfl
      exact exact_ofTagged (by simpa [Expr.listToJson_eq, hreceiver] using iha)
  | new cls args throws span ih => exact exact_ofTagged (by simpa [Expr.listToJson_eq] using ih)
  | newArray elem dims init span ihd ihi =>
    exact exact_ofTagged (by simpa [Expr.listToJson_eq] using ⟨ihd, ihi⟩)
  | _ => exact exact_ofTagged (by simp_all)

attribute [local simp] Expr.exact_toJson

theorem LocalVar.exact_values (d : LocalVar) : ∀ j ∈ d.values, j.Exact := by
  simp [LocalVar.values]

theorem CaseLabel.exact_toJson (label : CaseLabel) : label.toJson.Exact := by
  cases label <;> exact exact_ofTagged (by simp)

theorem Block.exact_toJson_of {b : Block} (ih : ∀ s ∈ b.stmts, s.toJson.Exact) :
    b.toJson.Exact := by
  obtain ⟨stmts, span⟩ := b
  exact exact_ofRecord (by simpa [Stmt.listToJson_eq] using ih)

theorem CaseGroup.exact_listToJson {groups : List CaseGroup}
    (ih : ∀ group ∈ groups, ∀ s ∈ group.body, s.toJson.Exact) :
    ∀ j ∈ CaseGroup.listToJson groups, j.Exact := by
  induction groups with
  | nil => simp [CaseGroup.listToJson]
  | cons group groups ihg =>
    obtain ⟨labels, body, arrow, span⟩ := group
    obtain ⟨hbody, hrest⟩ := List.forall_mem_cons.mp ih
    rw [CaseGroup.listToJson]
    refine List.forall_mem_cons.mpr ⟨exact_ofRecord ?_, ihg hrest⟩
    simpa [CaseLabel.exact_toJson, Stmt.listToJson_eq] using hbody

theorem CatchClause.exact_listToJson {clauses : List CatchClause}
    (ih : ∀ clause ∈ clauses, ∀ s ∈ clause.body.stmts, s.toJson.Exact) :
    ∀ j ∈ CatchClause.listToJson clauses, j.Exact := by
  induction clauses with
  | nil => simp [CatchClause.listToJson]
  | cons clause clauses ihc =>
    obtain ⟨param, types, body, span⟩ := clause
    obtain ⟨hbody, hrest⟩ := List.forall_mem_cons.mp ih
    rw [CatchClause.listToJson]
    refine List.forall_mem_cons.mpr ⟨exact_ofRecord ?_, ihc hrest⟩
    simp [Block.exact_toJson_of hbody]

/-- No number in the JSON of a statement loses digits. -/
theorem Stmt.exact_toJson (s : Stmt) : s.toJson.Exact := by
  induction s using Stmt.induct with
  | block b ih =>
    obtain ⟨stmts, span⟩ := b
    exact exact_ofTagged (by simpa [Stmt.listToJson_eq] using ih)
  | localVar decl => exact exact_ofTagged decl.exact_values
  | ifStmt test cons alt span ihc iha =>
    cases alt with
    | none => exact exact_ofTagged (by simp [ihc])
    | some alt => exact exact_ofTagged (by simp [ihc, iha alt rfl])
  | forStmt init test update body span ihi ihb =>
    exact exact_ofTagged (by simpa [Stmt.listToJson_eq, ihb] using ihi)
  | switch selector groups span ih =>
    have hgroups := CaseGroup.exact_listToJson ih
    exact exact_ofTagged (by simpa using hgroups)
  | tryStmt resources block catches finalizer span ihb ihc ihf =>
    have hresources : ∀ d ∈ resources, d.toJson.Exact := fun d _ => exact_ofRecord d.exact_values
    have hblock := Block.exact_toJson_of ihb
    have hcatches := CatchClause.exact_listToJson ihc
    cases finalizer with
    | none => exact exact_ofTagged (by simpa [hblock] using ⟨hresources, hcatches⟩)
    | some final =>
      have hfinal := Block.exact_toJson_of (ihf final rfl)
      exact exact_ofTagged (by simpa [hblock, hfinal] using ⟨hresources, hcatches⟩)
  | synchronized lock body span ih => exact exact_ofTagged (by simp [Block.exact_toJson_of ih])
  | _ => exact exact_ofTagged (by simp_all)

/-- No number in the JSON of a unit loses digits. -/
theorem CompilationUnit.exact_toJson (u : CompilationUnit) : u.toJson.Exact := by
  have hmethod : ∀ m : Method, m.toJson.Exact := by
    intro m
    have hbody : ∀ b : Block, b.toJson.Exact := fun b => Block.exact_toJson_of fun s _ =>
      s.exact_toJson
    exact exact_ofRecord (by simp [hbody])
  exact exact_ofRecord (by simp [hmethod])

end MethodFlow
