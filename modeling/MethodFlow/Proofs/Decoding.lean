import MethodFlow.Proofs.Induction
import MethodFlow.Proofs.Spellings

/-!
# Spellings of trees

`Expr.Spelled`, `Stmt.Spelled` and their like say which values spell a node: at every node, on its
own, a keyed object or the list of its fields. They name the fields in their order and say which of
them have a default; they do not mention reading.

The readers find a node from any of its spellings, given an allowance that covers the nesting of the
value. That is proved for all kinds of nodes in one way (`Json.Reads`): a record is spelled by its
fields, the fields are read by induction, and the values found for them nest less deeply than the
whole.
-/

namespace MethodFlow

open Json (Field Spelling SpellsRecord SpellsTagged Record)

/-! ## The spellings -/

def Span.Spelled (s : Span) : Spelling :=
  SpellsRecord [⟨"line", .number s.line, s.line = 0⟩, ⟨"column", .number s.column, s.column = 0⟩,
    ⟨"end_line", .number s.endLine, s.endLine = 0⟩,
      ⟨"end_column", .number s.endColumn, s.endColumn = 0⟩]

/-- The span of a node. -/
def Json.Field.span (s : Span) : Field := ⟨"span", s.Spelled, s = .unknown⟩

mutual

def Expr.Spelled : Expr → Spelling
  | .name ident span => SpellsTagged "name" [.required "name" (.text ident), .span span]
  | .this span => SpellsTagged "this" [.span span]
  | .literal value span => SpellsTagged "literal" [.required "value" (.text value), .span span]
  | .binary op left right span =>
    SpellsTagged "binary" [.required "op" (.text op.name), .required "left" left.Spelled,
      .required "right" right.Spelled, .span span]
  | .unary op arg span =>
    SpellsTagged "unary" [.required "op" (.text op.name), .required "arg" arg.Spelled, .span span]
  | .assign op target value span =>
    SpellsTagged "assign" [⟨"op", .text op.name, op = .assign⟩, .required "target" target.Spelled,
      .required "value" value.Spelled, .span span]
  | .cond test cons alt span =>
    SpellsTagged "cond" [.required "test" test.Spelled, .required "cons" cons.Spelled,
      .required "alt" alt.Spelled, .span span]
  | .call receiver method args throws span =>
    SpellsTagged "call" [.optional "receiver" (Expr.optionSpelled receiver),
      .required "method" (.text method), .list "args" (Expr.listSpelled args),
        .list "throws" (throws.map .text), .span span]
  | .new cls args throws span =>
    SpellsTagged "new" [.required "class" (.text cls), .list "args" (Expr.listSpelled args),
      .list "throws" (throws.map .text), .span span]
  | .newArray elem dims init span =>
    SpellsTagged "new_array" [.required "elem" (.text elem), .list "dims" (Expr.listSpelled dims),
      .list "init" (Expr.listSpelled init), .span span]
  | .member object ident span =>
    SpellsTagged "member" [.required "object" object.Spelled,
      .required "name" (.text ident), .span span]
  | .index array offset span =>
    SpellsTagged "index" [.required "array" array.Spelled, .required "index" offset.Spelled,
      .span span]
  | .cast ty expr span =>
    SpellsTagged "cast" [.required "ty" (.text ty), .required "expr" expr.Spelled, .span span]
  | .instanceOf expr ty span =>
    SpellsTagged "instance_of" [.required "expr" expr.Spelled,
      .required "ty" (.text ty), .span span]
  | .lambda span => SpellsTagged "lambda" [.span span]
  | .paren expr span => SpellsTagged "paren" [.required "expr" expr.Spelled, .span span]

def Expr.listSpelled : List Expr → List Spelling
  | [] => []
  | e :: rest => e.Spelled :: Expr.listSpelled rest

def Expr.optionSpelled : Option Expr → Option Spelling
  | none => none
  | some e => some e.Spelled

end

/-- The fields of a declaration of a variable. -/
def LocalVar.spelledFields (d : LocalVar) : List Field :=
  [.required "name" (.text d.name), .optional "ty" (d.ty.map .text),
    .optional "init" (d.init.map Expr.Spelled), .span d.span]

def LocalVar.Spelled (d : LocalVar) : Spelling := SpellsRecord d.spelledFields

def CaseLabel.Spelled : CaseLabel → Spelling
  | .case values => SpellsTagged "case" [.required "values" (.list (values.map Expr.Spelled))]
  | .default => SpellsTagged "default" []

mutual

def Stmt.Spelled : Stmt → Spelling
  | .block ⟨stmts, span⟩ =>
    SpellsTagged "block" [.required "stmts" (.list (Stmt.listSpelled stmts)), .span span]
  | .expr expr span => SpellsTagged "expr" [.required "expr" expr.Spelled, .span span]
  | .localVar decl => SpellsTagged "local_var" decl.spelledFields
  | .ifStmt test cons alt span =>
    SpellsTagged "if" [.required "test" test.Spelled, .required "cons" cons.Spelled,
      .optional "alt" (Stmt.optionSpelled alt), .span span]
  | .whileStmt test body span =>
    SpellsTagged "while" [.required "test" test.Spelled, .required "body" body.Spelled, .span span]
  | .doWhile body test span =>
    SpellsTagged "do_while" [.required "body" body.Spelled,
      .required "test" test.Spelled, .span span]
  | .forStmt init test update body span =>
    SpellsTagged "for" [.list "init" (Stmt.listSpelled init),
      .optional "test" (test.map Expr.Spelled), .list "update" (update.map Expr.Spelled),
        .required "body" body.Spelled, .span span]
  | .forEach var iterable body span =>
    SpellsTagged "for_each" [.required "var" (.text var), .required "iterable" iterable.Spelled,
      .required "body" body.Spelled, .span span]
  | .switch selector groups span =>
    SpellsTagged "switch" [.required "selector" selector.Spelled,
      .list "groups" (CaseGroup.listSpelled groups), .span span]
  | .tryStmt resources block catches finalizer span =>
    SpellsTagged "try" [.list "resources" (resources.map LocalVar.Spelled),
      .required "block" block.Spelled, .list "catches" (CatchClause.listSpelled catches),
        .optional "finalizer" (Block.optionSpelled finalizer),
      .span span]
  | .labeled label body span =>
    SpellsTagged "labeled" [.required "label" (.text label),
      .required "body" body.Spelled, .span span]
  | .breakStmt label span => SpellsTagged "break" [.optional "label" (label.map .text), .span span]
  | .continueStmt label span =>
    SpellsTagged "continue" [.optional "label" (label.map .text), .span span]
  | .returnStmt arg span =>
    SpellsTagged "return" [.optional "arg" (arg.map Expr.Spelled), .span span]
  | .throwStmt arg span => SpellsTagged "throw" [.required "arg" arg.Spelled, .span span]
  | .synchronized lock body span =>
    SpellsTagged "synchronized" [.required "lock" lock.Spelled,
      .required "body" body.Spelled, .span span]
  | .assertStmt test message span =>
    SpellsTagged "assert" [.required "test" test.Spelled,
      .optional "message" (message.map Expr.Spelled), .span span]
  | .localClass name span => SpellsTagged "local_class" [.required "name" (.text name), .span span]
  | .empty span => SpellsTagged "empty" [.span span]
  | .missing span => SpellsTagged "missing" [.span span]

def Stmt.listSpelled : List Stmt → List Spelling
  | [] => []
  | s :: rest => s.Spelled :: Stmt.listSpelled rest

def Stmt.optionSpelled : Option Stmt → Option Spelling
  | none => none
  | some s => some s.Spelled

def Block.Spelled : Block → Spelling
  | ⟨stmts, span⟩ => SpellsRecord [.required "stmts" (.list (Stmt.listSpelled stmts)), .span span]

def Block.optionSpelled : Option Block → Option Spelling
  | none => none
  | some b => some b.Spelled

def CaseGroup.Spelled : CaseGroup → Spelling
  | ⟨labels, body, arrow, span⟩ =>
    SpellsRecord [.required "labels" (.list (labels.map CaseLabel.Spelled)),
      .list "body" (Stmt.listSpelled body), ⟨"arrow", .flag arrow, arrow = false⟩, .span span]

def CaseGroup.listSpelled : List CaseGroup → List Spelling
  | [] => []
  | group :: rest => group.Spelled :: CaseGroup.listSpelled rest

def CatchClause.Spelled : CatchClause → Spelling
  | ⟨param, types, body, span⟩ =>
    SpellsRecord [.required "param" (.text param), .required "types" (.list (types.map .text)),
      .required "body" body.Spelled, .span span]

def CatchClause.listSpelled : List CatchClause → List Spelling
  | [] => []
  | clause :: rest => clause.Spelled :: CatchClause.listSpelled rest

end

def Method.Spelled (m : Method) : Spelling :=
  SpellsRecord [.required "name" (.text m.name), ⟨"kind", .text m.kind.name, m.kind = .method⟩,
    .optional "body" (m.body.map Block.Spelled), .span m.span]

def CompilationUnit.Spelled (u : CompilationUnit) : Spelling :=
  SpellsRecord [⟨"filename", .text u.filename, u.filename = ""⟩,
    .list "methods" (u.methods.map Method.Spelled)]

/-! The lists and options of the nested definitions are the usual ones. -/

theorem Expr.listSpelled_eq (es : List Expr) : Expr.listSpelled es = es.map Expr.Spelled := by
  induction es with
  | nil => rw [Expr.listSpelled, List.map_nil]
  | cons e es ih => rw [Expr.listSpelled, List.map_cons, ih]

theorem Expr.optionSpelled_eq (e : Option Expr) : Expr.optionSpelled e = e.map Expr.Spelled := by
  cases e <;> rw [Expr.optionSpelled] <;> rfl

theorem Stmt.listSpelled_eq (stmts : List Stmt) :
    Stmt.listSpelled stmts = stmts.map Stmt.Spelled := by
  induction stmts with
  | nil => rw [Stmt.listSpelled, List.map_nil]
  | cons s stmts ih => rw [Stmt.listSpelled, List.map_cons, ih]

theorem Stmt.optionSpelled_eq (s : Option Stmt) : Stmt.optionSpelled s = s.map Stmt.Spelled := by
  cases s <;> rw [Stmt.optionSpelled] <;> rfl

theorem Block.optionSpelled_eq (b : Option Block) :
    Block.optionSpelled b = b.map Block.Spelled := by
  cases b <;> rw [Block.optionSpelled] <;> rfl

theorem CaseGroup.listSpelled_eq (groups : List CaseGroup) :
    CaseGroup.listSpelled groups = groups.map CaseGroup.Spelled := by
  induction groups with
  | nil => rw [CaseGroup.listSpelled, List.map_nil]
  | cons group groups ih => rw [CaseGroup.listSpelled, List.map_cons, ih]

theorem CatchClause.listSpelled_eq (clauses : List CatchClause) :
    CatchClause.listSpelled clauses = clauses.map CatchClause.Spelled := by
  induction clauses with
  | nil => rw [CatchClause.listSpelled, List.map_nil]
  | cons clause clauses ih => rw [CatchClause.listSpelled, List.map_cons, ih]

/-! ## Fields -/

/-- A reader with an allowance finds `a` in everything that spells it and nests no deeper than
allowed. -/
def Json.Reads {α : Type} (read : Nat → Json → Option α) (spelled : α → Spelling) (a : α) : Prop :=
  ∀ n j, spelled a j → j.depth ≤ n → read n j = some a

theorem Json.toUInt32?_ofNat (n : UInt32) : (Json.ofNat n.toNat).toUInt32? = some n := by
  have hlt : n.toNat < UInt32.size := n.toNat_lt_size
  show (if n.toNat < UInt32.size then some n.toNat.toUInt32 else none) = some n
  rw [if_pos hlt]
  simp

namespace Json.Record.Holds

variable {r : Record} {n bound : Nat} {name : String}

theorem number {i : UInt32} (h : r.Holds bound ⟨name, .number i, i = 0⟩) :
    r.defaulted? name 0 Json.toUInt32? = some i := by
  refine h.defaulted? (fun hi => hi.symm) fun j hj _ => ?_
  rw [show j = .ofNat i.toNat from hj]
  exact Json.toUInt32?_ofNat i

theorem text {s : String} (h : r.Holds bound (.required name (.text s))) :
    r.required? name Json.toText? = some s := by
  refine h.required? fun j hj _ => ?_
  rw [show j = .string s from hj]
  rfl

theorem text? {s : Option String} (h : r.Holds bound (.optional name (s.map .text))) :
    r.optional? name Json.toText? = some s := by
  refine h.optional? rfl fun t _ j hj _ => ?_
  rw [show j = .string t from hj]
  rfl

theorem texts {ss : List String} (h : r.Holds bound (.list name (ss.map .text))) :
    r.list? name Json.toText? = some ss := by
  refine h.list? fun t _ j hj _ => ?_
  rw [show j = .string t from hj]
  rfl

/-- A list of names without a default. -/
theorem allTexts {ss : List String} (h : r.Holds bound (.required name (.list (ss.map .text)))) :
    r.required? name (Json.listOf? Json.toText?) = some ss := by
  refine h.required? fun j hj hlt => Json.listOf?_of_spells hj hlt fun t _ j hj _ => ?_
  rw [show j = .string t from hj]
  rfl

theorem variant {α : Type} {ofName? : String → Option α} {a : α} {s : String} {bare : Bool}
    (h : r.Holds bound (.required name (.text s))) (hs : ofName? s = some a) :
    r.required? name (Json.variant? ofName? bare) = some a := by
  refine h.required? fun j hj _ => ?_
  rw [show j = .string s from hj]
  exact hs

theorem variantOr {α : Type} {ofName? : String → Option α} {a value : α} {s : String} {bare : Bool}
    (h : r.Holds bound ⟨name, .text s, a = value⟩) (hs : ofName? s = some a) :
    r.defaulted? name value (Json.variant? ofName? bare) = some a := by
  refine h.defaulted? (fun ha => ha.symm) fun j hj _ => ?_
  rw [show j = .string s from hj]
  exact hs

variable {α : Type} {read : Nat → Json → Option α} {spelled : α → Spelling}

theorem part {a : α} (h : r.Holds (n + 1) (.required name (spelled a)))
    (ih : Json.Reads read spelled a) :
    r.required? name (read n) = some a :=
  h.required? fun j hj hlt => ih n j hj (Nat.le_of_lt_succ hlt)

theorem part? {a : Option α} (h : r.Holds (n + 1) (.optional name (a.map spelled)))
    (hnull : read n .null = none) (ih : ∀ x, a = some x → Json.Reads read spelled x) :
    r.optional? name (read n) = some a :=
  h.optional? hnull fun x hx j hj hlt => ih x hx n j hj (Nat.le_of_lt_succ hlt)

/-- A list of parts is read back when each of its items is. -/
theorem parts {as : List α} (h : r.Holds (n + 1) (.list name (as.map spelled)))
    (ih : ∀ x ∈ as, Json.Reads read spelled x) : r.list? name (read n) = some as :=
  h.list? fun x hx j hj hlt => ih x hx n j hj (Nat.le_of_lt_succ hlt)

/-- A list without a default. -/
theorem allParts {as : List α} (h : r.Holds (n + 1) (.required name (.list (as.map spelled))))
    (ih : ∀ x ∈ as, Json.Reads read spelled x) :
      r.required? name (Json.listOf? (read n)) = some as :=
  h.required? fun _ hj hlt =>
    Json.listOf?_of_spells hj hlt fun x hx j hj hlt => ih x hx n j hj (Nat.le_of_lt_succ hlt)

end Json.Record.Holds

theorem Span.ofJson?_of_spelled {s : Span} {j : Json} (h : s.Spelled j) :
    Span.ofJson? j = some s := by
  have hnodup : Span.fields.Nodup := by decide
  obtain ⟨r, hr, hline, hcolumn, hendLine, hendColumn⟩ := h.record? hnodup
  replace hr : j.record? Span.fields = some r := hr
  simp [Span.ofJson?, hr, hline.number, hcolumn.number, hendLine.number, hendColumn.number]

theorem Json.Record.Holds.span {r : Record} {bound : Nat} {s : Span} (h : r.Holds bound (.span s)) :
    r.span? = some s :=
  h.defaulted? (fun hs => hs.symm) fun _ hj _ => Span.ofJson?_of_spelled hj

/-! ## Expressions -/

theorem Expr.read?_null (n : Nat) : Expr.read? n .null = none := by
  cases n <;> rfl

/-- What reading an expression begins with: the kind, and a record that holds the fields. -/
theorem ExprKind.read_of_spells (kind : ExprKind) {fields : List Field} {j : Json} {n : Nat}
    (h : SpellsTagged kind.tag fields j) (hf : fields.map (·.name) = kind.fields)
    (hle : j.depth ≤ n) :
    ∃ m body r, n = m + 1 ∧
      (∀ (α : Type) (next : ExprKind × Json → Option α),
        j.tagged? ExprKind.all ExprKind.tag true >>= next = next (kind, body)) ∧
      body.record? kind.fields = some r ∧ fields.Forall (r.Holds (m + 1)) := by
  rw [← hf]
  refine h.read ?_ ?_ ?_ true hle
  · cases kind <;> decide
  · rw [hf]
    cases kind <;> decide
  · rw [hf]
    cases kind <;> decide

abbrev Expr.Reads (e : Expr) : Prop := Json.Reads Expr.read? Expr.Spelled e

/-- Every spelling of an expression is read as that expression. -/
theorem Expr.reads (e : Expr) : e.Reads := by
  -- In each case the spelling gives back the fields, each read with less fuel.
  induction e using Expr.induct with
  | name ident span =>
    intro n j h hle
    obtain ⟨m, body, r, rfl, hkind, hr, hident, hspan⟩ := ExprKind.name.read_of_spells h rfl hle
    rw [Expr.read?, hkind]
    simp [hr, hspan.span, hident.text]
  | this span =>
    intro n j h hle
    obtain ⟨m, body, r, rfl, hkind, hr, hspan⟩ := ExprKind.this.read_of_spells h rfl hle
    rw [Expr.read?, hkind]
    simp [hr, hspan.span]
  | literal value span =>
    intro n j h hle
    obtain ⟨m, body, r, rfl, hkind, hr, hvalue, hspan⟩ := ExprKind.literal.read_of_spells h rfl hle
    rw [Expr.read?, hkind]
    simp [hr, hspan.span, hvalue.text]
  | binary op left right span ihl ihr =>
    intro n j h hle
    obtain ⟨m, body, r, rfl, hkind, hr, hop, hleft, hright, hspan⟩ :=
      ExprKind.binary.read_of_spells h rfl hle
    rw [Expr.read?, hkind]
    simp [hr, hspan.span, hop.variant op.ofName?_name, hleft.part ihl,
      hright.part ihr]
  | unary op arg span ih =>
    intro n j h hle
    obtain ⟨m, body, r, rfl, hkind, hr, hop, harg, hspan⟩ := ExprKind.unary.read_of_spells h rfl hle
    rw [Expr.read?, hkind]
    simp [hr, hspan.span, hop.variant op.ofName?_name, harg.part ih]
  | assign op target value span iht ihv =>
    intro n j h hle
    obtain ⟨m, body, r, rfl, hkind, hr, hop, htarget, hvalue, hspan⟩ :=
      ExprKind.assign.read_of_spells h rfl hle
    rw [Expr.read?, hkind]
    simp [hr, hspan.span, hop.variantOr op.ofName?_name, htarget.part iht,
      hvalue.part ihv]
  | cond test cons alt span iht ihc iha =>
    intro n j h hle
    obtain ⟨m, body, r, rfl, hkind, hr, htest, hcons, halt, hspan⟩ :=
      ExprKind.cond.read_of_spells h rfl hle
    rw [Expr.read?, hkind]
    simp [hr, hspan.span, htest.part iht, hcons.part ihc, halt.part iha]
  | call receiver method args throws span ihr iha =>
    intro n j h hle
    rw [Expr.Spelled, Expr.listSpelled_eq, Expr.optionSpelled_eq] at h
    obtain ⟨m, body, r, rfl, hkind, hr, hreceiver, hmethod, hargs, hthrows, hspan⟩ :=
      ExprKind.call.read_of_spells h rfl hle
    rw [Expr.read?, hkind]
    simp [hr, hspan.span, hreceiver.part? (Expr.read?_null m) ihr, hmethod.text,
      hargs.parts iha, hthrows.texts]
  | new cls args throws span ih =>
    intro n j h hle
    rw [Expr.Spelled, Expr.listSpelled_eq] at h
    obtain ⟨m, body, r, rfl, hkind, hr, hcls, hargs, hthrows, hspan⟩ :=
      ExprKind.new.read_of_spells h rfl hle
    rw [Expr.read?, hkind]
    simp [hr, hspan.span, hcls.text, hargs.parts ih, hthrows.texts]
  | newArray elem dims init span ihd ihi =>
    intro n j h hle
    rw [Expr.Spelled, Expr.listSpelled_eq, Expr.listSpelled_eq] at h
    obtain ⟨m, body, r, rfl, hkind, hr, helem, hdims, hinit, hspan⟩ :=
      ExprKind.newArray.read_of_spells h rfl hle
    rw [Expr.read?, hkind]
    simp [hr, hspan.span, helem.text, hdims.parts ihd, hinit.parts ihi]
  | member object ident span ih =>
    intro n j h hle
    obtain ⟨m, body, r, rfl, hkind, hr, hobject, hident, hspan⟩ :=
      ExprKind.member.read_of_spells h rfl hle
    rw [Expr.read?, hkind]
    simp [hr, hspan.span, hobject.part ih, hident.text]
  | index array offset span iha iho =>
    intro n j h hle
    obtain ⟨m, body, r, rfl, hkind, hr, harray, hoffset, hspan⟩ :=
      ExprKind.index.read_of_spells h rfl hle
    rw [Expr.read?, hkind]
    simp [hr, hspan.span, harray.part iha, hoffset.part iho]
  | cast ty inner span ih =>
    intro n j h hle
    obtain ⟨m, body, r, rfl, hkind, hr, hty, hinner, hspan⟩ :=
      ExprKind.cast.read_of_spells h rfl hle
    rw [Expr.read?, hkind]
    simp [hr, hspan.span, hty.text, hinner.part ih]
  | instanceOf inner ty span ih =>
    intro n j h hle
    obtain ⟨m, body, r, rfl, hkind, hr, hinner, hty, hspan⟩ :=
      ExprKind.instanceOf.read_of_spells h rfl hle
    rw [Expr.read?, hkind]
    simp [hr, hspan.span, hinner.part ih, hty.text]
  | lambda span =>
    intro n j h hle
    obtain ⟨m, body, r, rfl, hkind, hr, hspan⟩ := ExprKind.lambda.read_of_spells h rfl hle
    rw [Expr.read?, hkind]
    simp [hr, hspan.span]
  | paren inner span ih =>
    intro n j h hle
    obtain ⟨m, body, r, rfl, hkind, hr, hinner, hspan⟩ := ExprKind.paren.read_of_spells h rfl hle
    rw [Expr.read?, hkind]
    simp [hr, hspan.span, hinner.part ih]

/-! ## Declarations and labels -/

theorem LocalVar.ofRecord?_of_holds {d : LocalVar} {r : Record} {m : Nat}
    (hold : d.spelledFields.Forall (r.Holds (m + 1))) : LocalVar.ofRecord? m r = some d := by
  obtain ⟨hname, hty, hinit, hspan⟩ := hold
  simp [LocalVar.ofRecord?, hname.text, hty.text?, hinit.part? (Expr.read?_null m) fun e _ =>
    e.reads, hspan.span]

theorem LocalVar.reads (d : LocalVar) : Json.Reads LocalVar.read? LocalVar.Spelled d := by
  intro n j h hle
  have hnodup : StmtKind.localVar.fields.Nodup := by decide
  obtain ⟨m, r, rfl, hr, hold⟩ := Json.SpellsRecord.read h hnodup hle
  replace hr : j.record? StmtKind.localVar.fields = some r := hr
  rw [LocalVar.read?, hr, Option.bind_some]
  exact LocalVar.ofRecord?_of_holds hold

theorem CaseLabel.reads (label : CaseLabel) :
    Json.Reads CaseLabel.read? CaseLabel.Spelled label := by
  intro n j h hle
  cases label with
  | case values =>
    have hkind : LabelKind.all.find? (·.tag == "case") = some .case := by decide
    have htag : Json.tagKey ∉ LabelKind.case.fields := by decide
    have hnodup : LabelKind.case.fields.Nodup := by decide
    obtain ⟨m, body, r, rfl, hkind, hr, hvalues⟩ :=
      Json.SpellsTagged.read h hkind htag hnodup true hle
    replace hr : body.record? LabelKind.case.fields = some r := hr
    simp [CaseLabel.read?, hkind, hr, hvalues.allParts fun e _ => e.reads]
  | default =>
    have hkind : LabelKind.all.find? (·.tag == "default") = some .default := by decide
    obtain ⟨m, body, r, rfl, hkind, hr, -⟩ :=
      Json.SpellsTagged.read h hkind List.not_mem_nil List.nodup_nil true hle
    replace hr : body.record? LabelKind.default.fields = some r := hr
    simp [CaseLabel.read?, hkind, hr]

/-! ## Statements -/

/-- A statement is read alike whether its kind may be given by its ordinal or not. -/
def Stmt.Reads (s : Stmt) : Prop := ∀ ordinals, Json.Reads (Stmt.read? ordinals) Stmt.Spelled s

def Block.Reads (b : Block) : Prop := ∀ ordinals, Json.Reads (Block.read? ordinals) Block.Spelled b

theorem Stmt.read?_null (ordinals : Bool) (n : Nat) : Stmt.read? ordinals n .null = none := by
  cases n with
  | zero => rw [Stmt.read?]
  | succ n =>
    rw [Stmt.read?]
    rfl

theorem Block.read?_null (ordinals : Bool) (n : Nat) : Block.read? ordinals n .null = none := by
  cases n with
  | zero => rw [Block.read?]
  | succ n =>
    rw [Block.read?]
    rfl

/-- What reading a statement begins with. -/
theorem StmtKind.read_of_spells (kind : StmtKind) {fields : List Field} {j : Json} {n : Nat}
    (h : SpellsTagged kind.tag fields j) (ordinals : Bool) (hf : fields.map (·.name) = kind.fields)
    (hle : j.depth ≤ n) :
    ∃ m body r, n = m + 1 ∧
      (∀ (α : Type) (next : StmtKind × Json → Option α),
        j.tagged? StmtKind.all StmtKind.tag ordinals >>= next = next (kind, body)) ∧
      body.record? kind.fields = some r ∧ fields.Forall (r.Holds (m + 1)) := by
  rw [← hf]
  refine h.read ?_ ?_ ?_ ordinals hle
  · cases kind <;> decide
  · rw [hf]
    cases kind <;> decide
  · rw [hf]
    cases kind <;> decide

/-- A block is read back when its statements are. -/
theorem Block.reads_of {b : Block} (ih : ∀ s ∈ b.stmts, s.Reads) : b.Reads := by
  intro ordinals n j h hle
  obtain ⟨stmts, span⟩ := b
  rw [Block.Spelled, Stmt.listSpelled_eq] at h
  have hnodup : StmtKind.block.fields.Nodup := by decide
  obtain ⟨m, r, rfl, hr, hstmts, hspan⟩ := h.read hnodup hle
  replace hr : j.record? StmtKind.block.fields = some r := hr
  simp [Block.read?, hr, hstmts.allParts fun s hs => ih s hs ordinals, hspan.span]

theorem CaseGroup.reads_of {group : CaseGroup} (ih : ∀ s ∈ group.body, s.Reads) :
    Json.Reads CaseGroup.read? CaseGroup.Spelled group := by
  intro n j h hle
  obtain ⟨labels, body, arrow, span⟩ := group
  rw [CaseGroup.Spelled, Stmt.listSpelled_eq] at h
  have hnodup : CaseGroup.fields.Nodup := by decide
  obtain ⟨m, r, rfl, hr, hlabels, hbody, harrow, hspan⟩ := h.read hnodup hle
  replace hr : j.record? CaseGroup.fields = some r := hr
  have harrow : r.defaulted? "arrow" false Json.toBool? = some arrow := by
    refine harrow.defaulted? (fun ha => ha.symm) fun j hj _ => ?_
    rw [show j = .bool arrow from hj]
    rfl
  simp [CaseGroup.read?, hr, hlabels.allParts fun label _ => label.reads, hbody.parts fun s hs =>
    ih s hs true, harrow, hspan.span]

theorem CatchClause.reads_of {clause : CatchClause} (ih : ∀ s ∈ clause.body.stmts, s.Reads) :
    Json.Reads CatchClause.read? CatchClause.Spelled clause := by
  intro n j h hle
  obtain ⟨param, types, body, span⟩ := clause
  rw [CatchClause.Spelled] at h
  have hnodup : CatchClause.fields.Nodup := by decide
  obtain ⟨m, r, rfl, hr, hparam, htypes, hbody, hspan⟩ := h.read hnodup hle
  replace hr : j.record? CatchClause.fields = some r := hr
  simp [CatchClause.read?, hr, hparam.text, htypes.allTexts, hbody.part (Block.reads_of ih true),
    hspan.span]

/-- Every spelling of a statement is read as that statement. -/
theorem Stmt.reads (s : Stmt) : s.Reads := by
  -- As for expressions; the flag says whether the kind may be given by its ordinal.
  induction s using Stmt.induct with
  | block b ih =>
    intro ordinals n j h hle
    obtain ⟨stmts, span⟩ := b
    rw [Stmt.Spelled, Stmt.listSpelled_eq] at h
    obtain ⟨m, body, r, rfl, hkind, hr, hstmts, hspan⟩ :=
      StmtKind.block.read_of_spells h ordinals rfl hle
    rw [Stmt.read?, hkind]
    simp [hr, hspan.span, hstmts.allParts fun s hs => ih s hs true]
  | expr e span =>
    intro ordinals n j h hle
    obtain ⟨m, body, r, rfl, hkind, hr, he, hspan⟩ :=
      StmtKind.expr.read_of_spells h ordinals rfl hle
    rw [Stmt.read?, hkind]
    simp [hr, hspan.span, he.part e.reads]
  | localVar decl =>
    intro ordinals n j h hle
    obtain ⟨m, body, r, rfl, hkind, hr, hold⟩ := StmtKind.localVar.read_of_spells h ordinals rfl hle
    have hspan : r.span? = some decl.span := hold.2.2.2.span
    rw [Stmt.read?, hkind]
    simp [hr, hspan, LocalVar.ofRecord?_of_holds hold]
  | ifStmt test cons alt span ihc iha =>
    intro ordinals n j h hle
    rw [Stmt.Spelled, Stmt.optionSpelled_eq] at h
    obtain ⟨m, body, r, rfl, hkind, hr, htest, hcons, halt, hspan⟩ :=
      StmtKind.ifStmt.read_of_spells h ordinals rfl hle
    rw [Stmt.read?, hkind]
    simp [hr, hspan.span, htest.part test.reads, hcons.part (ihc true),
      halt.part? (Stmt.read?_null true m) fun s hs => iha s hs true]
  | whileStmt test body span ih =>
    intro ordinals n j h hle
    obtain ⟨m, body, r, rfl, hkind, hr, htest, hbody, hspan⟩ :=
      StmtKind.whileStmt.read_of_spells h ordinals rfl hle
    rw [Stmt.read?, hkind]
    simp [hr, hspan.span, htest.part test.reads, hbody.part (ih true)]
  | doWhile body test span ih =>
    intro ordinals n j h hle
    obtain ⟨m, body, r, rfl, hkind, hr, hbody, htest, hspan⟩ :=
      StmtKind.doWhile.read_of_spells h ordinals rfl hle
    rw [Stmt.read?, hkind]
    simp [hr, hspan.span, hbody.part (ih true), htest.part test.reads]
  | forStmt init test update body span ihi ihb =>
    intro ordinals n j h hle
    rw [Stmt.Spelled, Stmt.listSpelled_eq] at h
    obtain ⟨m, body, r, rfl, hkind, hr, hinit, htest, hupdate, hbody, hspan⟩ :=
      StmtKind.forStmt.read_of_spells h ordinals rfl hle
    rw [Stmt.read?, hkind]
    simp [hr, hspan.span, hinit.parts fun s hs => ihi s hs true,
      htest.part? (Expr.read?_null m) fun e _ => e.reads, hupdate.parts fun e _ => e.reads,
        hbody.part (ihb true)]
  | forEach var iterable body span ih =>
    intro ordinals n j h hle
    obtain ⟨m, body, r, rfl, hkind, hr, hvar, hiterable, hbody, hspan⟩ :=
      StmtKind.forEach.read_of_spells h ordinals rfl hle
    rw [Stmt.read?, hkind]
    simp [hr, hspan.span, hvar.text, hiterable.part iterable.reads,
      hbody.part (ih true)]
  | switch selector groups span ih =>
    intro ordinals n j h hle
    rw [Stmt.Spelled, CaseGroup.listSpelled_eq] at h
    obtain ⟨m, body, r, rfl, hkind, hr, hselector, hgroups, hspan⟩ :=
      StmtKind.switch.read_of_spells h ordinals rfl hle
    rw [Stmt.read?, hkind]
    simp [hr, hspan.span, hselector.part selector.reads,
      hgroups.parts fun group hg => CaseGroup.reads_of (ih group hg)]
  | tryStmt resources block catches finalizer span ihb ihc ihf =>
    intro ordinals n j h hle
    rw [Stmt.Spelled, CatchClause.listSpelled_eq, Block.optionSpelled_eq] at h
    obtain ⟨m, body, r, rfl, hkind, hr, hresources, hblock, hcatches, hfinalizer, hspan⟩ :=
      StmtKind.tryStmt.read_of_spells h ordinals rfl hle
    rw [Stmt.read?, hkind]
    simp [hr, hspan.span, hresources.parts fun d _ => d.reads,
      hblock.part (Block.reads_of ihb true), hcatches.parts fun clause hc =>
        CatchClause.reads_of (ihc clause hc),
      hfinalizer.part? (Block.read?_null true m) fun final hf => Block.reads_of (ihf final hf) true]
  | labeled label body span ih =>
    intro ordinals n j h hle
    obtain ⟨m, body, r, rfl, hkind, hr, hlabel, hbody, hspan⟩ :=
      StmtKind.labeled.read_of_spells h ordinals rfl hle
    rw [Stmt.read?, hkind]
    simp [hr, hspan.span, hlabel.text, hbody.part (ih true)]
  | breakStmt label span =>
    intro ordinals n j h hle
    obtain ⟨m, body, r, rfl, hkind, hr, hlabel, hspan⟩ :=
      StmtKind.breakStmt.read_of_spells h ordinals rfl hle
    rw [Stmt.read?, hkind]
    simp [hr, hspan.span, hlabel.text?]
  | continueStmt label span =>
    intro ordinals n j h hle
    obtain ⟨m, body, r, rfl, hkind, hr, hlabel, hspan⟩ :=
      StmtKind.continueStmt.read_of_spells h ordinals rfl hle
    rw [Stmt.read?, hkind]
    simp [hr, hspan.span, hlabel.text?]
  | returnStmt arg span =>
    intro ordinals n j h hle
    obtain ⟨m, body, r, rfl, hkind, hr, harg, hspan⟩ :=
      StmtKind.returnStmt.read_of_spells h ordinals rfl hle
    rw [Stmt.read?, hkind]
    simp [hr, hspan.span, harg.part? (Expr.read?_null m) fun e _ => e.reads]
  | throwStmt arg span =>
    intro ordinals n j h hle
    obtain ⟨m, body, r, rfl, hkind, hr, harg, hspan⟩ :=
      StmtKind.throwStmt.read_of_spells h ordinals rfl hle
    rw [Stmt.read?, hkind]
    simp [hr, hspan.span, harg.part arg.reads]
  | synchronized lock body span ih =>
    intro ordinals n j h hle
    obtain ⟨m, body, r, rfl, hkind, hr, hlock, hbody, hspan⟩ :=
      StmtKind.synchronized.read_of_spells h ordinals rfl hle
    rw [Stmt.read?, hkind]
    simp [hr, hspan.span, hlock.part lock.reads,
      hbody.part (Block.reads_of ih true)]
  | assertStmt test message span =>
    intro ordinals n j h hle
    obtain ⟨m, body, r, rfl, hkind, hr, htest, hmessage, hspan⟩ :=
      StmtKind.assertStmt.read_of_spells h ordinals rfl hle
    rw [Stmt.read?, hkind]
    simp [hr, hspan.span, htest.part test.reads,
      hmessage.part? (Expr.read?_null m) fun e _ => e.reads]
  | localClass ident span =>
    intro ordinals n j h hle
    obtain ⟨m, body, r, rfl, hkind, hr, hident, hspan⟩ :=
      StmtKind.localClass.read_of_spells h ordinals rfl hle
    rw [Stmt.read?, hkind]
    simp [hr, hspan.span, hident.text]
  | empty span =>
    intro ordinals n j h hle
    obtain ⟨m, body, r, rfl, hkind, hr, hspan⟩ := StmtKind.empty.read_of_spells h ordinals rfl hle
    rw [Stmt.read?, hkind]
    simp [hr, hspan.span]
  | missing span =>
    intro ordinals n j h hle
    obtain ⟨m, body, r, rfl, hkind, hr, hspan⟩ := StmtKind.missing.read_of_spells h ordinals rfl hle
    rw [Stmt.read?, hkind]
    simp [hr, hspan.span]

/-! ## Methods and units -/

theorem Block.ofJson?_of_spelled {b : Block} {j : Json} (h : b.Spelled j) :
    Block.ofJson? j = some b :=
  Block.reads_of (fun s _ => s.reads) false j.depth j h (Nat.le_refl _)

theorem Method.ofJson?_of_spelled {m : Method} {j : Json} (h : m.Spelled j) :
    Method.ofJson? j = some m := by
  have hnodup : Method.fields.Nodup := by decide
  obtain ⟨r, hr, hname, hkind, hbody, hspan⟩ := Json.SpellsRecord.record? h hnodup
  replace hr : j.record? Method.fields = some r := hr
  have hbody : r.optional? "body" Block.ofJson? = some m.body :=
    hbody.optional? rfl fun b _ _ hb _ => Block.ofJson?_of_spelled hb
  simp [Method.ofJson?, hr, hname.text, hkind.variantOr m.kind.ofName?_name, hbody, hspan.span]

/-- Every spelling of a unit reads as the unit. -/
theorem CompilationUnit.ofJson?_of_spelled {u : CompilationUnit} {j : Json} (h : u.Spelled j) :
    CompilationUnit.ofJson? j = some u := by
  have hnodup : CompilationUnit.fields.Nodup := by decide
  obtain ⟨r, hr, hfilename, hmethods⟩ := Json.SpellsRecord.record? h hnodup
  replace hr : j.record? CompilationUnit.fields = some r := hr
  have hfilename : r.defaulted? "filename" "" Json.toText? = some u.filename := by
    refine hfilename.defaulted? (fun he => he.symm) fun j hj _ => ?_
    rw [show j = .string u.filename from hj]
    rfl
  have hmethods : r.list? "methods" Method.ofJson? = some u.methods :=
    hmethods.list? fun m _ _ hm _ => Method.ofJson?_of_spelled hm
  simp [CompilationUnit.ofJson?, hr, hfilename, hmethods]

end MethodFlow
