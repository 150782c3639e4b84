import Mathlib.Data.Finset.Card
import MethodFlow.Proofs.Preorder
import MethodFlow.Proofs.Writing

/-!
# Names of variables

The variables of a body are counted on a walk through its text, and its graph is drawn from the same
text. Both come to the same names, except where drawing leaves something off: a member of `this` is
an element that is no variable, and an assertion has no elements at all.

A name is brought up at different places in the two. A resource is named by its `try` statement in
the text and by a declaration in the graph, a catch clause by its own node and by the first element
of its block, and the target of an assignment by a node below it in the text but by the assignment
itself in the graph.

Main result: `Graph.build_variableNames`.
-/

namespace MethodFlow

/-! ## Names in the graph -/

namespace Element

/-- The names of variables in an element: what it refers to, what it declares, and the target of an
assignment if that is a plain name. -/
@[simp] def variableNames (e : Element) : List String :=
  match e.kind with
  | .identifier name | .declaration name => [name]
  | .assignment target _ => target.toList
  | _ => []

/-- The names of variables in some elements. -/
def namesIn (es : List Element) : List String := es.flatMap (·.variableNames)

section

variable {x : String}

@[simp] theorem mem_namesIn_nil : x ∈ namesIn [] ↔ False := by
  simp [namesIn]

@[simp] theorem mem_namesIn_cons {e : Element} {es : List Element} :
    x ∈ namesIn (e :: es) ↔ x ∈ e.variableNames ∨ x ∈ namesIn es := by
  simp only [namesIn, List.flatMap_cons, List.mem_append]

@[simp] theorem mem_namesIn_append {es es' : List Element} :
    x ∈ namesIn (es ++ es') ↔ x ∈ namesIn es ∨ x ∈ namesIn es' := by
  simp only [namesIn, List.flatMap_append, List.mem_append]

end

end Element

/-- The names of variables in all blocks of a graph, whether control can reach them or not. -/
def Graph.variableNames (g : Graph) : List String := Element.namesIn (g.ids.flatMap g.elementsOf)

/-! ## Names in the text -/

namespace Event

/-- The names that a node declares or is. -/
@[simp] def plainNames : Event → List String
  | .stmt (.localVar decl) => [decl.name]
  | .stmt (.forEach var _ _ _) => [var]
  | .stmt (.tryStmt resources _ _ _ _) => resources.map (·.name)
  | .expr (.name ident _) => [ident]
  | .catchClause clause => [clause.param]
  | _ => []

/-- The name of a member of `this`, which may be in parentheses. -/
def thisNames : Event → List String
  | .expr (.member object field _) =>
    match object.skipParens with
    | .this _ => [field]
    | _ => []
  | _ => []

theorem mem_variableNames {event : Event} {x : String} :
    x ∈ event.variableNames ↔ x ∈ event.plainNames ∨ x ∈ event.thisNames := by
  cases event with
  | stmt s => cases s <;> simp [variableNames, thisNames]
  | catchClause clause => simp [variableNames, thisNames]
  | expr e =>
    cases e with
    | member object field span =>
      have hmember : variableNames (.expr (.member object field span)) =
          thisNames (.expr (.member object field span)) := rfl
      simp [hmember]
    | _ => simp [variableNames, thisNames]

end Event

namespace Visit

/-- The names that a function finds in some nodes. -/
def gather (names : Event → List String) (visits : List Visit) : List String :=
  visits.flatMap fun visit => names visit.event

section

variable {names : Event → List String} {x : String}

@[simp] theorem mem_gather_nil : x ∈ gather names [] ↔ False := by
  simp [gather]

@[simp] theorem mem_gather_cons {visit : Visit} {visits : List Visit} :
    x ∈ gather names (visit :: visits) ↔ x ∈ names visit.event ∨ x ∈ gather names visits := by
  simp only [gather, List.flatMap_cons, List.mem_append]

@[simp] theorem mem_gather_append {visits visits' : List Visit} :
    x ∈ gather names (visits ++ visits') ↔ x ∈ gather names visits ∨ x ∈ gather names visits' := by
  simp only [gather, List.flatMap_append, List.mem_append]

/-- How deep a node is does not matter for its names. -/
@[simp] theorem gather_deeper (visits : List Visit) :
    gather names (visits.map deeper) = gather names visits := by
  simp only [gather, List.flatMap_map]
  rfl

end

end Visit

namespace Event

/-- The names that occur in an assertion. -/
@[simp] def assertNames : Event → List String
  | .stmt (.assertStmt test message _) =>
    Visit.gather plainNames (test.preorder ++ Expr.preorderOption message)
  | _ => []

end Event

namespace Block

/-- The names that a body uses as members of `this`. -/
def thisNames (body : Block) : List String := Visit.gather Event.thisNames body.preorder

/-- The names that occur in the assertions of a body. -/
def assertNames (body : Block) : List String := Visit.gather Event.assertNames body.preorder

/-- The names that are counted are those of all nodes, each taken once. -/
theorem variableNames_eq_foldl (body : Block) :
    body.variableNames =
      body.preorder.foldl (fun names visit => appendAllNew names visit.event.variableNames) [] :=
  congrArg Prod.snd (body.walk_of_yield (fun _ _ _ => rfl) {} [])

theorem nodup_variableNames (body : Block) : body.variableNames.Nodup := by
  rw [variableNames_eq_foldl]
  exact List.foldlRecOn _ _ List.nodup_nil fun _ hnodup _ _ => nodup_appendAllNew hnodup

/-- The names of a body are those its events have, alone or after `this`. -/
theorem mem_variableNames_iff {body : Block} {x : String} :
    x ∈ body.variableNames ↔ x ∈ Visit.gather Event.plainNames body.preorder ∨
      x ∈ body.thisNames := by
  have hfold : ∀ (visits : List Visit) (names : List String),
      x ∈ visits.foldl (fun names visit => appendAllNew names visit.event.variableNames) names ↔
        x ∈ names ∨ x ∈ Visit.gather Event.variableNames visits := by
    intro visits
    induction visits with
    | nil => simp
    | cons visit visits ih =>
      intro names
      rw [List.foldl_cons, ih, mem_appendAllNew, Visit.mem_gather_cons, or_assoc]
  have hsplit : ∀ visits : List Visit, x ∈ Visit.gather Event.variableNames visits ↔
      x ∈ Visit.gather Event.plainNames visits ∨ x ∈ Visit.gather Event.thisNames visits := by
    intro visits
    simp only [Visit.gather, List.mem_flatMap, Event.mem_variableNames, and_or_left, exists_or]
  rw [variableNames_eq_foldl, hfold, hsplit, thisNames]
  simp

end Block

/-! ## Expressions -/

namespace Expr

/-- A plain name in parentheses brings up that name and nothing else. -/
theorem mem_gather_of_plainName? {e : Expr} {ident x : String} (h : e.plainName? = some ident) :
    x ∈ Visit.gather Event.plainNames e.preorder ↔ x = ident := by
  induction e using Expr.induct with
  | name name span =>
    cases h
    simp
  | paren inner span ih =>
    have hinner : inner.plainName? = some ident := h
    simp [ih hinner]
  | _ => simp [plainName?, skipParens] at h

variable {x : String}

theorem mem_gather_option {e : Option Expr}
    (ih : ∀ e', e = some e' →
      (x ∈ Visit.gather Event.plainNames e'.preorder ↔ x ∈ Element.namesIn e'.elements)) :
    x ∈ Visit.gather Event.plainNames (preorderOption e) ↔
      x ∈ Element.namesIn (elementsOption e) := by
  cases e with
  | none => simp
  | some e => exact ih e rfl

/-- Expressions in a list name in the text what they name in the graph. -/
theorem mem_gather_all {es : List Expr}
    (ih : ∀ e ∈ es,
      (x ∈ Visit.gather Event.plainNames e.preorder ↔ x ∈ Element.namesIn e.elements)) :
    x ∈ Visit.gather Event.plainNames (preorderAll es) ↔ x ∈ Element.namesIn (elementsAll es) := by
  induction es with
  | nil => simp
  | cons e es ihs =>
    simp [ih e List.mem_cons_self, ihs fun e he => ih e (List.mem_cons_of_mem _ he)]

/-- The text of an expression and its elements have the same names. -/
theorem mem_gather_iff (e : Expr) :
    x ∈ Visit.gather Event.plainNames e.preorder ↔ x ∈ Element.namesIn e.elements := by
  induction e using Expr.induct with
  | name ident span | this span | literal value span | lambda span => simp
  | binary op left right span ihl ihr => simp [ihl, ihr]
  | unary op arg span ih => simp [ih]
  | assign op target value span iht ihv =>
    -- A plain name has no element of its own as a target: the assignment holds it.
    cases hname : target.plainName? with
    | none => simp [hname, iht, ihv]
    | some ident => simp [hname, mem_gather_of_plainName? hname, ihv, or_comm]
  | cond test cons alt span iht ihc iha => simp [iht, ihc, iha]
  | call receiver method args throws span ihr iha =>
    simp [mem_gather_option ihr, mem_gather_all iha]
  | new cls args throws span iha => simp [mem_gather_all iha]
  | newArray elem dims init span ihd ihi => simp [mem_gather_all ihd, mem_gather_all ihi]
  | member object field span ih => simp [ih]
  | index array offset span iha iho => simp [iha, iho]
  | cast ty inner span ih | instanceOf inner ty span ih | paren inner span ih => simp [ih]

end Expr

/-! ## Statements -/

section Statements

variable {x : String}

theorem Expr.not_mem_assertNames_option {e : Option Expr}
    (ih : ∀ e', e = some e' → x ∉ Visit.gather Event.assertNames e'.preorder) :
    x ∉ Visit.gather Event.assertNames (Expr.preorderOption e) := by
  cases e with
  | none => simp
  | some e => exact ih e rfl

theorem Expr.not_mem_assertNames_all {es : List Expr}
    (ih : ∀ e ∈ es, x ∉ Visit.gather Event.assertNames e.preorder) :
    x ∉ Visit.gather Event.assertNames (Expr.preorderAll es) := by
  induction es with
  | nil => simp
  | cons e es ihs =>
    simp [ih e List.mem_cons_self, ihs fun e he => ih e (List.mem_cons_of_mem _ he)]

/-- There are no assertions in an expression. -/
theorem Expr.not_mem_assertNames (e : Expr) : x ∉ Visit.gather Event.assertNames e.preorder := by
  induction e using Expr.induct with
  | call receiver method args throws span ihr iha =>
    simp [Expr.not_mem_assertNames_option ihr, Expr.not_mem_assertNames_all iha]
  | new cls args throws span iha => simp [Expr.not_mem_assertNames_all iha]
  | newArray elem dims init span ihd ihi =>
    simp [Expr.not_mem_assertNames_all ihd, Expr.not_mem_assertNames_all ihi]
  | _ => simp [*]

/-- The text and the elements have the same names, assertions apart. -/
def SameNames (x : String) (visits : List Visit) (elements : List Element) : Prop :=
  x ∈ Visit.gather Event.plainNames visits ↔
    x ∈ Element.namesIn elements ∨ x ∈ Visit.gather Event.assertNames visits

namespace SameNames

variable {visits visits' : List Visit} {elements elements' : List Element}

theorem nil : SameNames x [] [] := by
  simp [SameNames]

/-- Joined texts name the same variables if their parts do. -/
theorem append (h : SameNames x visits elements) (h' : SameNames x visits' elements') :
    SameNames x (visits ++ visits') (elements ++ elements') := by
  unfold SameNames at *
  rw [Visit.mem_gather_append, Visit.mem_gather_append, Element.mem_namesIn_append, h, h',
    or_or_or_comm]

/-- The order of elements does not matter. -/
theorem perm (h : SameNames x visits elements) (hperm : elements.Perm elements') :
    SameNames x visits elements' := by
  unfold SameNames at *
  rw [h, Element.namesIn, Element.namesIn, (hperm.flatMap_right _).mem_iff]

/-- Deeper nesting changes no names. -/
theorem deeper (h : SameNames x visits elements) :
    SameNames x (visits.map Visit.deeper) elements := by
  unfold SameNames at *
  rw [Visit.gather_deeper, Visit.gather_deeper, h]

/-- A node that is no assertion has the names of some elements. -/
theorem cons (elements : List Element) {event : Event} {depth : Nat}
    (hnames : x ∈ event.plainNames ↔ x ∈ Element.namesIn elements)
    (hassert : event.assertNames = []) (h : SameNames x visits elements') :
    SameNames x (⟨event, depth⟩ :: visits) (elements ++ elements') := by
  unfold SameNames at *
  rw [Visit.mem_gather_cons, Visit.mem_gather_cons, hassert, hnames, h,
    Element.mem_namesIn_append, or_assoc]
  simp

/-- A node without names of its own. -/
theorem quiet {event : Event} {depth : Nat} (hnames : event.plainNames = [])
    (hassert : event.assertNames = []) (h : SameNames x visits elements) :
      SameNames x (⟨event, depth⟩ :: visits) elements :=
  cons [] (by rw [hnames]; simp) hassert h

/-- An element without names. -/
theorem step {element : Element} (hnames : element.variableNames = [])
    (h : SameNames x visits elements) :
    SameNames x visits (element :: elements) := by
  unfold SameNames at *
  rw [h, Element.mem_namesIn_cons, hnames]
  simp

end SameNames

/-- An expression names the same variables in the text and in the graph. -/
theorem Expr.sameNames (e : Expr) : SameNames x e.preorder e.elements := by
  unfold SameNames
  simp [e.mem_gather_iff, e.not_mem_assertNames]

theorem Expr.sameNames_option (e : Option Expr) :
    SameNames x (Expr.preorderOption e) (Expr.elementsOption e) := by
  cases e with
  | none => exact .nil
  | some e => exact e.sameNames

theorem Expr.sameNames_all (es : List Expr) :
    SameNames x (Expr.preorderAll es) (Expr.elementsAll es) := by
  induction es with
  | nil => exact .nil
  | cons e es ih => exact e.sameNames.append ih

theorem LocalVar.sameNames_inits (decls : List LocalVar) :
    SameNames x (LocalVar.preorderAll decls)
      (decls.flatMap fun decl => Expr.elementsOption decl.init) := by
  induction decls with
  | nil => exact .nil
  | cons decl decls ih => exact (Expr.sameNames_option decl.init).append ih

theorem LocalVar.mem_namesIn_declarations (decls : List LocalVar) :
    x ∈ decls.map (·.name) ↔
      x ∈ Element.namesIn (decls.flatMap fun decl => [⟨.declaration decl.name, decl.span⟩]) := by
  induction decls with
  | nil => simp
  | cons decl decls ih => rw [List.map_cons, List.mem_cons, ih, List.flatMap_cons]; simp

theorem Stmt.sameNames_all {stmts : List Stmt}
    (ih : ∀ s ∈ stmts, SameNames x s.preorder s.elements) :
    SameNames x (Stmt.preorderAll stmts) (Stmt.elementsAll stmts) := by
  induction stmts with
  | nil => exact .nil
  | cons s stmts ihs =>
    exact (ih s List.mem_cons_self).append (ihs fun s hs => ih s (List.mem_cons_of_mem _ hs))

theorem Stmt.sameNames_else {alt : Option Stmt}
    (ih : ∀ s, alt = some s → SameNames x s.preorder s.elements) :
    SameNames x (Stmt.preorderElse alt) (Stmt.elementsOption alt) := by
  cases alt with
  | none => exact .nil
  | some alt =>
    rw [Stmt.preorderElse]
    split
    · exact ih alt rfl
    · exact (ih alt rfl).deeper

theorem Block.sameNames_finalizer {finalizer : Option Block}
    (ih : ∀ final, finalizer = some final → ∀ s ∈ final.stmts, SameNames x s.preorder s.elements) :
    SameNames x (Block.preorderFinalizer finalizer) (Block.elementsOption finalizer) := by
  rcases finalizer with _ | ⟨stmts, span⟩
  · exact .nil
  · exact (Stmt.sameNames_all (ih _ rfl)).deeper

theorem CaseGroup.sameNames_all {groups : List CaseGroup}
    (ih : ∀ group ∈ groups, ∀ s ∈ group.body, SameNames x s.preorder s.elements) :
    SameNames x (CaseGroup.preorderAll groups) (CaseGroup.elementsAll groups) := by
  induction groups with
  | nil => exact .nil
  | cons group groups ihs =>
    have hgroup := Stmt.sameNames_all (ih group List.mem_cons_self)
    cases group
    exact hgroup.append (ihs fun g hg => ih g (List.mem_cons_of_mem _ hg))

/-- A catch clause is named by its own node and by the first element of its block. -/
theorem CatchClause.sameNames_all {clauses : List CatchClause}
    (ih : ∀ clause ∈ clauses, ∀ s ∈ clause.body.stmts, SameNames x s.preorder s.elements) :
    SameNames x (CatchClause.preorderAll clauses) (CatchClause.elementsAll clauses) := by
  induction clauses with
  | nil => exact .nil
  | cons clause clauses ihs =>
    have hclause := Stmt.sameNames_all (ih clause List.mem_cons_self)
    obtain ⟨param, types, ⟨stmts, bodySpan⟩, span⟩ := clause
    refine .cons [⟨.declaration param, span⟩] (by simp) rfl ?_
    exact hclause.deeper.append (ihs fun c hc => ih c (List.mem_cons_of_mem _ hc))

/-- The text of a statement and its elements have the same names, assertions apart. -/
theorem Stmt.sameNames (s : Stmt) : SameNames x s.preorder s.elements := by
  induction s using Stmt.induct with
  | block b ih =>
    have hstmts := Stmt.sameNames_all ih
    cases b
    exact .quiet rfl rfl hstmts
  | expr e span => exact .quiet rfl rfl e.sameNames
  | localVar decl =>
    rw [Stmt.preorder, Stmt.elements, LocalVar.elements]
    refine .perm ?_ List.perm_append_comm
    exact .cons _ (by simp) rfl (Expr.sameNames_option decl.init)
  | ifStmt test cons alt span ihc iha =>
    rw [Stmt.preorder, Stmt.elements, List.append_assoc]
    exact .quiet rfl rfl (test.sameNames.append (ihc.deeper.append (Stmt.sameNames_else iha)))
  | whileStmt test body span ih => exact .quiet rfl rfl (test.sameNames.append ih.deeper)
  | doWhile body test span ih => exact .quiet rfl rfl (ih.deeper.append test.sameNames)
  | forStmt init test update body span ihi ih =>
    -- The updates stand before the body and are evaluated after it.
    rw [Stmt.preorder, Stmt.elements, List.append_assoc, List.append_assoc]
    refine .quiet rfl rfl ((Stmt.sameNames_all ihi).append ((Expr.sameNames_option test).append ?_))
    exact ((Expr.sameNames_all update).append ih.deeper).perm List.perm_append_comm
  | forEach var iterable body span ih =>
    rw [Stmt.preorder, Stmt.elements, List.append_assoc]
    refine .perm ?_ (List.perm_append_comm_assoc _ _ _)
    exact .cons _ (by simp) rfl (iterable.sameNames.append ih.deeper)
  | switch selector groups span ih =>
    exact .quiet rfl rfl (selector.sameNames.append (CaseGroup.sameNames_all ih).deeper)
  | tryStmt resources block catches finalizer span ihb ihc ihf =>
    have hstmts := Stmt.sameNames_all ihb
    cases block
    -- The statement declares all resources; in the graph each is declared after its initial value.
    have hresources :=
      List.flatMap_append_perm resources (fun decl => Expr.elementsOption decl.init)
      fun decl => [⟨.declaration decl.name, decl.span⟩]
    have hinner := (((LocalVar.sameNames_inits resources).append hstmts).deeper.append
      ((CatchClause.sameNames_all ihc).append (Block.sameNames_finalizer ihf)))
    rw [Stmt.preorder, Stmt.elements, List.append_assoc, List.append_assoc]
    refine .perm (.cons _ (LocalVar.mem_namesIn_declarations resources) rfl hinner) ?_
    rw [List.append_assoc]
    refine (List.perm_append_comm_assoc _ _ _).trans ?_
    rw [← List.append_assoc]
    exact hresources.append_right _
  | labeled label body span ih => exact .quiet rfl rfl ih
  | breakStmt label span | continueStmt label span | empty span | missing span =>
    exact .quiet rfl rfl .nil
  | returnStmt arg span => exact .quiet rfl rfl (Expr.sameNames_option arg)
  | throwStmt arg span => exact .quiet rfl rfl arg.sameNames
  | synchronized lock body span ih =>
    have hstmts := Stmt.sameNames_all ih
    cases body
    rw [Stmt.preorder, Stmt.elements, List.append_assoc]
    exact .quiet rfl rfl (lock.sameNames.append (.step rfl hstmts))
  | assertStmt test message span =>
    -- All names of an assertion are its own, for none is in an assertion below it.
    have htest := test.not_mem_assertNames (x := x)
    have hmessage := Expr.not_mem_assertNames_option (e := message) fun e _ =>
        e.not_mem_assertNames (x := x)
    simp [SameNames, htest, hmessage]
  | localClass ident span => exact .quiet rfl rfl (.step rfl .nil)

end Statements

/-! ## Bodies -/

namespace Graph

variable {types : Subtyping} {body : Block} {g : Graph}

/-- The blocks of a graph hold the elements of the body. -/
theorem elements_perm (hg : build types body = .ok g) :
    (g.ids.flatMap g.elementsOf).Perm body.elements := by
  obtain ⟨d, hd, rfl⟩ := exists_draft hg
  rw [← text_draft hd]
  exact ((opened_draft hd).flatMap_right _).symm

/-- The names in a graph are those of the elements of its body. -/
theorem mem_variableNames_iff (hg : build types body = .ok g) {x : String} :
    x ∈ g.variableNames ↔ x ∈ Element.namesIn body.elements :=
  ((elements_perm hg).flatMap_right _).mem_iff

/-- The names that are counted in a body are those of the variables in its graph, those of members
of `this`, and those in assertions. Without the last two, the variables of the graph are counted. -/
theorem build_variableNames (hg : build types body = .ok g) :
    body.variableCount = body.variableNames.toFinset.card ∧
      body.variableNames.toFinset =
        g.variableNames.toFinset ∪ body.thisNames.toFinset ∪ body.assertNames.toFinset ∧
      (body.thisNames = [] → body.assertNames = [] →
        body.variableCount = g.variableNames.toFinset.card) := by
  have hcount : body.variableCount = body.variableNames.toFinset.card :=
    (List.toFinset_card_of_nodup body.nodup_variableNames).symm
  have hnames : body.variableNames.toFinset =
      g.variableNames.toFinset ∪ body.thisNames.toFinset ∪ body.assertNames.toFinset := by
    ext x
    have htext : SameNames x body.preorder body.elements :=
      Stmt.sameNames_all fun s _ => s.sameNames
    have hgraph := mem_variableNames_iff hg (x := x)
    simp only [Finset.mem_union, List.mem_toFinset, Block.mem_variableNames_iff, hgraph]
    rw [SameNames.eq_1] at htext
    rw [htext, or_right_comm]
    rfl
  refine ⟨hcount, hnames, fun hthis hassert => ?_⟩
  rw [hcount, hnames, hthis, hassert]
  simp

/-- A resource, a name in parentheses that is assigned to, a member of `this` and an assertion. -/
def touchingBody : Block where
  stmts :=
    [.tryStmt [{ name := "in", init := some (.name "source" {}) }]
      ⟨[.expr
        (.assign .assign (.paren (.name "total" {}) {})
          (.member (.paren (.this {}) {}) "size" {}) {}) {},
        .assertStmt (.name "valid" {}) none {}], {}⟩
      [⟨"e", ["Exception"], ⟨[], {}⟩, {}⟩] none {}]
  span := {}

/-- A loop over `items` whose variable is also what it assigns to. -/
def itemsBody : Block where
  stmts :=
    [.forEach "item" (.name "items" {})
      (.expr (.assign .assign (.name "item" {}) (.literal "0" {}) {}) {}) {}]
  span := {}

/-- A member of `this` and a name in an assertion are counted besides those of the graph. -/
theorem build_variableNames_touchingBody :
    (∃ g, build ClassHierarchy.javaLang.subtyping touchingBody = .ok g ∧
      ({"in", "source", "total", "e", "size", "valid"} : Finset String) =
        g.variableNames.toFinset ∪ {"size"} ∪ {"valid"}) ∧
      ∃ g, build ClassHierarchy.javaLang.subtyping itemsBody = .ok g ∧
        2 = g.variableNames.toFinset.card := by
  constructor
  · obtain ⟨g, hg⟩ := Except.failure?_eq_none_iff.mp
      ((failure?_build ClassHierarchy.javaLang.subtyping touchingBody).trans rfl)
    have hcounted : touchingBody.variableNames.toFinset =
        {"in", "source", "total", "e", "size", "valid"} := by
      decide
    have hthis : touchingBody.thisNames = ["size"] := rfl
    have hassert : touchingBody.assertNames = ["valid"] := rfl
    have hnames := (build_variableNames hg).2.1
    rw [hcounted, hthis, hassert] at hnames
    exact ⟨g, hg, hnames⟩
  · obtain ⟨g, hg⟩ := Except.failure?_eq_none_iff.mp
      ((failure?_build ClassHierarchy.javaLang.subtyping itemsBody).trans rfl)
    exact ⟨g, hg, (build_variableNames hg).2.2 rfl rfl⟩

end Graph

end MethodFlow
