import MethodFlow.Flow
import MethodFlow.Proofs.Views

/-!
# Parentheses

`unparen` takes all parentheses out of a tree. Two trees that differ only by parentheses, put in or
taken out anywhere, are those with the same result, so what is said here of a tree and of `unparen`
of it holds of any two such trees.

Parentheses are read in three places: drawing looks through them at the targets of assignments and
at what is thrown, the measures look through them at members of `this`, and blocks take their spans
from expressions that may have them. Drawing leaves drafts alike up to those spans
(`Expr.covers_unparen`), and a visitor that pays no attention to parentheses comes to the same end
(`Block.walk_unparen`).

Main result: `Flow.build_unparen`.
-/

namespace MethodFlow

/-! ## Trees without parentheses -/

mutual

/-- The expression without parentheses. -/
def Expr.unparen : Expr → Expr
  | .paren e _ => e.unparen
  | .binary op left right span => .binary op left.unparen right.unparen span
  | .unary op arg span => .unary op arg.unparen span
  | .assign op target value span => .assign op target.unparen value.unparen span
  | .cond test cons alt span => .cond test.unparen cons.unparen alt.unparen span
  | .call receiver method args throws span =>
    .call (Expr.unparenOption receiver) method (Expr.unparenAll args) throws span
  | .new cls args throws span => .new cls (Expr.unparenAll args) throws span
  | .newArray elem dims init span =>
    .newArray elem (Expr.unparenAll dims) (Expr.unparenAll init) span
  | .member object field span => .member object.unparen field span
  | .index array offset span => .index array.unparen offset.unparen span
  | .cast ty e span => .cast ty e.unparen span
  | .instanceOf e ty span => .instanceOf e.unparen ty span
  | .name ident span => .name ident span
  | .this span => .this span
  | .literal value span => .literal value span
  | .lambda span => .lambda span

def Expr.unparenOption : Option Expr → Option Expr
  | none => none
  | some e => some e.unparen

def Expr.unparenAll : List Expr → List Expr
  | [] => []
  | e :: es => e.unparen :: Expr.unparenAll es

end

/-- The body without parentheses. -/
def Block.unparen (body : Block) : Block := body.mapExpr Expr.unparen

def Method.unparen (method : Method) : Method := { method with body := method.body.map (·.unparen) }

/-- The file without parentheses. -/
def CompilationUnit.unparen (unit : CompilationUnit) : CompilationUnit :=
  { unit with methods := unit.methods.map (·.unparen) }

namespace Expr

theorem unparenOption_eq (e : Option Expr) : unparenOption e = e.map unparen := by
  cases e <;> rw [unparenOption] <;> rfl

theorem unparenAll_eq (es : List Expr) : unparenAll es = es.map unparen := by
  induction es with
  | nil => rw [unparenAll, List.map_nil]
  | cons e es ih => rw [unparenAll, ih, List.map_cons]

theorem plainName?_unparen (e : Expr) : e.unparen.plainName? = e.plainName? := by
  induction e using Expr.induct with
  | paren inner span ih =>
    rw [unparen, ih]
    rfl
  | _ => simp only [unparen, plainName?, skipParens]

theorem newClass?_unparen (e : Expr) : e.unparen.newClass? = e.newClass? := by
  induction e using Expr.induct with
  | paren inner span ih =>
    rw [unparen, ih]
    rfl
  | _ => simp only [unparen, newClass?, skipParens]

end Expr

/-! ## Drawing -/

section Drawing

variable {t t' : Subtyping} {S : Option Span → Option Span → Prop}
  {R : Scope → List BlockId → Draft → Draft → Prop}

/-- Where spans do not count, an expression may be drawn without its parentheses. -/
theorem Expr.compared_unparen (hR : Comparison t t' S R) (hS : ∀ span span', S span span')
    {scope : Scope} {due : List BlockId} {d d' : Draft} (e : Expr) (h : R scope due d d') :
    R scope due (e.draw (scope.under t) d) (e.unparen.draw (scope.under t') d') := by
  have hs := hR.stable scope due
  induction e using Expr.induct generalizing d d' with
  | name ident span | this span | literal value span | lambda span =>
    rw [unparen, draw, draw]
    exact hs.emit h _ _
  | binary op left right span ihl ihr =>
    rw [unparen, draw, draw]
    exact hR.operator (ihr (ihl h)) _ span op.mayThrow
  | unary op arg span ih =>
    rw [unparen, draw, draw]
    exact hs.emit (ih h) _ _
  | assign op target value span iht ihv =>
    rw [unparen, draw, draw, plainName?_unparen]
    refine hR.operator (ihv ?_) _ span op.mayThrow
    split
    · exact h
    · exact iht h
  | cond test cons alt span iht ihc iha =>
    rw [unparen]
    exact hR.cond (hS _ _) (hS _ _) (hS _ _) iht ihc iha h
  | call receiver method args throws span ihr iha =>
    rw [unparen, draw, draw, unparenOption_eq, unparenAll_eq]
    exact hR.emit_raise (compared_all iha (compared_option ihr h)) _ _ throws
  | new cls args throws span iha =>
    rw [unparen, draw, draw, unparenAll_eq]
    exact hR.emit_raise (compared_all iha h) _ _ throws
  | newArray elem dims init span ihd ihi =>
    rw [unparen, draw, draw, unparenAll_eq, unparenAll_eq]
    exact hR.emit_raise (compared_all ihi (compared_all ihd h)) _ _ []
  | member object field span ih | cast ty inner span ih =>
    rw [unparen, draw, draw]
    exact hR.emit_raise (ih h) _ _ []
  | index array offset span iha iho =>
    rw [unparen, draw, draw]
    exact hR.emit_raise (iho (iha h)) _ _ []
  | instanceOf inner ty span ih =>
    rw [unparen, draw, draw]
    exact hs.emit (ih h) _ _
  | paren inner span ih =>
    rw [unparen, draw]
    exact ih h

/-- Taking parentheses off is a rewriting that every comparison covers. -/
theorem Expr.covers_unparen (hR : Comparison t t' S R) (hS : ∀ span span', S span span') :
    Comparison.Covers t t' S R Expr.unparen where
  span _ := hS _ _
  newClass? := Expr.newClass?_unparen
  draw e := e.compared_unparen hR hS

end Drawing

/-- Everything but spans is seen. -/
def View.placeless : View where
  shows _ := true
  span _ := none
  normal _ _ := rfl

/-- A body builds as it does without parentheses, and the graphs differ in spans only. -/
theorem Graph.build_unparen (types : Subtyping) (body : Block) :
    (∃ failure, Graph.build types body = .error failure ∧ Graph.build types body.unparen =
      .error failure) ∨
      ∃ g g', Graph.build types body = .ok g ∧ Graph.build types body.unparen = .ok g' ∧
        View.placeless.graph g = View.placeless.graph g' := by
  have hv : View.placeless.Hides types types := Or.inl rfl
  exact Graph.build_alike hv (Expr.covers_unparen (View.comparison hv) fun _ _ => rfl) body

/-! ## Walks -/

/-- The visitor pays no attention to parentheses: not to the node itself, nor inside another
node. -/
structure Visitor.Ignores {σ : Type} (v : Visitor σ) : Prop where
  paren : ∀ e span context state, v (.expr (.paren e span)) context state = .yield state
  expr : ∀ e : Expr, (∀ inner span, e ≠ .paren inner span) → v (.expr e.unparen) = v (.expr e)
  stmt : ∀ s : Stmt, v (.stmt (s.mapExpr Expr.unparen)) = v (.stmt s)
  catchClause : ∀ clause : CatchClause,
    v (.catchClause (clause.mapExpr Expr.unparen)) = v (.catchClause clause)

section Walks

open Walk (visit skip andThen nested)

variable {σ : Type} {v : Visitor σ} (hv : v.Ignores)

include hv

theorem Visitor.Ignores.visit_expr {e : Expr} (he : ∀ inner span, e ≠ .paren inner span) :
    visit v (.expr e.unparen) = visit v (.expr e) := by
  unfold visit
  rw [hv.expr e he]

/-- A visitor that ignores parentheses goes on at once. -/
theorem Visitor.Ignores.visit_paren (e : Expr) (span : Span) (next : Walk σ) :
    andThen (visit v (.expr (.paren e span))) next = next := by
  funext place
  unfold andThen visit
  dsimp only
  rw [hv.paren]

theorem Visitor.Ignores.visit_stmt (s : Stmt) : visit v (.stmt (s.mapExpr Expr.unparen)) =
    visit v (.stmt s) := by
  unfold visit
  rw [hv.stmt s]

omit hv in
theorem Expr.walkOption_unparen {e : Option Expr}
    (ih : ∀ e', e = some e' → e'.unparen.walk v = e'.walk v) :
    Expr.walkOption v (e.map unparen) = Expr.walkOption v e := by
  cases e with
  | none => rfl
  | some e => rw [Option.map_some, walkOption, walkOption, ih e rfl]

omit hv in
theorem Expr.walkAll_unparen {es : List Expr} (ih : ∀ e ∈ es, e.unparen.walk v = e.walk v) :
    Expr.walkAll v (es.map unparen) = Expr.walkAll v es := by
  induction es with
  | nil => rfl
  | cons e es ihs =>
    rw [List.map_cons, walkAll, walkAll, ih e List.mem_cons_self, ihs fun e he =>
      ih e (List.mem_cons_of_mem _ he)]

/-- Parentheses make no difference to a walk through an expression. -/
theorem Expr.walk_unparen (e : Expr) : e.unparen.walk v = e.walk v := by
  induction e using Expr.induct with
  | paren inner span ih =>
    rw [unparen, ih, walk, hv.visit_paren]
  | name ident span | this span | literal value span | lambda span =>
    rw [unparen]
  | binary op left right span ihl ihr =>
    have hvisit := hv.visit_expr (e := .binary op left right span) nofun
    rw [unparen] at hvisit ⊢
    rw [walk, walk, ihl, ihr, hvisit]
  | unary op arg span ih =>
    have hvisit := hv.visit_expr (e := .unary op arg span) nofun
    rw [unparen] at hvisit ⊢
    rw [walk, walk, ih, hvisit]
  | assign op target value span iht ihv =>
    have hvisit := hv.visit_expr (e := .assign op target value span) nofun
    rw [unparen] at hvisit ⊢
    rw [walk, walk, iht, ihv, hvisit]
  | cond test cons alt span iht ihc iha =>
    have hvisit := hv.visit_expr (e := .cond test cons alt span) nofun
    rw [unparen] at hvisit ⊢
    rw [walk, walk, iht, ihc, iha, hvisit]
  | call receiver method args throws span ihr iha =>
    have hvisit := hv.visit_expr (e := .call receiver method args throws span) nofun
    rw [unparen, unparenOption_eq, unparenAll_eq] at hvisit ⊢
    rw [walk, walk, walkOption_unparen ihr, walkAll_unparen iha, hvisit]
  | new cls args throws span iha =>
    have hvisit := hv.visit_expr (e := .new cls args throws span) nofun
    rw [unparen, unparenAll_eq] at hvisit ⊢
    rw [walk, walk, walkAll_unparen iha, hvisit]
  | newArray elem dims init span ihd ihi =>
    have hvisit := hv.visit_expr (e := .newArray elem dims init span) nofun
    rw [unparen, unparenAll_eq, unparenAll_eq] at hvisit ⊢
    rw [walk, walk, walkAll_unparen ihd, walkAll_unparen ihi, hvisit]
  | member object field span ih =>
    have hvisit := hv.visit_expr (e := .member object field span) nofun
    rw [unparen] at hvisit ⊢
    rw [walk, walk, ih, hvisit]
  | index array offset span iha iho =>
    have hvisit := hv.visit_expr (e := .index array offset span) nofun
    rw [unparen] at hvisit ⊢
    rw [walk, walk, iha, iho, hvisit]
  | cast ty inner span ih =>
    have hvisit := hv.visit_expr (e := .cast ty inner span) nofun
    rw [unparen] at hvisit ⊢
    rw [walk, walk, ih, hvisit]
  | instanceOf inner ty span ih =>
    have hvisit := hv.visit_expr (e := .instanceOf inner ty span) nofun
    rw [unparen] at hvisit ⊢
    rw [walk, walk, ih, hvisit]

theorem LocalVar.walkAll_unparen (decls : List LocalVar) :
    LocalVar.walkAll v (decls.map (·.mapExpr Expr.unparen)) = LocalVar.walkAll v decls := by
  induction decls with
  | nil => rfl
  | cons decl decls ih =>
    rw [List.map_cons, LocalVar.walkAll, LocalVar.walkAll, ih, LocalVar.mapExpr,
      Expr.walkOption_unparen fun e _ => e.walk_unparen hv]

omit hv in
theorem Stmt.walkAll_unparen {stmts : List Stmt}
    (ih : ∀ s ∈ stmts, (s.mapExpr Expr.unparen).walk v = s.walk v) :
    Stmt.walkAll v (stmts.map (·.mapExpr Expr.unparen)) = Stmt.walkAll v stmts := by
  induction stmts with
  | nil => rfl
  | cons s stmts ihs =>
    rw [List.map_cons, Stmt.walkAll, Stmt.walkAll, ih s List.mem_cons_self,
      ihs fun s hs => ih s (List.mem_cons_of_mem _ hs)]

omit hv in
theorem CaseGroup.walkAll_unparen {groups : List CaseGroup}
    (ih : ∀ group ∈ groups, ∀ s ∈ group.body, (s.mapExpr Expr.unparen).walk v = s.walk v) :
    CaseGroup.walkAll v (groups.map (·.mapExpr Expr.unparen)) = CaseGroup.walkAll v groups := by
  induction groups with
  | nil => rfl
  | cons group groups ihs =>
    cases group
    rw [List.map_cons, CaseGroup.mapExpr, CaseGroup.walkAll, CaseGroup.walkAll,
      Stmt.walkAll_unparen (ih _ List.mem_cons_self), ihs fun g hg =>
        ih g (List.mem_cons_of_mem _ hg)]

theorem CatchClause.walkAll_unparen {clauses : List CatchClause}
    (ih : ∀ clause ∈ clauses, ∀ s ∈ clause.body.stmts, (s.mapExpr Expr.unparen).walk v = s.walk v) :
    CatchClause.walkAll v (clauses.map (·.mapExpr Expr.unparen)) =
      CatchClause.walkAll v clauses := by
  induction clauses with
  | nil => rfl
  | cons clause clauses ihs =>
    obtain ⟨param, types, ⟨stmts, bodySpan⟩, span⟩ := clause
    have hvisit :
      visit v
        (.catchClause (CatchClause.mapExpr Expr.unparen ⟨param, types, ⟨stmts, bodySpan⟩, span⟩)) =
        visit v (.catchClause ⟨param, types, ⟨stmts, bodySpan⟩, span⟩) := by
      unfold visit
      rw [hv.catchClause]
    rw [CatchClause.mapExpr, Block.mapExpr] at hvisit
    rw [List.map_cons, CatchClause.mapExpr, Block.mapExpr, CatchClause.walkAll,
      CatchClause.walkAll, hvisit, Stmt.walkAll_unparen (ih _ List.mem_cons_self), ihs fun c hc =>
        ih c (List.mem_cons_of_mem _ hc)]

/-- Parentheses make no difference to a walk through a statement. -/
theorem Stmt.walk_unparen (s : Stmt) : (s.mapExpr Expr.unparen).walk v = s.walk v := by
  have hexpr : ∀ e : Expr, e.unparen.walk v = e.walk v := fun e => e.walk_unparen hv
  have hoption : ∀ e : Option Expr, Expr.walkOption v (e.map Expr.unparen) = Expr.walkOption v e :=
    fun e => Expr.walkOption_unparen fun e _ => hexpr e
  -- The visitor cannot tell the two statements apart; their parts follow by induction.
  induction s using Stmt.induct with
  | block b ih =>
    have hvisit := hv.visit_stmt (.block b)
    cases b
    rw [Stmt.mapExpr_block, Block.mapExpr] at hvisit ⊢
    rw [walk, walk, Stmt.walkAll_unparen ih, hvisit]
  | expr e span =>
    have hvisit := hv.visit_stmt (.expr e span)
    rw [Stmt.mapExpr] at hvisit ⊢
    rw [walk, walk, hexpr, hvisit]
  | localVar decl =>
    have hvisit := hv.visit_stmt (.localVar decl)
    rw [Stmt.mapExpr, LocalVar.mapExpr] at hvisit ⊢
    rw [walk, walk, hoption, hvisit]
  | ifStmt test cons alt span ihc iha =>
    have hvisit := hv.visit_stmt (.ifStmt test cons alt span)
    rw [Stmt.mapExpr_if] at hvisit ⊢
    have helse : Stmt.walkElse v (alt.map (·.mapExpr Expr.unparen)) = Stmt.walkElse v alt := by
      cases alt with
      | none => rfl
      | some alt => rw [Option.map_some, walkElse, walkElse, iha alt rfl, Stmt.isIf_mapExpr]
    rw [walk, walk, hexpr, ihc, helse, hvisit]
  | whileStmt test body span ih =>
    have hvisit := hv.visit_stmt (.whileStmt test body span)
    rw [Stmt.mapExpr] at hvisit ⊢
    rw [walk, walk, hexpr, ih, hvisit]
  | doWhile body test span ih =>
    have hvisit := hv.visit_stmt (.doWhile body test span)
    rw [Stmt.mapExpr] at hvisit ⊢
    rw [walk, walk, hexpr, ih, hvisit]
  | forStmt init test update body span ihi ih =>
    have hvisit := hv.visit_stmt (.forStmt init test update body span)
    rw [Stmt.mapExpr_for] at hvisit ⊢
    rw [walk, walk, Stmt.walkAll_unparen ihi, hoption, Expr.walkAll_unparen fun e _ =>
      hexpr e, ih, hvisit]
  | forEach var iterable body span ih =>
    have hvisit := hv.visit_stmt (.forEach var iterable body span)
    rw [Stmt.mapExpr] at hvisit ⊢
    rw [walk, walk, hexpr, ih, hvisit]
  | switch selector groups span ih =>
    have hvisit := hv.visit_stmt (.switch selector groups span)
    rw [Stmt.mapExpr_switch] at hvisit ⊢
    rw [walk, walk, hexpr, CaseGroup.walkAll_unparen ih, hvisit]
  | tryStmt resources block catches finalizer span ihb ihc ihf =>
    have hvisit := hv.visit_stmt (.tryStmt resources block catches finalizer span)
    obtain ⟨stmts, blockSpan⟩ := block
    rw [Stmt.mapExpr_try, Block.mapExpr] at hvisit ⊢
    have hfinal : Block.walkFinalizer v (finalizer.map (·.mapExpr Expr.unparen)) =
        Block.walkFinalizer v finalizer := by
      rcases finalizer with _ | ⟨stmts, _⟩
      · rfl
      · rw [Option.map_some, Block.mapExpr, Block.walkFinalizer, Block.walkFinalizer,
          Stmt.walkAll_unparen (ihf _ rfl)]
    rw [walk, walk, LocalVar.walkAll_unparen hv, Stmt.walkAll_unparen ihb,
      CatchClause.walkAll_unparen hv ihc, hfinal, hvisit]
  | labeled label body span ih =>
    have hvisit := hv.visit_stmt (.labeled label body span)
    rw [Stmt.mapExpr] at hvisit ⊢
    rw [walk, walk, ih, hvisit]
  | returnStmt arg span =>
    have hvisit := hv.visit_stmt (.returnStmt arg span)
    rw [Stmt.mapExpr] at hvisit ⊢
    rw [walk, walk, hoption, hvisit]
  | throwStmt arg span =>
    have hvisit := hv.visit_stmt (.throwStmt arg span)
    rw [Stmt.mapExpr] at hvisit ⊢
    rw [walk, walk, hexpr, hvisit]
  | synchronized lock body span ih =>
    have hvisit := hv.visit_stmt (.synchronized lock body span)
    cases body
    rw [Stmt.mapExpr_synchronized, Block.mapExpr] at hvisit ⊢
    rw [walk, walk, hexpr, Stmt.walkAll_unparen ih, hvisit]
  | assertStmt test message span =>
    have hvisit := hv.visit_stmt (.assertStmt test message span)
    rw [Stmt.mapExpr] at hvisit ⊢
    rw [walk, walk, hexpr, hoption, hvisit]
  | breakStmt label span | continueStmt label span | localClass ident span | empty span
  | missing span =>
    rw [Stmt.mapExpr]

/-- A visitor that ignores parentheses comes to the same end without them. -/
theorem Block.walk_unparen (body : Block) (context : WalkContext) (state : σ) :
    body.unparen.walk v context state = body.walk v context state := by
  unfold Block.walk Block.unparen Block.mapExpr
  rw [Stmt.walkAll_unparen fun s _ => s.walk_unparen hv]

end Walks

/-! ## Measures -/

/-- The measure of nesting ignores parentheses. -/
theorem Visitor.ignores_deepest : Visitor.deepest.Ignores where
  paren _ _ _ _ := rfl
  expr _ _ := rfl
  stmt _ := rfl
  catchClause _ := rfl

/-- A member counts or not, in parentheses or not. -/
theorem Event.variableNames_member (object : Expr) (field : String) (span : Span) :
    Event.variableNames (.expr (.member object.unparen field span)) =
      Event.variableNames (.expr (.member object field span)) := by
  induction object using Expr.induct with
  | paren inner innerSpan ih =>
    rw [Expr.unparen, ih]
    rfl
  | _ => simp only [Expr.unparen, Event.variableNames, Expr.skipParens]

theorem Visitor.ignores_variableNames : Visitor.variableNames.Ignores where
  paren _ _ _ _ := rfl
  expr e he := by
    have hnames : Event.variableNames (.expr e.unparen) = Event.variableNames (.expr e) := by
      cases e with
      | paren inner span => exact absurd rfl (he inner span)
      | member object field span =>
        rw [Expr.unparen]
        exact Event.variableNames_member object field span
      | _ => simp only [Expr.unparen, Event.variableNames]
    unfold Visitor.variableNames
    rw [hnames]
  stmt s := by
    have hnames : Event.variableNames (.stmt (s.mapExpr Expr.unparen)) =
        Event.variableNames (.stmt s) := by
      cases s with
      | tryStmt resources block catches finalizer span =>
        simp only [Stmt.mapExpr_try, Event.variableNames, List.map_map]
        rfl
      | block b => simp only [Stmt.mapExpr_block, Event.variableNames]
      | synchronized lock body span => simp only [Stmt.mapExpr_synchronized, Event.variableNames]
      | _ => simp only [Stmt.mapExpr, Event.variableNames, LocalVar.mapExpr]
    unfold Visitor.variableNames
    rw [hnames]
  catchClause _ := rfl

namespace Block

theorem nestingLevel_unparen (body : Block) : body.unparen.nestingLevel = body.nestingLevel := by
  rw [nestingLevel, walk_unparen Visitor.ignores_deepest]
  rfl

theorem variableCount_unparen (body : Block) : body.unparen.variableCount = body.variableCount := by
  rw [variableCount, variableNames, walk_unparen Visitor.ignores_variableNames]
  rfl

end Block

end MethodFlow
