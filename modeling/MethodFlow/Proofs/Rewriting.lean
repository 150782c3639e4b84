import MethodFlow.Proofs.Induction
import MethodFlow.Proofs.Scoping
import MethodFlow.Proofs.Segments

/-!
# Rewriting the expressions of a statement

`Stmt.mapExpr f` applies `f` to every expression that stands in a statement, wherever a statement
has one: its tests, operands, initial values, updates and case values. Statements, labels, clauses
and spans stay as they are, so what drawing reads off them before it comes to an expression stays
too: the blocks that a `switch` or a `try` statement makes, and where their numbers lie.
-/

namespace MethodFlow

/-! ## The rewriting -/

def LocalVar.mapExpr (f : Expr → Expr) (decl : LocalVar) : LocalVar :=
  { decl with init := decl.init.map f }

def CaseLabel.mapExpr (f : Expr → Expr) : CaseLabel → CaseLabel
  | .case values => .case (values.map f)
  | .default => .default

mutual

/-- Applies `f` to every expression of a statement. -/
@[simp] def Stmt.mapExpr (f : Expr → Expr) : Stmt → Stmt
  | .block ⟨stmts, span⟩ => .block ⟨Stmt.mapExprIn f stmts, span⟩
  | .expr e span => .expr (f e) span
  | .localVar decl => .localVar (decl.mapExpr f)
  | .ifStmt test cons alt span => .ifStmt (f test) (cons.mapExpr f) (Stmt.mapExprElse f alt) span
  | .whileStmt test body span => .whileStmt (f test) (body.mapExpr f) span
  | .doWhile body test span => .doWhile (body.mapExpr f) (f test) span
  | .forStmt init test update body span =>
    .forStmt (Stmt.mapExprIn f init) (test.map f) (update.map f) (body.mapExpr f) span
  | .forEach var iterable body span => .forEach var (f iterable) (body.mapExpr f) span
  | .switch selector groups span => .switch (f selector) (CaseGroup.mapExprIn f groups) span
  | .tryStmt resources ⟨stmts, blockSpan⟩ catches finalizer span =>
    .tryStmt (resources.map (·.mapExpr f)) ⟨Stmt.mapExprIn f stmts, blockSpan⟩
      (CatchClause.mapExprIn f catches) (Block.mapExprFinal f finalizer) span
  | .labeled label body span => .labeled label (body.mapExpr f) span
  | .breakStmt label span => .breakStmt label span
  | .continueStmt label span => .continueStmt label span
  | .returnStmt arg span => .returnStmt (arg.map f) span
  | .throwStmt arg span => .throwStmt (f arg) span
  | .synchronized lock ⟨stmts, blockSpan⟩ span =>
    .synchronized (f lock) ⟨Stmt.mapExprIn f stmts, blockSpan⟩ span
  | .assertStmt test message span => .assertStmt (f test) (message.map f) span
  | .localClass ident span => .localClass ident span
  | .empty span => .empty span
  | .missing span => .missing span

@[simp] def Stmt.mapExprIn (f : Expr → Expr) : List Stmt → List Stmt
  | [] => []
  | stmt :: stmts => stmt.mapExpr f :: Stmt.mapExprIn f stmts

@[simp] def Stmt.mapExprElse (f : Expr → Expr) : Option Stmt → Option Stmt
  | none => none
  | some stmt => some (stmt.mapExpr f)

@[simp] def CaseGroup.mapExprIn (f : Expr → Expr) : List CaseGroup → List CaseGroup
  | [] => []
  | ⟨labels, body, arrow, span⟩ :: groups =>
    ⟨labels.map (·.mapExpr f), Stmt.mapExprIn f body, arrow, span⟩ :: CaseGroup.mapExprIn f groups

@[simp] def CatchClause.mapExprIn (f : Expr → Expr) : List CatchClause → List CatchClause
  | [] => []
  | ⟨param, types, ⟨stmts, bodySpan⟩, span⟩ :: clauses =>
    ⟨param, types, ⟨Stmt.mapExprIn f stmts, bodySpan⟩, span⟩ :: CatchClause.mapExprIn f clauses

@[simp] def Block.mapExprFinal (f : Expr → Expr) : Option Block → Option Block
  | none => none
  | some ⟨stmts, span⟩ => some ⟨Stmt.mapExprIn f stmts, span⟩

end

/-- Applies `f` to every expression of a block. -/
def Block.mapExpr (f : Expr → Expr) (block : Block) : Block :=
  { block with stmts := block.stmts.map (·.mapExpr f) }

def CaseGroup.mapExpr (f : Expr → Expr) (group : CaseGroup) : CaseGroup :=
  { group with labels := group.labels.map (·.mapExpr f), body := group.body.map (·.mapExpr f) }

def CatchClause.mapExpr (f : Expr → Expr) (clause : CatchClause) : CatchClause :=
  { clause with body := clause.body.mapExpr f }

/-! ## The rewriting of the parts of a statement -/

section Equations

variable (f : Expr → Expr)

theorem Stmt.mapExprIn_eq (stmts : List Stmt) :
    Stmt.mapExprIn f stmts = stmts.map (·.mapExpr f) := by
  induction stmts with
  | nil => rw [Stmt.mapExprIn, List.map_nil]
  | cons stmt stmts ih => rw [Stmt.mapExprIn, ih, List.map_cons]

theorem Stmt.mapExprElse_eq (alt : Option Stmt) :
    Stmt.mapExprElse f alt = alt.map (·.mapExpr f) := by
  cases alt <;> rw [Stmt.mapExprElse] <;> rfl

theorem CaseGroup.mapExprIn_eq (groups : List CaseGroup) :
    CaseGroup.mapExprIn f groups = groups.map (·.mapExpr f) := by
  induction groups with
  | nil => rw [CaseGroup.mapExprIn, List.map_nil]
  | cons group groups ih =>
    cases group
    rw [CaseGroup.mapExprIn, ih, Stmt.mapExprIn_eq, List.map_cons]
    rfl

theorem CatchClause.mapExprIn_eq (clauses : List CatchClause) :
    CatchClause.mapExprIn f clauses = clauses.map (·.mapExpr f) := by
  induction clauses with
  | nil => rw [CatchClause.mapExprIn, List.map_nil]
  | cons clause clauses ih =>
    obtain ⟨_, _, ⟨_, _⟩, _⟩ := clause
    rw [CatchClause.mapExprIn, ih, Stmt.mapExprIn_eq, List.map_cons]
    rfl

theorem Block.mapExprFinal_eq (final : Option Block) :
    Block.mapExprFinal f final = final.map (·.mapExpr f) := by
  rcases final with _ | ⟨stmts, span⟩
  · rw [Block.mapExprFinal]
    rfl
  · rw [Block.mapExprFinal, Stmt.mapExprIn_eq]
    rfl

variable (span : Span)

theorem Stmt.mapExpr_block (block : Block) :
    (Stmt.block block).mapExpr f = .block (block.mapExpr f) := by
  cases block
  rw [Stmt.mapExpr, Stmt.mapExprIn_eq]
  rfl

theorem Stmt.mapExpr_if (test : Expr) (cons : Stmt) (alt : Option Stmt) :
    (Stmt.ifStmt test cons alt span).mapExpr f =
      .ifStmt (f test) (cons.mapExpr f) (alt.map (·.mapExpr f)) span := by
  rw [Stmt.mapExpr, Stmt.mapExprElse_eq]

theorem Stmt.mapExpr_for (init : List Stmt) (test : Option Expr) (update : List Expr)
    (body : Stmt) :
    (Stmt.forStmt init test update body span).mapExpr f =
      .forStmt (init.map (·.mapExpr f)) (test.map f) (update.map f) (body.mapExpr f) span := by
  rw [Stmt.mapExpr, Stmt.mapExprIn_eq]

theorem Stmt.mapExpr_switch (selector : Expr) (groups : List CaseGroup) :
    (Stmt.switch selector groups span).mapExpr f =
      .switch (f selector) (groups.map (·.mapExpr f)) span := by
  rw [Stmt.mapExpr, CaseGroup.mapExprIn_eq]

theorem Stmt.mapExpr_try (resources : List LocalVar) (block : Block) (catches : List CatchClause)
    (finalizer : Option Block) :
    (Stmt.tryStmt resources block catches finalizer span).mapExpr f =
      .tryStmt (resources.map (·.mapExpr f)) (block.mapExpr f) (catches.map (·.mapExpr f))
        (finalizer.map (·.mapExpr f)) span := by
  cases block
  rw [Stmt.mapExpr, Stmt.mapExprIn_eq, CatchClause.mapExprIn_eq, Block.mapExprFinal_eq]
  rfl

theorem Stmt.mapExpr_synchronized (lock : Expr) (body : Block) :
    (Stmt.synchronized lock body span).mapExpr f = .synchronized (f lock)
    (body.mapExpr f) span := by
  cases body
  rw [Stmt.mapExpr, Stmt.mapExprIn_eq]
  rfl

end Equations

/-! ## What stays as it is -/

section Kept

variable (f : Expr → Expr)

@[simp] theorem Stmt.span_mapExpr (s : Stmt) : (s.mapExpr f).span = s.span := by
  cases s with
  | block b => simp only [Stmt.mapExpr_block, Stmt.span, Block.mapExpr]
  | tryStmt resources block catches finalizer span => simp only [Stmt.mapExpr_try, Stmt.span]
  | synchronized lock body span => simp only [Stmt.mapExpr_synchronized, Stmt.span]
  | _ => simp only [Stmt.mapExpr, Stmt.span, LocalVar.mapExpr]

@[simp] theorem Stmt.isIf_mapExpr (s : Stmt) : (s.mapExpr f).isIf = s.isIf := by
  cases s with
  | block b => simp only [Stmt.mapExpr_block, Stmt.isIf]
  | tryStmt resources block catches finalizer span => simp only [Stmt.mapExpr_try, Stmt.isIf]
  | synchronized lock body span => simp only [Stmt.mapExpr_synchronized, Stmt.isIf]
  | _ => simp only [Stmt.mapExpr, Stmt.isIf]

@[simp] theorem Stmt.carriesLabels_mapExpr (s : Stmt) :
    (s.mapExpr f).carriesLabels = s.carriesLabels := by
  induction s using Stmt.induct with
  | block b ih => simp only [Stmt.mapExpr_block, Stmt.carriesLabels, Stmt.isLoop]
  | tryStmt resources block catches finalizer span =>
    simp only [Stmt.mapExpr_try, Stmt.carriesLabels, Stmt.isLoop]
  | synchronized lock body span =>
    simp only [Stmt.mapExpr_synchronized, Stmt.carriesLabels, Stmt.isLoop]
  | labeled label body span ih =>
    rw [Stmt.mapExpr, Stmt.carriesLabels, Stmt.carriesLabels, ih]
  | _ => simp only [Stmt.mapExpr, Stmt.carriesLabels, Stmt.isLoop]

@[simp] theorem CaseLabel.isDefault_mapExpr (label : CaseLabel) :
    (label.mapExpr f).isDefault = label.isDefault := by
  cases label <;> rfl

@[simp] theorem CaseLabel.length_values_mapExpr (label : CaseLabel) :
    (label.mapExpr f).values.length = label.values.length := by
  cases label with
  | case values => exact List.length_map f
  | default => rfl

@[simp] theorem CaseGroup.hasDefault_mapExpr (group : CaseGroup) :
    (group.mapExpr f).hasDefault = group.hasDefault := by
  simp [CaseGroup.hasDefault, CaseGroup.mapExpr, Function.comp_def]

@[simp] theorem CaseGroup.valueCount_mapExpr (group : CaseGroup) :
    (group.mapExpr f).valueCount = group.valueCount := by
  simp [CaseGroup.valueCount, CaseGroup.mapExpr, List.length_flatMap, Function.comp_def]

theorem CaseGroup.keepsHead_mapExpr : CaseGroup.KeepsHead (·.mapExpr f) :=
  ⟨CaseGroup.valueCount_mapExpr f, CaseGroup.hasDefault_mapExpr f, fun _ => rfl⟩

theorem CatchClause.keepsHead_mapExpr : CatchClause.KeepsHead (·.mapExpr f) :=
  ⟨fun _ => rfl, fun _ => rfl, fun _ => rfl⟩

end Kept

/-! ## Scoping errors -/

section Errors

variable (f : Expr → Expr)

theorem Stmt.scopeErrorIn?_mapExpr {stmts : List Stmt}
    (ih : ∀ s ∈ stmts, ∀ around labels, (s.mapExpr f).scopeError? around labels =
      s.scopeError? around labels)
    (around : List Enclosing) :
    Stmt.scopeErrorIn? (stmts.map (·.mapExpr f)) around = Stmt.scopeErrorIn? stmts around := by
  induction stmts with
  | nil => rfl
  | cons s stmts ihs =>
    rw [List.map_cons, Stmt.scopeErrorIn?, Stmt.scopeErrorIn?, ih s List.mem_cons_self,
      ihs fun s hs => ih s (List.mem_cons_of_mem _ hs)]

/-- Rewriting expressions keeps scope errors: these lie in the statements. -/
theorem Stmt.scopeError?_mapExpr (s : Stmt) (around : List Enclosing) (labels : List String) :
    (s.mapExpr f).scopeError? around labels = s.scopeError? around labels := by
  induction s using Stmt.induct generalizing around labels with
  | block b ih =>
    cases b
    rw [Stmt.mapExpr_block, Block.mapExpr, Stmt.scopeError?, Stmt.scopeError?,
      Stmt.scopeErrorIn?_mapExpr f ih]
  | ifStmt test cons alt span ihc iha =>
    rw [Stmt.mapExpr_if, Stmt.scopeError?, Stmt.scopeError?, ihc]
    cases alt with
    | none => rfl
    | some alt => rw [Option.map_some, Stmt.scopeErrorElse?, Stmt.scopeErrorElse?, iha alt rfl]
  | whileStmt test body span ih | doWhile body test span ih | forEach var iterable body span ih =>
    rw [Stmt.mapExpr, Stmt.scopeError?, Stmt.scopeError?, ih]
  | forStmt init test update body span ihi ih =>
    rw [Stmt.mapExpr_for, Stmt.scopeError?, Stmt.scopeError?, Stmt.scopeErrorIn?_mapExpr f ihi, ih]
  | switch selector groups span ih =>
    rw [Stmt.mapExpr_switch, Stmt.scopeError?, Stmt.scopeError?]
    induction groups with
    | nil => rfl
    | cons group groups ihs =>
      cases group
      rw [List.map_cons, CaseGroup.mapExpr, CaseGroup.scopeError?, CaseGroup.scopeError?,
        Stmt.scopeErrorIn?_mapExpr f (ih _ List.mem_cons_self), ihs fun g hg =>
          ih g (List.mem_cons_of_mem _ hg)]
  | tryStmt resources block catches finalizer span ihb ihc ihf =>
    obtain ⟨stmts, blockSpan⟩ := block
    have hclauses : CatchClause.scopeError? (catches.map (·.mapExpr f)) around =
        CatchClause.scopeError? catches around := by
      induction catches with
      | nil => rfl
      | cons clause clauses ihs =>
        obtain ⟨_, _, ⟨_, _⟩, _⟩ := clause
        rw [List.map_cons, CatchClause.mapExpr, Block.mapExpr, CatchClause.scopeError?,
          CatchClause.scopeError?, Stmt.scopeErrorIn?_mapExpr f (ihc _ List.mem_cons_self),
          ihs fun c hc => ihc c (List.mem_cons_of_mem _ hc)]
    have hfinal : Block.scopeError? (finalizer.map (·.mapExpr f)) around =
        Block.scopeError? finalizer around := by
      rcases finalizer with _ | ⟨stmts, _⟩
      · rfl
      · rw [Option.map_some, Block.mapExpr, Block.scopeError?, Block.scopeError?,
          Stmt.scopeErrorIn?_mapExpr f (ihf _ rfl)]
    rw [Stmt.mapExpr_try, Block.mapExpr, Stmt.scopeError?, Stmt.scopeError?, hclauses, hfinal,
      Stmt.scopeErrorIn?_mapExpr f ihb]
  | labeled label body span ih =>
    rw [Stmt.mapExpr, Stmt.scopeError?, Stmt.scopeError?, Stmt.carriesLabels_mapExpr, ih, ih]
  | synchronized lock body span ih =>
    cases body
    rw [Stmt.mapExpr_synchronized, Block.mapExpr, Stmt.scopeError?, Stmt.scopeError?,
      Stmt.scopeErrorIn?_mapExpr f ih]
  | _ => simp only [Stmt.mapExpr, Stmt.scopeError?]

/-- A body fails to build for the same reason whatever its expressions are. -/
theorem Block.scopeErrorIn?_mapExpr (body : Block) :
    Stmt.scopeErrorIn? (body.mapExpr f).stmts [] = Stmt.scopeErrorIn? body.stmts [] :=
  Stmt.scopeErrorIn?_mapExpr f (fun s _ => s.scopeError?_mapExpr f) []

end Errors

/-! ## Rewriting nothing -/

theorem LocalVar.mapExpr_id (decl : LocalVar) : decl.mapExpr id = decl := by
  rw [LocalVar.mapExpr, Option.map_id_fun, id]

theorem CaseLabel.mapExpr_id (label : CaseLabel) : label.mapExpr id = label := by
  cases label with
  | case values => rw [CaseLabel.mapExpr, List.map_id_fun, id]
  | default => rfl

theorem Stmt.map_mapExpr_id {stmts : List Stmt} (h : ∀ s ∈ stmts, s.mapExpr id = s) :
    stmts.map (·.mapExpr id) = stmts :=
  (List.map_congr_left h).trans (List.map_id _)

theorem Block.mapExpr_id_of {block : Block} (h : ∀ s ∈ block.stmts, s.mapExpr id = s) :
    block.mapExpr id = block := by
  cases block
  rw [Block.mapExpr, Stmt.map_mapExpr_id h]

/-- Rewriting no expression leaves a statement as it is. -/
theorem Stmt.mapExpr_id (s : Stmt) : s.mapExpr id = s := by
  induction s using Stmt.induct with
  | block b ih => rw [Stmt.mapExpr_block, Block.mapExpr_id_of ih]
  | localVar decl => rw [Stmt.mapExpr, LocalVar.mapExpr_id]
  | ifStmt test cons alt span ihc iha =>
    rw [Stmt.mapExpr_if, ihc]
    cases alt with
    | none => rfl
    | some alt => rw [Option.map_some, iha alt rfl, id]
  | whileStmt test body span ih | doWhile body test span ih | forEach var iterable body span ih
  | labeled label body span ih => simp only [Stmt.mapExpr, ih, id]
  | forStmt init test update body span ihi ih =>
    rw [Stmt.mapExpr_for, Stmt.map_mapExpr_id ihi, ih, Option.map_id_fun, List.map_id_fun]
    rfl
  | switch selector groups span ih =>
    have hgroups : groups.map (·.mapExpr id) = groups := by
      refine (List.map_congr_left fun group hg => ?_).trans (List.map_id _)
      rw [CaseGroup.mapExpr, Stmt.map_mapExpr_id (ih group hg),
        List.map_congr_left fun label _ => label.mapExpr_id, List.map_id']
      cases group
      rfl
    rw [Stmt.mapExpr_switch, hgroups]
    rfl
  | tryStmt resources block catches finalizer span ihb ihc ihf =>
    have hresources : resources.map (·.mapExpr id) = resources :=
      (List.map_congr_left fun decl _ => decl.mapExpr_id).trans (List.map_id _)
    have hclauses : catches.map (·.mapExpr id) = catches := by
      refine (List.map_congr_left fun clause hc => ?_).trans (List.map_id _)
      rw [CatchClause.mapExpr, Block.mapExpr_id_of (ihc clause hc)]
      cases clause
      rfl
    have hfinal : finalizer.map (·.mapExpr id) = finalizer := by
      cases finalizer with
      | none => rfl
      | some final => rw [Option.map_some, Block.mapExpr_id_of (ihf final rfl)]
    rw [Stmt.mapExpr_try, hresources, Block.mapExpr_id_of ihb, hclauses, hfinal]
  | returnStmt arg span =>
    rw [Stmt.mapExpr, Option.map_id_fun]
    rfl
  | synchronized lock body span ih =>
    rw [Stmt.mapExpr_synchronized, Block.mapExpr_id_of ih]
    rfl
  | assertStmt test message span =>
    rw [Stmt.mapExpr, Option.map_id_fun]
    rfl
  | _ => simp only [Stmt.mapExpr, id]

theorem Block.mapExpr_id (body : Block) : body.mapExpr id = body :=
  Block.mapExpr_id_of fun s _ => s.mapExpr_id

end MethodFlow
