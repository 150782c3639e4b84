import MethodFlow.Json.Reader
import MethodFlow.Json.Record
import MethodFlow.Tree.Kind

/-!
# Reading trees from JSON

Every node may be spelled as a keyed object or as the list of its fields (`Json.record?`), and
tagged nodes name their kind in either form (`Json.tagged?`). A span, a list, a flag or an operator
with a default may be left out; only fields that are optional in the tree may be `null`.

Nodes are read with an allowance, the number of levels that may still follow. The nesting depth of
the value is always enough, and that is what the readers without an allowance use.

Two spellings depend on where a node stands. The statements of a method's own body name their kind
by its tag only; any node below them may also give the kind by its ordinal.
-/

namespace MethodFlow

open Json (Record)

def Span.ofJson? (j : Json) : Option Span := do
  let r ← j.record? Span.fields
  let line ← r.defaulted? "line" 0 Json.toUInt32?
  let column ← r.defaulted? "column" 0 Json.toUInt32?
  let endLine ← r.defaulted? "end_line" 0 Json.toUInt32?
  let endColumn ← r.defaulted? "end_column" 0 Json.toUInt32?
  some ⟨line, column, endLine, endColumn⟩

/-- The span of a node, unknown when it is left out. -/
def Json.Record.span? (r : Record) : Option Span := r.defaulted? "span" .unknown Span.ofJson?

/-- A list that is empty when it is left out. -/
def Json.Record.list? (r : Record) (name : String) (read : Json → Option α) : Option (List α) :=
  r.defaulted? name [] (Json.listOf? read)

/-- Reads an expression that nests to at most the given depth. -/
def Expr.read? : Nat → Json → Option Expr
  | 0, _ => none
  | depth + 1, j => do
    let (kind, body) ← j.tagged? ExprKind.all ExprKind.tag true
    let r ← body.record? kind.fields
    let span ← r.span?
    match kind with
    | .name => return .name (← r.required? "name" Json.toText?) span
    | .this => return .this span
    | .literal => return .literal (← r.required? "value" Json.toText?) span
    | .binary =>
      return .binary (← r.required? "op" (Json.variant? BinaryOp.ofName? true))
        (← r.required? "left" (Expr.read? depth)) (← r.required? "right" (Expr.read? depth)) span
    | .unary =>
      return .unary (← r.required? "op" (Json.variant? UnaryOp.ofName? true))
        (← r.required? "arg" (Expr.read? depth)) span
    | .assign =>
      return .assign (← r.defaulted? "op" .assign (Json.variant? AssignOp.ofName? true))
        (← r.required? "target" (Expr.read? depth)) (← r.required? "value" (Expr.read? depth)) span
    | .cond =>
      return .cond (← r.required? "test" (Expr.read? depth))
        (← r.required? "cons" (Expr.read? depth)) (← r.required? "alt" (Expr.read? depth)) span
    | .call =>
      return .call (← r.optional? "receiver" (Expr.read? depth))
        (← r.required? "method" Json.toText?) (← r.list? "args" (Expr.read? depth))
        (← r.list? "throws" Json.toText?) span
    | .new =>
      return .new (← r.required? "class" Json.toText?) (← r.list? "args" (Expr.read? depth))
        (← r.list? "throws" Json.toText?) span
    | .newArray =>
      return .newArray (← r.required? "elem" Json.toText?) (← r.list? "dims" (Expr.read? depth))
        (← r.list? "init" (Expr.read? depth)) span
    | .member =>
      return .member (← r.required? "object" (Expr.read? depth))
        (← r.required? "name" Json.toText?) span
    | .index =>
      return .index (← r.required? "array" (Expr.read? depth))
        (← r.required? "index" (Expr.read? depth)) span
    | .cast =>
      return .cast (← r.required? "ty" Json.toText?) (← r.required? "expr" (Expr.read? depth)) span
    | .instanceOf =>
      return .instanceOf (← r.required? "expr" (Expr.read? depth))
        (← r.required? "ty" Json.toText?) span
    | .lambda => return .lambda span
    | .paren => return .paren (← r.required? "expr" (Expr.read? depth)) span

/-- Reads the fields of a declaration of a variable. -/
def LocalVar.ofRecord? (depth : Nat) (r : Record) : Option LocalVar := do
  let name ← r.required? "name" Json.toText?
  let ty ← r.optional? "ty" Json.toText?
  let init ← r.optional? "init" (Expr.read? depth)
  let span ← r.span?
  some { name, ty, init, span }

/-- Reads a resource of a `try` statement, which carries no tag. -/
def LocalVar.read? : Nat → Json → Option LocalVar
  | 0, _ => none
  | depth + 1, j => (j.record? StmtKind.localVar.fields).bind (LocalVar.ofRecord? depth)

/-- Reads a case label. A `default` label has no fields of its own and ignores any it is given by
key. -/
def CaseLabel.read? : Nat → Json → Option CaseLabel
  | 0, _ => none
  | depth + 1, j => do
    let (kind, body) ← j.tagged? LabelKind.all LabelKind.tag true
    let r ← body.record? kind.fields
    match kind with
    | .case => return .case (← r.required? "values" (Json.listOf? (Expr.read? depth)))
    | .default => return .default

mutual

/-- Reads a statement that nests to at most the given depth. -/
def Stmt.read? (ordinals : Bool) : Nat → Json → Option Stmt
  | 0, _ => none
  | depth + 1, j => do
    let (kind, body) ← j.tagged? StmtKind.all StmtKind.tag ordinals
    let r ← body.record? kind.fields
    let span ← r.span?
    match kind with
    | .block => return .block ⟨← r.required? "stmts" (Json.listOf? (Stmt.read? true depth)), span⟩
    | .expr => return .expr (← r.required? "expr" (Expr.read? depth)) span
    | .localVar => return .localVar (← LocalVar.ofRecord? depth r)
    | .ifStmt =>
      return .ifStmt (← r.required? "test" (Expr.read? depth))
        (← r.required? "cons" (Stmt.read? true depth)) (← r.optional? "alt" (Stmt.read? true depth))
        span
    | .whileStmt =>
      return .whileStmt (← r.required? "test" (Expr.read? depth))
        (← r.required? "body" (Stmt.read? true depth)) span
    | .doWhile =>
      return .doWhile (← r.required? "body" (Stmt.read? true depth))
        (← r.required? "test" (Expr.read? depth)) span
    | .forStmt =>
      return .forStmt (← r.list? "init" (Stmt.read? true depth))
        (← r.optional? "test" (Expr.read? depth)) (← r.list? "update" (Expr.read? depth))
        (← r.required? "body" (Stmt.read? true depth)) span
    | .forEach =>
      return .forEach (← r.required? "var" Json.toText?)
        (← r.required? "iterable" (Expr.read? depth))
        (← r.required? "body" (Stmt.read? true depth)) span
    | .switch =>
      return .switch (← r.required? "selector" (Expr.read? depth))
        (← r.list? "groups" (CaseGroup.read? depth)) span
    | .tryStmt =>
      return .tryStmt (← r.list? "resources" (LocalVar.read? depth))
        (← r.required? "block" (Block.read? true depth))
        (← r.list? "catches" (CatchClause.read? depth))
        (← r.optional? "finalizer" (Block.read? true depth)) span
    | .labeled =>
      return .labeled (← r.required? "label" Json.toText?)
        (← r.required? "body" (Stmt.read? true depth)) span
    | .breakStmt => return .breakStmt (← r.optional? "label" Json.toText?) span
    | .continueStmt => return .continueStmt (← r.optional? "label" Json.toText?) span
    | .returnStmt => return .returnStmt (← r.optional? "arg" (Expr.read? depth)) span
    | .throwStmt => return .throwStmt (← r.required? "arg" (Expr.read? depth)) span
    | .synchronized =>
      return .synchronized (← r.required? "lock" (Expr.read? depth))
        (← r.required? "body" (Block.read? true depth)) span
    | .assertStmt =>
      return .assertStmt (← r.required? "test" (Expr.read? depth))
        (← r.optional? "message" (Expr.read? depth)) span
    | .localClass => return .localClass (← r.required? "name" Json.toText?) span
    | .empty => return .empty span
    | .missing => return .missing span

/-- Reads a block that nests to at most the given depth. -/
def Block.read? (ordinals : Bool) : Nat → Json → Option Block
  | 0, _ => none
  | depth + 1, j => do
    let r ← j.record? StmtKind.block.fields
    return ⟨← r.required? "stmts" (Json.listOf? (Stmt.read? ordinals depth)), ← r.span?⟩

/-- Reads a group of a `switch`. -/
def CaseGroup.read? : Nat → Json → Option CaseGroup
  | 0, _ => none
  | depth + 1, j => do
    let r ← j.record? CaseGroup.fields
    return ⟨← r.required? "labels" (Json.listOf? (CaseLabel.read? depth)),
      ← r.list? "body" (Stmt.read? true depth), ← r.defaulted? "arrow" false Json.toBool?,
      ← r.span?⟩

/-- Reads a `catch` clause. -/
def CatchClause.read? : Nat → Json → Option CatchClause
  | 0, _ => none
  | depth + 1, j => do
    let r ← j.record? CatchClause.fields
    return ⟨← r.required? "param" Json.toText?, ← r.required? "types" (Json.listOf? Json.toText?),
      ← r.required? "body" (Block.read? true depth), ← r.span?⟩

end

/-- Reads the body of a method. -/
def Block.ofJson? (j : Json) : Option Block := Block.read? false j.depth j

def Method.ofJson? (j : Json) : Option Method := do
  let r ← j.record? Method.fields
  let name ← r.required? "name" Json.toText?
  let kind ← r.defaulted? "kind" .method (Json.variant? MethodKind.ofName? false)
  let body ← r.optional? "body" Block.ofJson?
  let span ← r.span?
  some { name, kind, body, span }

def CompilationUnit.ofJson? (j : Json) : Option CompilationUnit := do
  let r ← j.record? CompilationUnit.fields
  let filename ← r.defaulted? "filename" "" Json.toText?
  let methods ← r.list? "methods" Method.ofJson?
  some { filename, methods }

/-! ## Text -/

/-- Of a span, a block, a method or a unit only the known fields are read; a statement is read
whole. -/
def Span.interest : Json.Interest := .fields (Span.fields.map (·, .whole))

def Block.interest : Json.Interest :=
  .fields [("stmts", .items .whole), ("span", Span.interest)]

def Method.interest : Json.Interest :=
  .fields [("name", .whole), ("kind", .whole), ("body", Block.interest), ("span", Span.interest)]

def CompilationUnit.interest : Json.Interest :=
  .fields [("filename", .whole), ("methods", .items Method.interest)]

/-- How deeply arrays and objects may nest in the text of a unit. -/
def CompilationUnit.depthLimit : Nat := 127

/-- Reads a unit from JSON text. -/
def CompilationUnit.parse? (text : String) : Option CompilationUnit :=
  (Json.read? (some depthLimit) interest text).bind CompilationUnit.ofJson?

end MethodFlow
