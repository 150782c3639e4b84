import MethodFlow.Json.Value
import MethodFlow.Tree.Kind

/-!
# Writing trees as JSON

The canonical spelling of a tree: every node is a keyed object with all its fields, tagged nodes
with their kind in front, absent optional parts as `null`. Reading it gives the tree back.
-/

namespace MethodFlow

namespace Json

/-- The canonical spelling of a record. -/
def ofRecord (names : List String) (values : List Json) : Json := .object (names.zip values)

/-- The canonical spelling of a tagged record. -/
def ofTagged (tag : String) (names : List String) (values : List Json) : Json :=
  .object (("kind", .string tag) :: names.zip values)

def ofOption (write : α → Json) : Option α → Json
  | none => .null
  | some a => write a

def ofTexts (texts : List String) : Json := .array (texts.map .string)

end Json

def Span.toJson (s : Span) : Json :=
  .ofRecord Span.fields [.ofNat s.line.toNat, .ofNat s.column.toNat, .ofNat s.endLine.toNat,
    .ofNat s.endColumn.toNat]

/-- A tagged expression with the given fields. -/
def ExprKind.write (kind : ExprKind) (values : List Json) : Json :=
  .ofTagged kind.tag kind.fields values

/-- A tagged statement with the given fields. -/
def StmtKind.write (kind : StmtKind) (values : List Json) : Json :=
  .ofTagged kind.tag kind.fields values

mutual

def Expr.toJson : Expr → Json
  | .name ident span => ExprKind.name.write [.string ident, span.toJson]
  | .this span => ExprKind.this.write [span.toJson]
  | .literal value span => ExprKind.literal.write [.string value, span.toJson]
  | .binary op left right span =>
    ExprKind.binary.write [.string op.name, left.toJson, right.toJson, span.toJson]
  | .unary op arg span => ExprKind.unary.write [.string op.name, arg.toJson, span.toJson]
  | .assign op target value span =>
    ExprKind.assign.write [.string op.name, target.toJson, value.toJson, span.toJson]
  | .cond test cons alt span =>
    ExprKind.cond.write [test.toJson, cons.toJson, alt.toJson, span.toJson]
  | .call none method args throws span =>
    ExprKind.call.write
      [.null, .string method, .array (Expr.listToJson args), .ofTexts throws, span.toJson]
  | .call (some receiver) method args throws span =>
    ExprKind.call.write
      [receiver.toJson, .string method, .array (Expr.listToJson args), .ofTexts throws, span.toJson]
  | .new cls args throws span =>
    ExprKind.new.write
      [.string cls, .array (Expr.listToJson args), .ofTexts throws, span.toJson]
  | .newArray elem dims init span =>
    ExprKind.newArray.write
      [.string elem, .array (Expr.listToJson dims), .array (Expr.listToJson init), span.toJson]
  | .member object ident span => ExprKind.member.write [object.toJson, .string ident, span.toJson]
  | .index array offset span => ExprKind.index.write [array.toJson, offset.toJson, span.toJson]
  | .cast ty expr span => ExprKind.cast.write [.string ty, expr.toJson, span.toJson]
  | .instanceOf expr ty span => ExprKind.instanceOf.write [expr.toJson, .string ty, span.toJson]
  | .lambda span => ExprKind.lambda.write [span.toJson]
  | .paren expr span => ExprKind.paren.write [expr.toJson, span.toJson]

def Expr.listToJson : List Expr → List Json
  | [] => []
  | e :: rest => e.toJson :: Expr.listToJson rest

end

/-- The values of the fields of a declaration of a variable. -/
def LocalVar.values (d : LocalVar) : List Json :=
  [.string d.name, .ofOption .string d.ty, .ofOption Expr.toJson d.init, d.span.toJson]

def LocalVar.toJson (d : LocalVar) : Json := .ofRecord StmtKind.localVar.fields d.values

def CaseLabel.toJson : CaseLabel → Json
  | .case values =>
    .ofTagged LabelKind.case.tag LabelKind.case.fields [.array (values.map Expr.toJson)]
  | .default => .ofTagged LabelKind.default.tag LabelKind.default.fields []

mutual

def Stmt.toJson : Stmt → Json
  | .block ⟨stmts, span⟩ => StmtKind.block.write [.array (Stmt.listToJson stmts), span.toJson]
  | .expr expr span => StmtKind.expr.write [expr.toJson, span.toJson]
  | .localVar decl => StmtKind.localVar.write decl.values
  | .ifStmt test cons none span =>
    StmtKind.ifStmt.write [test.toJson, cons.toJson, .null, span.toJson]
  | .ifStmt test cons (some alt) span =>
    StmtKind.ifStmt.write [test.toJson, cons.toJson, alt.toJson, span.toJson]
  | .whileStmt test body span => StmtKind.whileStmt.write [test.toJson, body.toJson, span.toJson]
  | .doWhile body test span => StmtKind.doWhile.write [body.toJson, test.toJson, span.toJson]
  | .forStmt init test update body span =>
    StmtKind.forStmt.write
      [.array (Stmt.listToJson init), .ofOption Expr.toJson test, .array (update.map Expr.toJson),
        body.toJson, span.toJson]
  | .forEach var iterable body span =>
    StmtKind.forEach.write [.string var, iterable.toJson, body.toJson, span.toJson]
  | .switch selector groups span =>
    StmtKind.switch.write
      [selector.toJson, .array (CaseGroup.listToJson groups), span.toJson]
  | .tryStmt resources block catches none span =>
    StmtKind.tryStmt.write
      [.array (resources.map LocalVar.toJson), block.toJson,
        .array (CatchClause.listToJson catches), .null, span.toJson]
  | .tryStmt resources block catches (some finalizer) span =>
    StmtKind.tryStmt.write
      [.array (resources.map LocalVar.toJson), block.toJson,
        .array (CatchClause.listToJson catches), finalizer.toJson, span.toJson]
  | .labeled label body span => StmtKind.labeled.write [.string label, body.toJson, span.toJson]
  | .breakStmt label span => StmtKind.breakStmt.write [.ofOption .string label, span.toJson]
  | .continueStmt label span => StmtKind.continueStmt.write [.ofOption .string label, span.toJson]
  | .returnStmt arg span => StmtKind.returnStmt.write [.ofOption Expr.toJson arg, span.toJson]
  | .throwStmt arg span => StmtKind.throwStmt.write [arg.toJson, span.toJson]
  | .synchronized lock body span =>
    StmtKind.synchronized.write [lock.toJson, body.toJson, span.toJson]
  | .assertStmt test message span =>
    StmtKind.assertStmt.write [test.toJson, .ofOption Expr.toJson message, span.toJson]
  | .localClass name span => StmtKind.localClass.write [.string name, span.toJson]
  | .empty span => StmtKind.empty.write [span.toJson]
  | .missing span => StmtKind.missing.write [span.toJson]

def Stmt.listToJson : List Stmt → List Json
  | [] => []
  | s :: rest => s.toJson :: Stmt.listToJson rest

def Block.toJson : Block → Json
  | ⟨stmts, span⟩ =>
    .ofRecord StmtKind.block.fields [.array (Stmt.listToJson stmts), span.toJson]

def CaseGroup.listToJson : List CaseGroup → List Json
  | [] => []
  | ⟨labels, body, arrow, span⟩ :: rest =>
    .ofRecord CaseGroup.fields
        [.array (labels.map CaseLabel.toJson), .array (Stmt.listToJson body), .bool arrow,
          span.toJson] ::
      CaseGroup.listToJson rest

def CatchClause.listToJson : List CatchClause → List Json
  | [] => []
  | ⟨param, types, body, span⟩ :: rest =>
    .ofRecord CatchClause.fields [.string param, .ofTexts types, body.toJson, span.toJson] ::
      CatchClause.listToJson rest

end

def Method.toJson (m : Method) : Json :=
  .ofRecord Method.fields
    [.string m.name, .string m.kind.name, .ofOption Block.toJson m.body, m.span.toJson]

def CompilationUnit.toJson (u : CompilationUnit) : Json :=
  .ofRecord CompilationUnit.fields [.string u.filename, .array (u.methods.map Method.toJson)]

end MethodFlow
