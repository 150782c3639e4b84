import MethodFlow.Tree.Basic

/-!
# Kinds of nodes

Every expression, statement and case label is of one kind, and the kind's name is how the node is
tagged wherever trees are written down or reported. The order of `all` is part of that: a kind may
be given by its place in the list. So is the order of `fields`: a node may be written as the plain
list of its fields.
-/

namespace MethodFlow

inductive ExprKind where
  | name | this | literal | binary | unary | assign | cond | call | new | newArray
  | member | index | cast | instanceOf | lambda | paren
  deriving DecidableEq, Inhabited

namespace ExprKind

def all : List ExprKind :=
  [name, this, literal, binary, unary, assign, cond, call, new, newArray,
    member, index, cast, instanceOf, lambda, paren]

def tag : ExprKind → String
  | name => "name" | this => "this" | literal => "literal" | binary => "binary"
  | unary => "unary" | assign => "assign" | cond => "cond" | call => "call"
  | new => "new" | newArray => "new_array" | member => "member" | index => "index"
  | cast => "cast" | instanceOf => "instance_of" | lambda => "lambda" | paren => "paren"

def fields : ExprKind → List String
  | name => ["name", "span"]
  | this => ["span"]
  | literal => ["value", "span"]
  | binary => ["op", "left", "right", "span"]
  | unary => ["op", "arg", "span"]
  | assign => ["op", "target", "value", "span"]
  | cond => ["test", "cons", "alt", "span"]
  | call => ["receiver", "method", "args", "throws", "span"]
  | new => ["class", "args", "throws", "span"]
  | newArray => ["elem", "dims", "init", "span"]
  | member => ["object", "name", "span"]
  | index => ["array", "index", "span"]
  | cast => ["ty", "expr", "span"]
  | instanceOf => ["expr", "ty", "span"]
  | lambda => ["span"]
  | paren => ["expr", "span"]

end ExprKind

def Expr.kind : Expr → ExprKind
  | .name .. => .name
  | .this .. => .this
  | .literal .. => .literal
  | .binary .. => .binary
  | .unary .. => .unary
  | .assign .. => .assign
  | .cond .. => .cond
  | .call .. => .call
  | .new .. => .new
  | .newArray .. => .newArray
  | .member .. => .member
  | .index .. => .index
  | .cast .. => .cast
  | .instanceOf .. => .instanceOf
  | .lambda .. => .lambda
  | .paren .. => .paren

inductive StmtKind where
  | block | expr | localVar | ifStmt | whileStmt | doWhile | forStmt | forEach | switch | tryStmt
  | labeled | breakStmt | continueStmt | returnStmt | throwStmt | synchronized | assertStmt
  | localClass | empty | missing
  deriving DecidableEq, Inhabited

namespace StmtKind

def all : List StmtKind :=
  [block, expr, localVar, ifStmt, whileStmt, doWhile, forStmt, forEach, switch, tryStmt,
    labeled, breakStmt, continueStmt, returnStmt, throwStmt, synchronized, assertStmt,
    localClass, empty, missing]

def tag : StmtKind → String
  | block => "block" | expr => "expr" | localVar => "local_var" | ifStmt => "if"
  | whileStmt => "while" | doWhile => "do_while" | forStmt => "for" | forEach => "for_each"
  | switch => "switch" | tryStmt => "try" | labeled => "labeled" | breakStmt => "break"
  | continueStmt => "continue" | returnStmt => "return" | throwStmt => "throw"
  | synchronized => "synchronized" | assertStmt => "assert" | localClass => "local_class"
  | empty => "empty" | missing => "missing"

def fields : StmtKind → List String
  | block => ["stmts", "span"]
  | expr => ["expr", "span"]
  | localVar => ["name", "ty", "init", "span"]
  | ifStmt => ["test", "cons", "alt", "span"]
  | whileStmt => ["test", "body", "span"]
  | doWhile => ["body", "test", "span"]
  | forStmt => ["init", "test", "update", "body", "span"]
  | forEach => ["var", "iterable", "body", "span"]
  | switch => ["selector", "groups", "span"]
  | tryStmt => ["resources", "block", "catches", "finalizer", "span"]
  | labeled => ["label", "body", "span"]
  | breakStmt | continueStmt => ["label", "span"]
  | returnStmt => ["arg", "span"]
  | throwStmt => ["arg", "span"]
  | synchronized => ["lock", "body", "span"]
  | assertStmt => ["test", "message", "span"]
  | localClass => ["name", "span"]
  | empty | missing => ["span"]

end StmtKind

def Stmt.kind : Stmt → StmtKind
  | .block .. => .block
  | .expr .. => .expr
  | .localVar .. => .localVar
  | .ifStmt .. => .ifStmt
  | .whileStmt .. => .whileStmt
  | .doWhile .. => .doWhile
  | .forStmt .. => .forStmt
  | .forEach .. => .forEach
  | .switch .. => .switch
  | .tryStmt .. => .tryStmt
  | .labeled .. => .labeled
  | .breakStmt .. => .breakStmt
  | .continueStmt .. => .continueStmt
  | .returnStmt .. => .returnStmt
  | .throwStmt .. => .throwStmt
  | .synchronized .. => .synchronized
  | .assertStmt .. => .assertStmt
  | .localClass .. => .localClass
  | .empty .. => .empty
  | .missing .. => .missing

inductive LabelKind where
  | case | default
  deriving DecidableEq, Inhabited

namespace LabelKind

def all : List LabelKind := [case, default]

def tag : LabelKind → String
  | case => "case"
  | default => "default"

def fields : LabelKind → List String
  | case => ["values"]
  | default => []

end LabelKind

def CaseLabel.kind : CaseLabel → LabelKind
  | .case _ => .case
  | .default => .default

/-! ## Fields of the nodes that carry no tag -/

def Span.fields : List String := ["line", "column", "end_line", "end_column"]

def CaseGroup.fields : List String := ["labels", "body", "arrow", "span"]

def CatchClause.fields : List String := ["param", "types", "body", "span"]

def Method.fields : List String := ["name", "kind", "body", "span"]

def CompilationUnit.fields : List String := ["filename", "methods"]

end MethodFlow
