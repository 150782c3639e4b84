import MethodFlow.Span
import MethodFlow.Tree.Operator

/-!
# Syntax trees of Java methods

Expressions, statements, and what holds them: a `Block` is a list of statements, a `Method` may have
a block as its body, a `CompilationUnit` is the methods of one file. Lambdas and local classes are
leaves: their inner code is not part of the tree. `Stmt.missing` stands where the text could not be
read.

Types are referred to by name only, as in `throws` lists, casts and catch clauses.
-/

namespace MethodFlow

/-- A type, referred to by its name. -/
abbrev TypeName := String

/-- Expressions. The span comes last in every constructor. -/
inductive Expr where
  | name (name : String) (span : Span)
  | this (span : Span)
  | literal (value : String) (span : Span)
  | binary (op : BinaryOp) (left right : Expr) (span : Span)
  | unary (op : UnaryOp) (arg : Expr) (span : Span)
  | assign (op : AssignOp) (target value : Expr) (span : Span)
  | cond (test cons alt : Expr) (span : Span)
  | call (receiver : Option Expr) (method : String) (args : List Expr) (throws : List TypeName)
      (span : Span)
  | new (cls : TypeName) (args : List Expr) (throws : List TypeName) (span : Span)
  | newArray (elem : TypeName) (dims init : List Expr) (span : Span)
  | member (object : Expr) (name : String) (span : Span)
  | index (array index : Expr) (span : Span)
  | cast (ty : TypeName) (expr : Expr) (span : Span)
  | instanceOf (expr : Expr) (ty : TypeName) (span : Span)
  | lambda (span : Span)
  | paren (expr : Expr) (span : Span)
  deriving Inhabited

namespace Expr

def span : Expr → Span
  | name _ s | this s | literal _ s | binary _ _ _ s | unary _ _ s | assign _ _ _ s
  | cond _ _ _ s | call _ _ _ _ s | new _ _ _ s | newArray _ _ _ s | member _ _ s
  | index _ _ s | cast _ _ s | instanceOf _ _ s | lambda s | paren _ s => s

/-- The expression inside any number of parentheses. -/
def skipParens : Expr → Expr
  | paren e _ => e.skipParens
  | e => e

end Expr

/-- The declaration of a local variable or of a resource of a `try` statement. -/
structure LocalVar where
  name : String
  ty : Option TypeName := none
  init : Option Expr := none
  span : Span := {}
  deriving Inhabited

/-- What selects a group of a `switch`: a list of values, or everything else. -/
inductive CaseLabel where
  | case (values : List Expr)
  | default
  deriving Inhabited

namespace CaseLabel

def isDefault : CaseLabel → Bool
  | default => true
  | case _ => false

/-- The values that the label lists. -/
def values : CaseLabel → List Expr
  | case values => values
  | default => []

end CaseLabel

mutual

/-- Statements. The span comes last in every constructor that has one of its own. -/
inductive Stmt where
  | block (block : Block)
  | expr (expr : Expr) (span : Span)
  | localVar (decl : LocalVar)
  | ifStmt (test : Expr) (cons : Stmt) (alt : Option Stmt) (span : Span)
  | whileStmt (test : Expr) (body : Stmt) (span : Span)
  | doWhile (body : Stmt) (test : Expr) (span : Span)
  | forStmt (init : List Stmt) (test : Option Expr) (update : List Expr) (body : Stmt) (span : Span)
  | forEach (var : String) (iterable : Expr) (body : Stmt) (span : Span)
  | switch (selector : Expr) (groups : List CaseGroup) (span : Span)
  | tryStmt (resources : List LocalVar) (block : Block) (catches : List CatchClause)
      (finalizer : Option Block) (span : Span)
  | labeled (label : String) (body : Stmt) (span : Span)
  | breakStmt (label : Option String) (span : Span)
  | continueStmt (label : Option String) (span : Span)
  | returnStmt (arg : Option Expr) (span : Span)
  | throwStmt (arg : Expr) (span : Span)
  | synchronized (lock : Expr) (body : Block) (span : Span)
  | assertStmt (test : Expr) (message : Option Expr) (span : Span)
  | localClass (name : String) (span : Span)
  | empty (span : Span)
  | missing (span : Span)

/-- A list of statements between braces. -/
structure Block where
  stmts : List Stmt
  span : Span

/-- The statements a `switch` runs for some labels. An arrow group ends by leaving the `switch`; a
group of the older form runs on into the next one. -/
structure CaseGroup where
  labels : List CaseLabel
  body : List Stmt
  arrow : Bool
  span : Span

/-- A `catch` clause: the variable, the types it names, and its code. -/
structure CatchClause where
  param : String
  types : List TypeName
  body : Block
  span : Span

end

namespace CaseGroup

def hasDefault (group : CaseGroup) : Bool := group.labels.any (·.isDefault)

end CaseGroup

namespace Stmt

def span : Stmt → Span
  | block b => b.span
  | localVar d => d.span
  | expr _ s | ifStmt _ _ _ s | whileStmt _ _ s | doWhile _ _ s | forStmt _ _ _ _ s
  | forEach _ _ _ s | switch _ _ s | tryStmt _ _ _ _ s | labeled _ _ s | breakStmt _ s
  | continueStmt _ s | returnStmt _ s | throwStmt _ s | synchronized _ _ s | assertStmt _ _ s
  | localClass _ s | empty s | missing s => s

def isLoop : Stmt → Bool
  | whileStmt .. | doWhile .. | forStmt .. | forEach .. => true
  | _ => false

def isIf : Stmt → Bool
  | ifStmt .. => true
  | _ => false

/-- Whether a label in front of this statement names a loop or a `switch`, possibly through further
labels. Such a label is carried by that construct; any other label names the statement itself. -/
def carriesLabels : Stmt → Bool
  | labeled _ body _ => body.carriesLabels
  | switch .. => true
  | s => s.isLoop

end Stmt

/-- Constructors have no return value and no name of their own to call. -/
inductive MethodKind where
  | method
  | constructor
  deriving DecidableEq, Inhabited

namespace MethodKind

def all : List MethodKind := [method, constructor]

def name : MethodKind → String
  | method => "method"
  | constructor => "constructor"

def ofName? (s : String) : Option MethodKind := all.find? (·.name == s)

theorem ofName?_name (kind : MethodKind) : ofName? kind.name = some kind := by
  cases kind <;> decide

end MethodKind

/-- A method declaration. Abstract and native methods have no body. -/
structure Method where
  name : String
  kind : MethodKind := .method
  body : Option Block := none
  span : Span := {}

/-- The methods of one source file. -/
structure CompilationUnit where
  filename : String := ""
  methods : List Method := []

end MethodFlow
