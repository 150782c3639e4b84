import MethodFlow.Tree.Basic

/-!
# Walking a body

A walk goes through the statements, expressions and catch clauses of a body in the order of the
text, each before its parts, and shows each to a visitor. The visitor carries a state and may stop
the walk. Lambdas and local classes are not gone into, nor are the values of case labels.

With every node comes a context, which counts the constructs around it: branches of an `if`, bodies
of loops, of `switch` statements, of `try` blocks, catch clauses and finalizers. An `if` that is the
whole `else` branch of another counts on the same level as that one.
-/

namespace MethodFlow

/-- What a visitor is shown. -/
inductive Event where
  | stmt (stmt : Stmt)
  | expr (expr : Expr)
  | catchClause (clause : CatchClause)

/-- Where a walk is. -/
structure WalkContext where
  file : String := ""
  method : String := ""
  /-- The number of constructs around the node. -/
  depth : Nat := 0
  deriving DecidableEq, Inhabited

namespace WalkContext

def enter (c : WalkContext) : WalkContext := { c with depth := c.depth + 1 }

def leave (c : WalkContext) : WalkContext := { c with depth := c.depth - 1 }

end WalkContext

/-- What is done at each node: the state changes, and `done` stops the walk. -/
abbrev Visitor (σ : Type) := Event → WalkContext → σ → ForInStep σ

/-- A piece of a walk: from a context and a state to those after it. -/
abbrev Walk (σ : Type) := WalkContext × σ → ForInStep (WalkContext × σ)

namespace Walk

variable {σ : Type}

/-- Shows one node to the visitor. -/
def visit (v : Visitor σ) (event : Event) : Walk σ := fun (context, state) =>
  match v event context state with
  | .done state => .done (context, state)
  | .yield state => .yield (context, state)

/-- Nothing to walk through. -/
def skip : Walk σ := .yield

/-- One piece after the other, the second only if the first was not stopped. -/
def andThen (first second : Walk σ) : Walk σ := fun place =>
  match first place with
  | .done place => .done place
  | .yield place => second place

/-- A piece one level deeper. The level is left again also when the piece was stopped. -/
def nested (inner : Walk σ) : Walk σ := fun (context, state) =>
  match inner (context.enter, state) with
  | .done (context, state) => .done (context.leave, state)
  | .yield (context, state) => .yield (context.leave, state)

end Walk

open Walk (visit skip andThen nested)

variable {σ : Type}

mutual

/-- Walks through an expression. -/
def Expr.walk (v : Visitor σ) : Expr → Walk σ
  | e@(.binary _ left right _) =>
    andThen (visit v (.expr e)) (andThen (left.walk v) (right.walk v))
  | e@(.unary _ arg _) => andThen (visit v (.expr e)) (arg.walk v)
  | e@(.assign _ target value _) =>
    andThen (visit v (.expr e)) (andThen (target.walk v) (value.walk v))
  | e@(.cond test cons alt _) =>
    andThen (visit v (.expr e)) (andThen (test.walk v) (andThen (cons.walk v) (alt.walk v)))
  | e@(.call receiver _ args _ _) =>
    andThen (visit v (.expr e)) (andThen (Expr.walkOption v receiver) (Expr.walkAll v args))
  | e@(.new _ args _ _) => andThen (visit v (.expr e)) (Expr.walkAll v args)
  | e@(.newArray _ dims init _) =>
    andThen (visit v (.expr e)) (andThen (Expr.walkAll v dims) (Expr.walkAll v init))
  | e@(.member object _ _) => andThen (visit v (.expr e)) (object.walk v)
  | e@(.index array offset _) =>
    andThen (visit v (.expr e)) (andThen (array.walk v) (offset.walk v))
  | e@(.cast _ arg _) => andThen (visit v (.expr e)) (arg.walk v)
  | e@(.instanceOf arg _ _) => andThen (visit v (.expr e)) (arg.walk v)
  | e@(.paren arg _) => andThen (visit v (.expr e)) (arg.walk v)
  | e@(.name ..) | e@(.this ..) | e@(.literal ..) | e@(.lambda ..) => visit v (.expr e)

/-- Walks through an expression that may be absent. -/
def Expr.walkOption (v : Visitor σ) : Option Expr → Walk σ
  | none => skip
  | some e => e.walk v

/-- Walks through expressions one after the other. -/
def Expr.walkAll (v : Visitor σ) : List Expr → Walk σ
  | [] => skip
  | e :: es => andThen (e.walk v) (Expr.walkAll v es)

end

/-- Walks through the initial values of declarations. -/
def LocalVar.walkAll (v : Visitor σ) : List LocalVar → Walk σ
  | [] => skip
  | decl :: decls => andThen (Expr.walkOption v decl.init) (LocalVar.walkAll v decls)

mutual

/-- Walks through a statement. -/
def Stmt.walk (v : Visitor σ) : Stmt → Walk σ
  | s@(.block ⟨stmts, _⟩) => andThen (visit v (.stmt s)) (Stmt.walkAll v stmts)
  | s@(.expr e _) => andThen (visit v (.stmt s)) (e.walk v)
  | s@(.localVar decl) => andThen (visit v (.stmt s)) (Expr.walkOption v decl.init)
  | s@(.ifStmt test cons alt _) =>
    andThen (visit v (.stmt s)) <| andThen (test.walk v) <|
      andThen (nested (cons.walk v)) (Stmt.walkElse v alt)
  | s@(.whileStmt test body _) =>
    andThen (visit v (.stmt s)) (andThen (test.walk v) (nested (body.walk v)))
  | s@(.doWhile body test _) =>
    andThen (visit v (.stmt s)) (andThen (nested (body.walk v)) (test.walk v))
  | s@(.forStmt init test update body _) =>
    andThen (visit v (.stmt s)) <| andThen (Stmt.walkAll v init) <|
      andThen (Expr.walkOption v test) (andThen (Expr.walkAll v update) (nested (body.walk v)))
  | s@(.forEach _ iterable body _) =>
    andThen (visit v (.stmt s)) (andThen (iterable.walk v) (nested (body.walk v)))
  | s@(.switch selector groups _) =>
    andThen (visit v (.stmt s)) (andThen (selector.walk v) (nested (CaseGroup.walkAll v groups)))
  | s@(.tryStmt resources ⟨stmts, _⟩ catches finalizer _) =>
    andThen (visit v (.stmt s)) <|
      andThen (nested (andThen (LocalVar.walkAll v resources) (Stmt.walkAll v stmts))) <|
        andThen (CatchClause.walkAll v catches) (Block.walkFinalizer v finalizer)
  | s@(.labeled _ body _) => andThen (visit v (.stmt s)) (body.walk v)
  | s@(.returnStmt arg _) => andThen (visit v (.stmt s)) (Expr.walkOption v arg)
  | s@(.throwStmt arg _) => andThen (visit v (.stmt s)) (arg.walk v)
  | s@(.synchronized lock ⟨stmts, _⟩ _) =>
    andThen (visit v (.stmt s)) (andThen (lock.walk v) (Stmt.walkAll v stmts))
  | s@(.assertStmt test message _) =>
    andThen (visit v (.stmt s)) (andThen (test.walk v) (Expr.walkOption v message))
  | s@(.breakStmt ..) | s@(.continueStmt ..) | s@(.localClass ..) | s@(.empty ..)
  | s@(.missing ..) => visit v (.stmt s)

/-- Walks through statements one after the other. -/
def Stmt.walkAll (v : Visitor σ) : List Stmt → Walk σ
  | [] => skip
  | s :: ss => andThen (s.walk v) (Stmt.walkAll v ss)

/-- Walks through an `else` branch, which is one level deeper unless it is an `if`. -/
def Stmt.walkElse (v : Visitor σ) : Option Stmt → Walk σ
  | none => skip
  | some alt => if alt.isIf then alt.walk v else nested (alt.walk v)

/-- Walks through the finalizer of a `try` statement. -/
def Block.walkFinalizer (v : Visitor σ) : Option Block → Walk σ
  | none => skip
  | some ⟨stmts, _⟩ => nested (Stmt.walkAll v stmts)

/-- Walks through the groups of a `switch`. -/
def CaseGroup.walkAll (v : Visitor σ) : List CaseGroup → Walk σ
  | [] => skip
  | ⟨_, body, _, _⟩ :: groups => andThen (Stmt.walkAll v body) (CaseGroup.walkAll v groups)

/-- Walks through catch clauses, each one level deeper than its `try` statement. -/
def CatchClause.walkAll (v : Visitor σ) : List CatchClause → Walk σ
  | [] => skip
  | clause@⟨_, _, ⟨stmts, _⟩, _⟩ :: clauses =>
    andThen (visit v (.catchClause clause)) <|
      andThen (nested (Stmt.walkAll v stmts)) (CatchClause.walkAll v clauses)

end

/-- Walks through a body. Gives the context and the state at the end, however the walk ended. -/
def Block.walk (v : Visitor σ) (body : Block) (context : WalkContext) (state : σ) :
    WalkContext × σ :=
  match Stmt.walkAll v body.stmts (context, state) with
  | .done result | .yield result => result

end MethodFlow
