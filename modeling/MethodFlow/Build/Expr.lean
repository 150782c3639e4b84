import MethodFlow.Build.Draft
import MethodFlow.Build.Route

/-!
# Drawing expressions

An expression adds its elements in the order of evaluation: operands first, then the operator. Only
the conditional operator makes blocks of its own; `&&` and `||` do not, and count as decisions by
their elements. Elements that may raise an exception get edges to the handlers that may receive it.

Drawing an expression always succeeds.
-/

namespace MethodFlow

namespace Expr

/-- The name, for an expression that is a plain name in any number of parentheses. -/
def plainName? (e : Expr) : Option String :=
  match e.skipParens with
  | .name ident _ => some ident
  | _ => none

/-- The class, for an expression that creates an object, in any number of parentheses. -/
def newClass? (e : Expr) : Option TypeName :=
  match e.skipParens with
  | .new cls _ _ _ => some cls
  | _ => none

end Expr

namespace Draft

/-- The last element may raise the types of a `throws` list, or an unchecked exception. -/
def raise (d : Draft) (scope : Scope) (declared : List TypeName) : Draft :=
  let route := scope.raiseRoute declared
  (d.addEdges d.openBlock route.edges).resumeAt route.resumptions

end Draft

mutual

/-- Adds an expression to a draft. -/
def Expr.draw (scope : Scope) : Expr → Draft → Draft
  | .name ident span, d => d.emit (.identifier ident) span
  | .this span, d => d.emit .this span
  | .literal value span, d => d.emit (.literal value) span
  | .binary op left right span, d =>
    let d := right.draw scope (left.draw scope d)
    let d := d.emit (.binary op) span
    if op.mayThrow then d.raise scope [] else d
  | .unary op arg span, d => (arg.draw scope d).emit (.unary op) span
  | .assign op target value span, d =>
    let d := if target.plainName?.isSome then d else target.draw scope d
    let d := (value.draw scope d).emit (.assignment target.plainName? op) span
    if op.mayThrow then d.raise scope [] else d
  | .cond test cons alt _, d =>
    let d := test.draw scope d
    let onTrue := d.fresh
    let onFalse := onTrue + 1
    let join := onTrue + 2
    let d := d.create .normal (some cons.span)
    let d := d.create .normal (some alt.span)
    let d := d.create .join none
    let d := d.branch onTrue onFalse test.span
    let d := (cons.draw scope (d.start onTrue)).fallInto join
    let d := (alt.draw scope (d.start onFalse)).fallInto join
    d.start join
  | .call receiver method args throws span, d =>
    let d := Expr.drawAll scope args (Expr.drawOption scope receiver d)
    (d.emit (.invocation method throws) span).raise scope throws
  | .new cls args throws span, d =>
    ((Expr.drawAll scope args d).emit (.newClass cls throws) span).raise scope throws
  | .newArray elem dims init span, d =>
    ((Expr.drawAll scope init (Expr.drawAll scope dims d)).emit (.newArray elem) span).raise
      scope []
  | .member object field span, d =>
    ((object.draw scope d).emit (.fieldAccess field) span).raise scope []
  | .index array offset span, d =>
    ((offset.draw scope (array.draw scope d)).emit .arrayAccess span).raise scope []
  | .cast ty e span, d => ((e.draw scope d).emit (.typeCast ty) span).raise scope []
  | .instanceOf e ty span, d => (e.draw scope d).emit (.instanceOf ty) span
  | .lambda span, d => d.emit .lambda span
  | .paren e _, d => e.draw scope d

/-- Adds an expression that may be absent. -/
def Expr.drawOption (scope : Scope) : Option Expr → Draft → Draft
  | none, d => d
  | some e, d => e.draw scope d

/-- Adds expressions one after the other. -/
def Expr.drawAll (scope : Scope) : List Expr → Draft → Draft
  | [], d => d
  | e :: es, d => Expr.drawAll scope es (e.draw scope d)

end

end MethodFlow
