import MethodFlow.Tree.Basic

/-!
# Elements

An element is one step of evaluation inside a block, recorded after the steps for its operands.
Control cannot leave a block between two elements except by an exception.
-/

namespace MethodFlow

/-- The kinds of evaluation step. -/
inductive ElementKind where
  | identifier (name : String)
  | this
  | literal (value : String)
  /-- A declaration: a local variable, a resource, a catch parameter or the variable of a
  for-each. -/
  | declaration (name : String)
  /-- The target is given when it is a plain name; any other target has elements of its own. -/
  | assignment (target : Option String) (op : AssignOp)
  | binary (op : BinaryOp)
  | unary (op : UnaryOp)
  | invocation (name : String) (throws : List TypeName)
  | newClass (cls : TypeName) (throws : List TypeName)
  | newArray (elem : TypeName)
  | fieldAccess (name : String)
  | arrayAccess
  | typeCast (ty : TypeName)
  | instanceOf (ty : TypeName)
  | lambda
  | classDecl (name : String)
  | synchronized
  deriving DecidableEq, Inhabited

/-- An evaluation step and the source range it comes from. -/
structure Element where
  kind : ElementKind
  span : Span
  deriving DecidableEq, Inhabited

namespace Element

/-- The `throws` list of what an element calls, for the elements that call something. -/
def declaredThrows? (e : Element) : Option (List TypeName) :=
  match e.kind with
  | .invocation _ throws | .newClass _ throws => some throws
  | _ => none

/-- Whether the element is `&&` or `||`. -/
def isShortCircuit (e : Element) : Bool :=
  match e.kind with
  | .binary op => op.isShortCircuit
  | _ => false

end Element

end MethodFlow
