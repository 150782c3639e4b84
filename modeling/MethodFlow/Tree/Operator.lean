/-!
# Operators of expressions

Each family of operators lists its members in `all` and names them in `name`. The name is how a tree
spells the operator, so `ofName?` reads back exactly what `name` writes.
-/

namespace MethodFlow

/-- Operators with two operands. -/
inductive BinaryOp where
  | add | sub | mul | div | rem
  | shl | shr | unsignedShr
  | bitAnd | bitOr | bitXor
  | lt | ltEq | gt | gtEq | eqEq | notEq
  | logicalAnd | logicalOr
  deriving DecidableEq, Inhabited

namespace BinaryOp

def all : List BinaryOp :=
  [add, sub, mul, div, rem, shl, shr, unsignedShr, bitAnd, bitOr, bitXor,
    lt, ltEq, gt, gtEq, eqEq, notEq, logicalAnd, logicalOr]

def name : BinaryOp → String
  | add => "add" | sub => "sub" | mul => "mul" | div => "div" | rem => "rem"
  | shl => "shl" | shr => "shr" | unsignedShr => "unsigned_shr"
  | bitAnd => "bit_and" | bitOr => "bit_or" | bitXor => "bit_xor"
  | lt => "lt" | ltEq => "lt_eq" | gt => "gt" | gtEq => "gt_eq"
  | eqEq => "eq_eq" | notEq => "not_eq"
  | logicalAnd => "logical_and" | logicalOr => "logical_or"

def ofName? (s : String) : Option BinaryOp := all.find? (·.name == s)

theorem ofName?_name (op : BinaryOp) : ofName? op.name = some op := by
  cases op <;> decide

/-- `&&` and `||` may leave their right operand unevaluated, which makes each a decision point. -/
def isShortCircuit : BinaryOp → Bool
  | logicalAnd | logicalOr => true
  | _ => false

/-- Division and remainder raise an exception when the divisor is zero. -/
def mayThrow : BinaryOp → Bool
  | div | rem => true
  | _ => false

end BinaryOp

/-- Operators with one operand. -/
inductive UnaryOp where
  | minus | plus | not | bitNot
  | preInc | preDec | postInc | postDec
  deriving DecidableEq, Inhabited

namespace UnaryOp

def all : List UnaryOp := [minus, plus, not, bitNot, preInc, preDec, postInc, postDec]

def name : UnaryOp → String
  | minus => "minus" | plus => "plus" | not => "not" | bitNot => "bit_not"
  | preInc => "pre_inc" | preDec => "pre_dec" | postInc => "post_inc" | postDec => "post_dec"

def ofName? (s : String) : Option UnaryOp := all.find? (·.name == s)

theorem ofName?_name (op : UnaryOp) : ofName? op.name = some op := by
  cases op <;> decide

end UnaryOp

/-- Plain and compound assignment. -/
inductive AssignOp where
  | assign
  | addAssign | subAssign | mulAssign | divAssign | remAssign
  | andAssign | orAssign | xorAssign
  | shlAssign | shrAssign | unsignedShrAssign
  deriving DecidableEq, Inhabited

namespace AssignOp

def all : List AssignOp :=
  [assign, addAssign, subAssign, mulAssign, divAssign, remAssign, andAssign, orAssign, xorAssign,
    shlAssign, shrAssign, unsignedShrAssign]

def name : AssignOp → String
  | assign => "assign"
  | addAssign => "add_assign" | subAssign => "sub_assign" | mulAssign => "mul_assign"
  | divAssign => "div_assign" | remAssign => "rem_assign"
  | andAssign => "and_assign" | orAssign => "or_assign" | xorAssign => "xor_assign"
  | shlAssign => "shl_assign" | shrAssign => "shr_assign"
  | unsignedShrAssign => "unsigned_shr_assign"

def ofName? (s : String) : Option AssignOp := all.find? (·.name == s)

theorem ofName?_name (op : AssignOp) : ofName? op.name = some op := by
  cases op <;> decide

/-- Compound division and remainder raise an exception when the divisor is zero. -/
def mayThrow : AssignOp → Bool
  | divAssign | remAssign => true
  | _ => false

end AssignOp

end MethodFlow
