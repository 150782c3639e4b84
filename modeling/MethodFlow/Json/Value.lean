import MethodFlow.Decimal

/-!
# JSON values

Objects keep their entries in the order they were written, repeated keys included, and numbers keep
how they were written as far as a reader can tell it: `1`, `1.0` and `1e0` differ, and so do `0` and
`-0`. Of their digits they keep what fits a word of 64 bits.
-/

namespace MethodFlow

/-- A JSON number: its sign, its digits, and whether it is a whole number that was kept exactly. -/
structure Json.Number where
  negative : Bool
  /-- Written without a fraction and without an exponent, and all digits fit. -/
  integral : Bool
  magnitude : Decimal
  deriving DecidableEq, Inhabited

/-- A JSON value. -/
inductive Json where
  | null
  | bool (value : Bool)
  | number (value : Json.Number)
  | string (text : String)
  | array (items : List Json)
  | object (entries : List (String × Json))
  deriving Inhabited

namespace Json

namespace Number

/-- The number `n`, written as digits only. -/
def ofNat (n : Nat) : Number := ⟨false, true, ⟨n, 0⟩⟩

/-- The natural number that is written as digits only; `none` for a sign, a fraction or an
exponent. -/
def toNat? (n : Number) : Option Nat :=
  if n.integral && !n.negative then some n.magnitude.mantissa else none

@[simp] theorem toNat?_ofNat (n : Nat) : (ofNat n).toNat? = some n := rfl

end Number

def ofNat (n : Nat) : Json := .number (.ofNat n)

def toNat? : Json → Option Nat
  | .number n => n.toNat?
  | _ => none

/-- The number if it is a 32-bit word, written as digits only. -/
def toUInt32? (j : Json) : Option UInt32 :=
  j.toNat?.bind fun n => if n < UInt32.size then some n.toUInt32 else none

def toBool? : Json → Option Bool
  | .bool b => some b
  | _ => none

def toText? : Json → Option String
  | .string s => some s
  | _ => none

def items? : Json → Option (List Json)
  | .array items => some items
  | _ => none

mutual

/-- How deeply arrays and objects are nested; zero for a value that is neither. -/
def depth : Json → Nat
  | .array items => listDepth items + 1
  | .object entries => entriesDepth entries + 1
  | _ => 0

def listDepth : List Json → Nat
  | [] => 0
  | j :: rest => max j.depth (listDepth rest)

def entriesDepth : List (String × Json) → Nat
  | [] => 0
  | (_, j) :: rest => max j.depth (entriesDepth rest)

end

/-- Reads a list of values of one kind; fails if one of them does. -/
def listOf? (read : Json → Option α) (j : Json) : Option (List α) :=
  j.items?.bind (·.mapM read)

/-- Reads a value that may be `null`. -/
def nullable? (read : Json → Option α) : Json → Option (Option α)
  | .null => some none
  | j => (read j).map some

end Json

end MethodFlow
