/-!
# Parts of written numbers

The numbers that runs of digits spell, in bases up to sixteen, and the cut of a numeral at a mark
such as a point.
-/

namespace MethodFlow

/-- The value of a digit in a base of at most sixteen. -/
def digit? (base : Nat) (c : Char) : Option Nat :=
  let value? :=
    if '0' ≤ c && c ≤ '9' then some (c.toNat - '0'.toNat)
    else if 'a' ≤ c && c ≤ 'f' then some (c.toNat - 'a'.toNat + 10)
    else if 'A' ≤ c && c ≤ 'F' then some (c.toNat - 'A'.toNat + 10)
    else none
  value?.filter (· < base)

/-- The values of a run of digits; `none` unless there is at least one and all are digits. -/
def digitValues? (base : Nat) (cs : List Char) : Option (List Nat) :=
  if cs.isEmpty then none else cs.mapM (digit? base)

/-- The number that a run of digits spells. -/
def digits? (base : Nat) (cs : List Char) : Option Nat :=
  (digitValues? base cs).map (·.foldl (base * · + ·) 0)

/-- Cuts a numeral at the first character that satisfies `p`, which is dropped. -/
def cutAt (p : Char → Bool) (cs : List Char) : List Char × Option (List Char) :=
  match cs.dropWhile (!p ·) with
  | [] => (cs, none)
  | _ :: rest => (cs.takeWhile (!p ·), some rest)

/-- Whether a character marks the exponent of a numeral. -/
def isExponentMark (c : Char) : Bool := c == 'e' || c == 'E'

/-- The sign in front of a numeral, true for minus, and the rest. A plus sign and none are the
same. -/
def splitSign : List Char → Bool × List Char
  | '-' :: cs => (true, cs)
  | '+' :: cs => (false, cs)
  | cs => (false, cs)

/-- The number with a sign, true for minus. -/
def withSign (negative : Bool) (n : Nat) : Int := if negative then -(n : Int) else n

end MethodFlow
