/-!
# Decimal numbers and the range of doubles

A number in a text is a run of digits scaled by a power of ten. Readers that hand numbers on as
64-bit binary floating point refuse those that become infinite. There are two ways to get at the
double, and they disagree close to the largest one:

* the double nearest to the number (`Decimal.overflowsDouble`);
* as many digits as fit a word of 64 bits (`Decimal.ofWord`), made a double, times the double
  nearest to the power of ten (`Decimal.scalesOver`).

Both are decided in exact arithmetic on natural numbers.
-/

namespace MethodFlow

/-- The number `mantissa * 10 ^ exponent`. -/
structure Decimal where
  mantissa : Nat
  exponent : Int
  deriving DecidableEq, Inhabited

/-- `n` with 53 binary digits, the nearest such number, and of two equally near ones the even one.
This is the nearest double as long as that is finite. -/
def nearestDouble (n : Nat) : Nat :=
  let unit := Nat.pow 2 (n.log2 + 1 - 53)
  let units := n / unit
  let rest := n % unit
  if unit < 2 * rest || (2 * rest == unit && units % 2 == 1) then (units + 1) * unit
    else units * unit

/-- Takes decimal digits into a word of 64 bits as long as they fit. Gives the word, and how many
digits are left over from the first one that does not fit. -/
def takeDigits (word : Nat) : List Nat → Nat × Nat
  | [] => (word, 0)
  | digit :: digits =>
    let longer := 10 * word + digit
    if longer < Nat.pow 2 64 then takeDigits longer digits else (word, digits.length + 1)

namespace Decimal

/-- The number that digits before and after a point spell, scaled by a written exponent. -/
def ofDigits (whole fraction : Nat) (fractionDigits : Nat) (exponent : Int) : Decimal :=
  ⟨whole * Nat.pow 10 fractionDigits + fraction, exponent - fractionDigits⟩

/-- The number that digits before and after a point spell, to the precision of a word of 64 bits.
Digits before the point that are left over count as zeros, those after it are dropped. The two runs
of digits are taken in one after the other, so a digit after the point may fit though one before it
did not. -/
def ofWord (whole fraction : List Nat) (exponent : Int) : Decimal :=
  let (word, zeros) := takeDigits 0 whole
  let (word, dropped) := takeDigits word fraction
  ⟨word, exponent + zeros + dropped - fraction.length⟩

/-- How many digits stand before the point when the number is written out in full, if it is at least
one tenth. -/
def magnitude (d : Decimal) : Int := (Nat.toDigits 10 d.mantissa).length + d.exponent

/-- The least number that rounds to infinity: half a unit above the largest finite double. -/
def doubleLimit : Nat := Nat.pow 2 1024 - Nat.pow 2 970

/-- Whether the nearest double is infinite. The largest finite double has 309 digits before its
point, so only numbers of that magnitude need to be compared digit by digit; a huge exponent costs
nothing. -/
def overflowsDouble (d : Decimal) : Bool :=
  if d.mantissa = 0 then false
  else if d.magnitude < 309 then false
  else if 309 < d.magnitude then true
  else match d.exponent with
    | .ofNat e => doubleLimit ≤ d.mantissa * Nat.pow 10 e
    | .negSucc e => doubleLimit * Nat.pow 10 (e + 1) ≤ d.mantissa

/-- Whether the product of the double nearest to the mantissa and the double nearest to the power of
ten is infinite. The mantissa is a word of 64 bits, so a negative exponent only makes it smaller,
and above 308 the power itself is infinite. -/
def scalesOver (d : Decimal) : Bool :=
  if d.mantissa = 0 then false
  else match d.exponent with
    | .negSucc _ => false
    | .ofNat e =>
      if 308 < e then true
      else doubleLimit ≤ nearestDouble d.mantissa * nearestDouble (Nat.pow 10 e)

end Decimal

end MethodFlow
