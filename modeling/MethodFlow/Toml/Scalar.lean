import MethodFlow.Decimal
import MethodFlow.Numeral
import MethodFlow.Toml.Value

/-!
# Numbers, dates and truth values in TOML

A scalar other than a string is written as one word, and the whole word has to fit one of the forms
below. A date and a time may also be divided by one space; the reader then puts the two words
together.
-/

namespace MethodFlow.Toml

/-! ## Numbers -/

/-- Drops underscores, each of which has to stand between two other characters. -/
def ungroup? : List Char → Option (List Char)
  | [] => none
  | '_' :: _ => none
  | [c] => some [c]
  | c :: '_' :: cs => (ungroup? cs).map (c :: ·)
  | c :: cs => (ungroup? cs).map (c :: ·)

/-- The number that digits spell, which may be grouped by underscores. -/
def grouped? (base : Nat) (cs : List Char) : Option Nat := (ungroup? cs).bind (digits? base)

/-- A whole decimal number without superfluous zeros in front. -/
def whole? : List Char → Option Nat
  | '0' :: _ :: _ => none
  | cs => grouped? 10 cs

/-- The number of values on each side of zero in a 64-bit word. -/
def integerBound : Nat := Nat.pow 2 63

/-- An integer within the range of 64-bit words. -/
def bounded? (n : Int) : Option Int :=
  if -(integerBound : Int) ≤ n ∧ n < integerBound then some n else none

/-- Integers: hexadecimal, octal or binary without a sign, or decimal. -/
def integer? : List Char → Option Int
  | '0' :: 'x' :: cs => (grouped? 16 cs).bind fun n => bounded? n
  | '0' :: 'o' :: cs => (grouped? 8 cs).bind fun n => bounded? n
  | '0' :: 'b' :: cs => (grouped? 2 cs).bind fun n => bounded? n
  | word =>
    let (negative, cs) := splitSign word
    (whole? cs).bind fun n => bounded? (withSign negative n)

/-- The number that a fraction or an exponent makes of a whole part; one of them has to be there. -/
def fractional? (cs : List Char) : Option Decimal := do
  let (mantissa, exponentPart) := cutAt isExponentMark cs
  let (wholePart, fractionPart) := cutAt (· == '.') mantissa
  if exponentPart.isNone && fractionPart.isNone then none
  let whole ← whole? wholePart
  let fraction ← match fractionPart with
    | none => some []
    | some cs => ungroup? cs
  let fractionValue ← if fraction.isEmpty then some 0 else digits? 10 fraction
  let exponent ← match exponentPart with
    | none => some 0
    | some cs =>
      let (negative, digits) := splitSign cs
      (grouped? 10 digits).map (withSign negative)
  some (.ofDigits whole fractionValue fraction.length exponent)

/-- Whether a word is a floating-point number. One that would round to positive infinity is none;
infinity and "not a number" have names of their own. -/
def isFloat (word : List Char) : Bool :=
  let (negative, cs) := splitSign word
  cs == ['i', 'n', 'f'] || cs == ['n', 'a', 'n'] ||
    (fractional? cs).any fun d => negative || !d.overflowsDouble

/-! ## Dates and times -/

/-- A number of two digits within bounds. -/
def twoDigits? (a b : Char) (low high : Nat) : Option Nat :=
  (digits? 10 [a, b]).filter fun n => decide (low ≤ n) && decide (n ≤ high)

/-- The number of days of a month. -/
def daysInMonth (year month : Nat) : Nat :=
  let isLeap := year % 4 == 0 && (year % 100 != 0 || year % 400 == 0)
  if month == 2 then if isLeap then 29 else 28
  else if [4, 6, 9, 11].contains month then 30
  else 31

/-- A date, and what follows it. -/
def date? : List Char → Option (List Char × List Char)
  | y₁ :: y₂ :: y₃ :: y₄ :: '-' :: m₁ :: m₂ :: '-' :: d₁ :: d₂ :: rest => do
    let year ← digits? 10 [y₁, y₂, y₃, y₄]
    let month ← twoDigits? m₁ m₂ 1 12
    let _ ← twoDigits? d₁ d₂ 1 (daysInMonth year month)
    some ([y₁, y₂, y₃, y₄, '-', m₁, m₂, '-', d₁, d₂], rest)
  | _ => none

/-- A fraction of a second, if one is written, and what follows it. Nine digits count, and zeros at
the end are dropped. -/
def fraction? : List Char → Option (List Char × List Char)
  | '.' :: cs =>
    let written := cs.takeWhile Char.isDigit
    let kept := ((written.take 9).reverse.dropWhile (· == '0')).reverse
    if written.isEmpty then none
    else some (if kept.isEmpty then [] else '.' :: kept, cs.dropWhile Char.isDigit)
  | cs => some ([], cs)

/-- A time of day, and what follows it. A minute may have a leap second. -/
def time? : List Char → Option (List Char × List Char)
  | h₁ :: h₂ :: ':' :: m₁ :: m₂ :: ':' :: s₁ :: s₂ :: rest => do
    let _ ← twoDigits? h₁ h₂ 0 23
    let _ ← twoDigits? m₁ m₂ 0 59
    let _ ← twoDigits? s₁ s₂ 0 60
    let (fraction, rest) ← fraction? rest
    some ([h₁, h₂, ':', m₁, m₂, ':', s₁, s₂] ++ fraction, rest)
  | _ => none

/-- The offset from universal time at the end of a word, which may be left off. -/
def offset? : List Char → Option (List Char)
  | [] => some []
  | ['Z'] | ['z'] => some ['Z']
  | [sign, h₁, h₂, ':', m₁, m₂] => do
    if sign != '+' && sign != '-' then none
    let hours ← twoDigits? h₁ h₂ 0 23
    let minutes ← twoDigits? m₁ m₂ 0 59
    some ((if hours + minutes == 0 then '+' else sign) :: [h₁, h₂, ':', m₁, m₂])
  | _ => none

/-- The normal text of a date, a time, or a date with a time. -/
def datetime? (word : List Char) : Option (List Char) :=
  match date? word with
  | some (date, []) => some date
  | some (date, mark :: rest) => do
    if mark != 'T' && mark != 't' && mark != ' ' then none
    let (time, rest) ← time? rest
    let offset ← offset? rest
    some (date ++ 'T' :: time ++ offset)
  | none =>
    match time? word with
    | some (time, []) => some time
    | _ => none

/-- Whether a word is a date and nothing more, so that a time may follow after a space. -/
def isDate (word : List Char) : Bool := (date? word).any (·.2.isEmpty)

/-! ## Words -/

/-- The characters that numbers, dates and truth values are made of. -/
def isWordChar (c : Char) : Bool := c.isAlphanum || ['+', '-', '_', '.', ':'].contains c

/-- The value that a word spells. -/
def ofWord? (word : List Char) : Option Toml :=
  if word == "true".toList then some (.boolean true)
  else if word == "false".toList then some (.boolean false)
  else
    match datetime? word with
    | some text => some (.datetime (String.ofList text))
    | none =>
      if isFloat word then some (.float (String.ofList word)) else (integer? word).map .integer

/-- The value written as a word at the start of a text, and what follows it. -/
def scalar? (cs : List Char) : Option (Toml × List Char) :=
  let word := cs.takeWhile isWordChar
  let rest := cs.dropWhile isWordChar
  match rest with
  | ' ' :: time =>
    if isDate word && (time.head?.any Char.isDigit) then
      (ofWord? (word ++ ' ' :: time.takeWhile isWordChar)).map (·, time.dropWhile isWordChar)
    else (ofWord? word).map (·, rest)
  | _ => (ofWord? word).map (·, rest)

end MethodFlow.Toml
