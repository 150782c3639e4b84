import MethodFlow.Json.Value
import MethodFlow.Numeral

/-!
# Tokens of JSON text

The text is read one character at a time into punctuation, words and strings. A word is a run of
letters, digits, signs and points; it must spell `true`, `false`, `null` or a number. Only space,
tab, line feed and carriage return may stand between tokens.

A string token carries the text it spells. A string with an unpaired surrogate escape is well formed
and spells no text: it may stand where its content does not matter.
-/

namespace MethodFlow.Json

/-- The smallest parts of JSON text. -/
inductive Token where
  | openArray | closeArray | openObject | closeObject | comma | colon
  | null
  | bool (value : Bool)
  | number (value : Number)
  | string (text : Option String)
  deriving DecidableEq, Inhabited

/-- Characters that may stand between tokens. -/
def isBlank (c : Char) : Bool := c == ' ' || c == '\t' || c == '\n' || c == '\r'

/-- Characters that words are made of. -/
def isWordChar (c : Char) : Bool := c.isAlphanum || c == '+' || c == '-' || c == '.'

/-- The token that a single character spells. -/
def punctuation? : Char → Option Token
  | '[' => some .openArray
  | ']' => some .closeArray
  | '{' => some .openObject
  | '}' => some .closeObject
  | ',' => some .comma
  | ':' => some .colon
  | _ => none

/-! ## Numbers -/

/-- The digits of a whole number without superfluous zeros in front. -/
def whole? : List Char → Option (List Nat)
  | '0' :: _ :: _ => none
  | cs => digitValues? 10 cs

/-- An exponent: digits with an optional sign. -/
def exponent? (cs : List Char) : Option Int :=
  let (negative, digits) := splitSign cs
  (digits? 10 digits).map (withSign negative)

/-- A number without its sign: a whole part, then an optional fraction and an optional exponent. -/
def unsigned? (negative : Bool) (cs : List Char) : Option Number := do
  let (mantissa, exponentPart) := cutAt isExponentMark cs
  let (wholePart, fractionPart) := cutAt (· == '.') mantissa
  let whole ← whole? wholePart
  let fraction ← match fractionPart with
    | none => some []
    | some f => digitValues? 10 f
  let exponent ← match exponentPart with
    | none => some 0
    | some e => exponent? e
  let magnitude := Decimal.ofWord whole fraction exponent
  let integral := fractionPart.isNone && exponentPart.isNone && magnitude.exponent == 0
  some { negative, integral, magnitude }

/-- The token that a word spells. -/
def ofWord? (word : List Char) : Option Token :=
  if word = "true".toList then some (.bool true)
  else if word = "false".toList then some (.bool false)
  else if word = "null".toList then some .null
  else match word with
    | '-' :: cs => (unsigned? true cs).map .number
    | cs => (unsigned? false cs).map .number

/-! ## Strings -/

/-- The part of a string that has been read: its characters, newest first, a leading surrogate that
waits for its other half, and whether every surrogate so far has found one. -/
structure PartialText where
  chars : List Char := []
  pending : Option Nat := none
  sound : Bool := true

namespace PartialText

/-- A character that is not half of a pair. A surrogate that still waits stays unpaired. -/
def push (t : PartialText) (c : Char) : PartialText :=
  { chars := c :: t.chars, pending := none, sound := t.sound && t.pending.isNone }

/-- A code unit given by an escape. -/
def pushUnit (t : PartialText) (n : Nat) : PartialText :=
  if 0xD800 ≤ n && n < 0xDC00 then
    { t with pending := some n, sound := t.sound && t.pending.isNone }
  else if 0xDC00 ≤ n && n < 0xE000 then
    match t.pending with
    | some high =>
      { t with
        chars := Char.ofNat (0x10000 + (high - 0xD800) * 0x400 + (n - 0xDC00)) :: t.chars
        pending := none }
    | none => { t with sound := false }
  else t.push (Char.ofNat n)

/-- The text that was spelled, unless a surrogate was left alone. -/
def finish (t : PartialText) : Option String :=
  if t.sound && t.pending.isNone then some (String.ofList t.chars.reverse) else none

end PartialText

/-- The character that a one-letter escape stands for. -/
def escaped? : Char → Option Char
  | '"' => some '"'
  | '\\' => some '\\'
  | '/' => some '/'
  | 'b' => some '\x08'
  | 'f' => some '\x0c'
  | 'n' => some '\n'
  | 'r' => some '\r'
  | 't' => some '\t'
  | _ => none

/-! ## The scanner -/

/-- What the scanner is in the middle of. -/
inductive Scan where
  | between
  | word (rev : List Char)
  | string (text : PartialText)

/-- Reads characters into tokens, newest first in `done`. -/
def scan (done : List Token) : Scan → List Char → Option (List Token)
  | .between, [] => some done.reverse
  | .between, c :: cs =>
    if isBlank c then scan done .between cs
    else if c == '"' then scan done (.string {}) cs
    else if isWordChar c then scan done (.word [c]) cs
    else match punctuation? c with
      | some token => scan (token :: done) .between cs
      | none => none
  | .word rev, [] => (ofWord? rev.reverse).map fun token => (token :: done).reverse
  | .word rev, c :: cs =>
    if isWordChar c then scan done (.word (c :: rev)) cs
    else match ofWord? rev.reverse with
      | none => none
      | some token =>
        if isBlank c then scan (token :: done) .between cs
        else match punctuation? c with
          | some next => scan (next :: token :: done) .between cs
          | none => none
  | .string text, '"' :: cs => scan (.string text.finish :: done) .between cs
  | .string text, '\\' :: 'u' :: a :: b :: c :: d :: cs =>
    match digits? 16 [a, b, c, d] with
    | some n => scan done (.string (text.pushUnit n)) cs
    | none => none
  | .string text, '\\' :: c :: cs =>
    match escaped? c with
    | some e => scan done (.string (text.push e)) cs
    | none => none
  | .string text, c :: cs => if c < ' ' then none else scan done (.string (text.push c)) cs
  | .string _, [] => none

/-- The tokens of a text. -/
def tokens? (text : String) : Option (List Token) := scan [] .between text.toList

end MethodFlow.Json
