import MethodFlow.Json.Value

/-!
# Writing JSON text

Values are written without blanks, entries and items in order. Only quotes, backslashes and control
characters are escaped; all other text stands for itself.
-/

namespace MethodFlow.Json

/-- A hexadecimal digit, for numbers below sixteen. -/
def hexDigit (n : Nat) : Char := if n < 10 then Char.ofNat (48 + n) else Char.ofNat (87 + n)

/-- How a character of a string is written. -/
def escape (c : Char) : String :=
  if c == '"' then "\\\""
  else if c == '\\' then "\\\\"
  else if c < ' ' then
    String.ofList ['\\', 'u', '0', '0', hexDigit (c.toNat / 16), hexDigit (c.toNat % 16)]
  else c.toString

def quote (s : String) : String := s.foldl (fun acc c => acc ++ escape c) "\"" ++ "\""

namespace Number

/-- A number read as bare digits is written as such; any other is written as digits and an
exponent. -/
def render (n : Number) : String :=
  let sign := if n.negative then "-" else ""
  let digits := toString n.magnitude.mantissa
  if n.integral then sign ++ digits else sign ++ digits ++ "e" ++ toString n.magnitude.exponent

end Number

mutual

/-- Writes a value after what has been written so far. -/
def renderOnto (out : String) : Json → String
  | .null => out ++ "null"
  | .bool true => out ++ "true"
  | .bool false => out ++ "false"
  | .number n => out ++ n.render
  | .string s => out ++ quote s
  | .array [] => out ++ "[]"
  | .array (j :: rest) => renderItems (renderOnto (out ++ "[") j) rest ++ "]"
  | .object [] => out ++ "\x7b\x7d"
  | .object ((k, j) :: rest) =>
    renderEntries (renderOnto (out ++ "\x7b" ++ quote k ++ ":") j) rest ++ "\x7d"

def renderItems (out : String) : List Json → String
  | [] => out
  | j :: rest => renderItems (renderOnto (out ++ ",") j) rest

def renderEntries (out : String) : List (String × Json) → String
  | [] => out
  | (k, j) :: rest => renderEntries (renderOnto (out ++ "," ++ quote k ++ ":") j) rest

end

/-- The text of a value. -/
def render (j : Json) : String := renderOnto "" j

end MethodFlow.Json
