import MethodFlow.Numeral

/-!
# Strings, blanks and comments in TOML

Strings come in four forms: between double quotes, where escapes stand for characters, or between
single quotes, where every character stands for itself; on one line, or between three quotes on
several lines. Control characters other than tab may stand in none of them, nor in comments. Lines
end with a line feed, which a carriage return may precede; in a string of several lines both are
read as a line feed.

Each function gives what it has read and the text that follows.
-/

namespace MethodFlow.Toml

/-- Blanks within a line. -/
def isBlank (c : Char) : Bool := c == ' ' || c == '\t'

/-- Characters that may stand in comments and strings. -/
def isPlain (c : Char) : Bool := c == '\t' || (' ' ≤ c && c != '\x7f')

def skipBlanks (cs : List Char) : List Char := cs.dropWhile isBlank

/-- What follows the end of a line. -/
def newline? : List Char → Option (List Char)
  | '\n' :: cs => some cs
  | '\r' :: '\n' :: cs => some cs
  | _ => none

/-- What follows a line that has nothing more than blanks and a comment. -/
def lineEnd? (cs : List Char) : Option (List Char) :=
  let cs :=
    match skipBlanks cs with
    | '#' :: comment => comment.dropWhile isPlain
    | cs => cs
  if cs.isEmpty then some [] else newline? cs

/-- Skips blanks, line ends and comments. -/
def skipGap (inComment : Bool) : List Char → List Char
  | [] => []
  | '\n' :: cs => skipGap false cs
  | '\r' :: '\n' :: cs => skipGap false cs
  | c :: cs =>
    if inComment then if isPlain c then skipGap true cs else c :: cs
    else if isBlank c then skipGap false cs
    else if c == '#' then skipGap true cs
    else c :: cs

/-- The character that a one-letter escape stands for. -/
def escaped? : Char → Option Char
  | '"' => some '"'
  | '\\' => some '\\'
  | 'b' => some '\x08'
  | 'f' => some '\x0c'
  | 'n' => some '\n'
  | 'r' => some '\r'
  | 't' => some '\t'
  | _ => none

/-- The character with the number that hexadecimal digits spell. Surrogates are no characters. -/
def hexChar? (cs : List Char) : Option Char := do
  let n ← digits? 16 cs
  if n.isValidChar then some (Char.ofNat n) else none

/-- The text of characters in reverse. -/
def textOf (rev : List Char) : String := String.ofList rev.reverse

/-- The rest of a string between double quotes, `rev` being what was read of it. -/
def basicText? (rev : List Char) : List Char → Option (String × List Char)
  | [] => none
  | '"' :: cs => some (textOf rev, cs)
  | '\\' :: 'u' :: a :: b :: c :: d :: cs => do
    let x ← hexChar? [a, b, c, d]
    basicText? (x :: rev) cs
  | '\\' :: 'U' :: a :: b :: c :: d :: e :: f :: g :: h :: cs => do
    let x ← hexChar? [a, b, c, d, e, f, g, h]
    basicText? (x :: rev) cs
  | '\\' :: c :: cs => do
    let x ← escaped? c
    basicText? (x :: rev) cs
  | c :: cs => if isPlain c && c != '\\' then basicText? (c :: rev) cs else none

/-- The rest of a string between single quotes. -/
def literalText? (rev : List Char) : List Char → Option (String × List Char)
  | [] => none
  | '\'' :: cs => some (textOf rev, cs)
  | c :: cs => if isPlain c then literalText? (c :: rev) cs else none

/-- What a string of several lines is in the middle of: plain text, the blanks after a backslash
that has to end its line, or the blanks and line ends that are skipped after such a line. -/
inductive Margin where
  | none
  | lineEnding
  | skipping
  deriving DecidableEq

/-- The rest of a string of several lines between double quotes. Up to two quotes may stand directly
before the three that end it. -/
def basicLines? : Margin → (rev : List Char) → List Char → Option (String × List Char)
  | _, _, [] => .none
  | .none, rev, '\n' :: cs | .none, rev, '\r' :: '\n' :: cs => basicLines? .none ('\n' :: rev) cs
  | _, rev, '\n' :: cs | _, rev, '\r' :: '\n' :: cs => basicLines? .skipping rev cs
  | .lineEnding, rev, c :: cs => if isBlank c then basicLines? .lineEnding rev cs else .none
  | .skipping, rev, ' ' :: cs | .skipping, rev, '\t' :: cs => basicLines? .skipping rev cs
  | _, rev, '"' :: '"' :: '"' :: '"' :: '"' :: cs => some (textOf ('"' :: '"' :: rev), cs)
  | _, rev, '"' :: '"' :: '"' :: '"' :: cs => some (textOf ('"' :: rev), cs)
  | _, rev, '"' :: '"' :: '"' :: cs => some (textOf rev, cs)
  | _, rev, '\\' :: 'u' :: a :: b :: c :: d :: cs => do
    let x ← hexChar? [a, b, c, d]
    basicLines? .none (x :: rev) cs
  | _, rev, '\\' :: 'U' :: a :: b :: c :: d :: e :: f :: g :: h :: cs => do
    let x ← hexChar? [a, b, c, d, e, f, g, h]
    basicLines? .none (x :: rev) cs
  | _, rev, '\\' :: c :: cs =>
    match escaped? c with
    | some x => basicLines? .none (x :: rev) cs
    | .none => basicLines? .lineEnding rev (c :: cs)
  | _, rev, c :: cs => if isPlain c && c != '\\' then basicLines? .none (c :: rev) cs else .none

/-- The rest of a string of several lines between single quotes. -/
def literalLines? (rev : List Char) : List Char → Option (String × List Char)
  | [] => none
  | '\'' :: '\'' :: '\'' :: '\'' :: '\'' :: cs => some (textOf ('\'' :: '\'' :: rev), cs)
  | '\'' :: '\'' :: '\'' :: '\'' :: cs => some (textOf ('\'' :: rev), cs)
  | '\'' :: '\'' :: '\'' :: cs => some (textOf rev, cs)
  | '\n' :: cs => literalLines? ('\n' :: rev) cs
  | '\r' :: '\n' :: cs => literalLines? ('\n' :: rev) cs
  | c :: cs => if isPlain c then literalLines? (c :: rev) cs else none

/-- The text after a line end, if there is one. A line end right after the opening quotes of a
string of several lines is not part of it. -/
def skipNewline (cs : List Char) : List Char := (newline? cs).getD cs

/-- A string in any form, and what follows it. -/
def string? : List Char → Option (String × List Char)
  | '"' :: '"' :: '"' :: cs => basicLines? .none [] (skipNewline cs)
  | '"' :: cs => basicText? [] cs
  | '\'' :: '\'' :: '\'' :: cs => literalLines? [] (skipNewline cs)
  | '\'' :: cs => literalText? [] cs
  | _ => none

end MethodFlow.Toml
