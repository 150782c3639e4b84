/-!
# TOML values

A document is a table. The entries of a table are in the order that the document gives them; a key
occurs at most once. Integers are 64-bit words in the format, which the reader checks. Of a
floating-point number the text is kept, and of a date or a time its normal text.
-/

namespace MethodFlow

/-- A TOML value. -/
inductive Toml where
  | string (text : String)
  | integer (value : Int)
  | float (text : String)
  | boolean (value : Bool)
  | datetime (text : String)
  | array (items : List Toml)
  | table (entries : List (String × Toml))
  deriving Inhabited

namespace Toml

def toText? : Toml → Option String
  | string text => some text
  | _ => none

def toBool? : Toml → Option Bool
  | boolean value => some value
  | _ => none

/-- An integer that is not negative. -/
def toNat? : Toml → Option Nat
  | integer (.ofNat n) => some n
  | _ => none

def items? : Toml → Option (List Toml)
  | array items => some items
  | _ => none

end Toml

end MethodFlow
