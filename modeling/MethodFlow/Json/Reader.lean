import MethodFlow.Json.Token

/-!
# Reading JSON text

Tokens drive a machine with a stack of open arrays and objects. What the caller wants of the value
is an `Interest`: parts nobody asked for are checked for form and dropped. Limits apply to kept
parts only: how deeply they nest, that their strings spell text, and that their numbers do not
become infinite as doubles.
-/

namespace MethodFlow.Json

/-- Which parts of a value a reader keeps. -/
inductive Interest where
  /-- All of it. -/
  | whole
  /-- An array, with the same interest in each item. -/
  | items (each : Interest)
  /-- An object of which only the listed fields matter, or the array of those fields in order. -/
  | fields (known : List (String × Interest))

namespace Interest

/-- The interest in the item at a position of an array. -/
def item : Interest → Nat → Interest
  | .items each, _ => each
  | .fields known, k => (known[k]?).elim .whole (·.2)
  | .whole, _ => .whole

/-- The interest in the value at a key of an object, if there is any. -/
def field? : Interest → String → Option Interest
  | .fields known, key => known.lookup key
  | _, _ => some .whole

end Interest

/-- An array or object that is still open, its parts newest first. An object also holds the key of
the value that comes next. Without an interest only the form is checked. -/
inductive Frame where
  | array (interest : Option Interest) (rev : List Json)
  | object (interest : Option Interest) (rev : List (String × Json)) (key : String)

namespace Frame

/-- The interest in the value that comes next. -/
def next? : Frame → Option Interest
  | .array interest rev => interest.map (·.item rev.length)
  | .object interest _ key => interest.bind (·.field? key)

/-- Takes in the value that came; a value that was not kept leaves no trace. -/
def add : Frame → Option Json → Frame
  | .array interest rev, some j => .array interest (j :: rev)
  | .object interest rev key, some j => .object interest ((key, j) :: rev) key
  | frame, none => frame

end Frame

/-- What the machine waits for. The stack holds the open arrays and objects, innermost first. -/
inductive Awaiting where
  /-- A value, or the end of an array that has no item yet. -/
  | value (stack : List Frame) (orEnd : Bool)
  /-- A key, or the end of an object that has no entry yet. -/
  | key (stack : List Frame) (orEnd : Bool)
  | colon (stack : List Frame)
  /-- A comma, or the end of the innermost array or object. -/
  | comma (stack : List Frame)
  /-- Nothing: the value is complete. -/
  | done (value : Json)

namespace Awaiting

/-- Hands a complete value to what encloses it. -/
def complete : List Frame → Option Json → Option Awaiting
  | [], some j => some (.done j)
  | [], none => none
  | frame :: rest, j => some (.comma (frame.add j :: rest))

/-- The interest in the value that comes next; all of it at the top. -/
def interest (top : Interest) : List Frame → Option Interest
  | [] => some top
  | frame :: _ => frame.next?

/-- Closes an array: a kept one becomes a value. -/
def closeArray : List Frame → Option Awaiting
  | .array interest rev :: rest => complete rest (interest.map fun _ => .array rev.reverse)
  | _ => none

/-- Closes an object: a kept one becomes a value. -/
def closeObject : List Frame → Option Awaiting
  | .object interest rev _ :: rest => complete rest (interest.map fun _ => .object rev.reverse)
  | _ => none

/-- A value that is neither array nor object, wanted or not. -/
def atom (stack : List Frame) (wanted : Bool) (j : Option Json) : Option Awaiting :=
  if wanted then j.bind fun j => complete stack (some j) else complete stack none

/-- One token of the machine. At most `limit` kept arrays and objects may be open at once. -/
def step (limit : Option Nat) (top : Interest) : Awaiting → Token → Option Awaiting
  | .value stack orEnd, token =>
    let wanted := interest top stack
    let roomLeft := wanted.isNone || limit.all (stack.length < ·)
    match token with
    | .closeArray => if orEnd then closeArray stack else none
    | .openArray => if roomLeft then some (.value (.array wanted [] :: stack) true) else none
    | .openObject => if roomLeft then some (.key (.object wanted [] "" :: stack) true) else none
    | .null => atom stack wanted.isSome (some .null)
    | .bool b => atom stack wanted.isSome (some (.bool b))
    | .number n =>
      atom stack wanted.isSome (if n.magnitude.scalesOver then none else some (.number n))
    | .string s => atom stack wanted.isSome (s.map .string)
    | _ => none
  | .key stack orEnd, token =>
    match token, stack with
    | .closeObject, _ => if orEnd then closeObject stack else none
    | .string (some s), .object interest rev _ :: rest =>
      some (.colon (.object interest rev s :: rest))
    | .string none, .object none rev _ :: rest => some (.colon (.object none rev "" :: rest))
    | _, _ => none
  | .colon stack, .colon => some (.value stack false)
  | .comma stack, token =>
    match token, stack with
    | .comma, .array .. :: _ => some (.value stack false)
    | .comma, .object .. :: _ => some (.key stack false)
    | .closeArray, _ => closeArray stack
    | .closeObject, _ => closeObject stack
    | _, _ => none
  | _, _ => none

end Awaiting

/-- Reads the one value that a text holds, as far as it is of interest. Without a `limit` kept
values may nest to any depth. -/
def read? (limit : Option Nat) (interest : Interest) (text : String) : Option Json := do
  let tokens ← tokens? text
  match ← tokens.foldlM (Awaiting.step limit interest) (.value [] false) with
  | .done j => some j
  | _ => none

end MethodFlow.Json
