import MethodFlow.Distinct
import MethodFlow.Throwable.Hierarchy

/-!
# What a catch clause receives

Matching a thrown type with the type named by a catch clause needs two questions only, collected in
`Subtyping`: is a type known, and is one type below another. With an unknown type on either side
nothing can be ruled out, so `mayCatch` holds; `definitelyCatches` needs the named type to be known
and above.
-/

namespace MethodFlow

/-- The questions about types that exception matching asks. -/
structure Subtyping where
  knows : TypeName → Bool
  isSubtype : TypeName → TypeName → Bool

namespace ClassHierarchy

/-- A class hierarchy answers both questions. -/
def subtyping (h : ClassHierarchy) : Subtyping := ⟨h.contains, h.isSubtype⟩

end ClassHierarchy

namespace Subtyping

variable (types : Subtyping)

/-- Whether a clause for `caught` can receive some exception whose static type is `thrown`. -/
def mayCatch (thrown caught : TypeName) : Bool :=
  !types.knows thrown || !types.knows caught
    || types.isSubtype thrown caught || types.isSubtype caught thrown

/-- Whether a clause for `caught` receives every exception whose static type is `thrown`. -/
def definitelyCatches (thrown caught : TypeName) : Bool :=
  types.knows caught && types.isSubtype thrown caught

/-- Whether a clause for `caught` can receive an unchecked exception, which any code may throw. -/
def catchesUnchecked (caught : TypeName) : Bool :=
  Throwable.unchecked.any (types.mayCatch · caught)

end Subtyping

namespace Throwable

/-- The static types that code with a `throws` list can throw: those declared, then the unchecked
ones that are not among them. -/
def ofDeclared (declared : List TypeName) : List TypeName := appendAllNew declared unchecked

end Throwable

end MethodFlow
