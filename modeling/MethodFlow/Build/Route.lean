import MethodFlow.Distinct
import MethodFlow.Graph.Basic
import MethodFlow.Build.Scope

/-!
# Routes through `finally` clauses

Control that leaves a `try` statement with a `finally` clause goes to that clause first and to its
goal afterwards. A route says which edges leave the block where it starts, and at which `finally`
clauses it has to be resumed and how. Routes depend only on the handlers that are crossed.

Main functions: `JumpRoute.through` for jumps, whose goal is fixed, and `ThrowRoute.through` for
exceptions, which are offered to the catch clauses on their way out.
-/

namespace MethodFlow

/-- How a jump leaves its block, and where the `finally` clauses on its way send it on to. -/
structure JumpRoute where
  edge : Edge
  resumptions : List (BlockId × Edge)

namespace JumpRoute

/-- The route of a jump through handlers, innermost first, to a final edge. -/
def through (final : Edge) : List Handler → JumpRoute
  | [] => ⟨final, []⟩
  | handler :: outer =>
    let rest := through final outer
    match handler.finalizer with
    | none => rest
    | some entry => ⟨.sequential entry, (entry, rest.edge) :: rest.resumptions⟩

end JumpRoute

namespace CatchTarget

/-- Whether the clause can receive an exception of a static type. -/
def mayReceive (c : CatchTarget) (types : Subtyping) (thrown : TypeName) : Bool :=
  c.types.any (types.mayCatch thrown)

/-- Whether the clause receives every exception of a static type. -/
def receivesAll (c : CatchTarget) (types : Subtyping) (thrown : TypeName) : Bool :=
  c.types.any (types.definitelyCatches thrown)

/-- Whether the clause can receive an exception that any code may throw. -/
def receivesUnchecked (c : CatchTarget) (types : Subtyping) : Bool :=
  c.types.any types.catchesUnchecked

end CatchTarget

/-- Where exceptions go from a block, and where the `finally` clauses on their way send them on
to. -/
structure ThrowRoute where
  targets : List BlockId
  resumptions : List (BlockId × Edge)

namespace ThrowRoute

/-- Offers static types to the clauses of one `try` statement in order. Gives the types that get
past all of them, and `targets` with the entries of the clauses that can receive something. -/
def offer (types : Subtyping) : List CatchTarget → List TypeName → List BlockId →
    List TypeName × List BlockId
  | [], thrown, targets => (thrown, targets)
  | clause :: clauses, thrown, targets =>
    offer types clauses
      (thrown.filter (!clause.receivesAll types ·))
      (if thrown.any (clause.mayReceive types) then appendNew targets clause.entry else targets)

/-- The route of exceptions of the given static types through handlers, innermost first. What gets
past the outermost handler ends the method, which is of interest only with `toExit`; an exception
that a `finally` clause holds up always goes on to wherever it leads. -/
def through (types : Subtyping) (toExit : Bool) : List Handler → List TypeName → List BlockId →
    ThrowRoute
  | [], thrown, targets =>
    ⟨if toExit && !thrown.isEmpty then targets ++ [Graph.exit] else targets, []⟩
  | handler :: outer, thrown, targets =>
    let (thrown, targets) := offer types handler.catches thrown targets
    if thrown.isEmpty then ⟨targets, []⟩
    else
      match handler.finalizer with
      | none => through types toExit outer thrown targets
      | some entry =>
        let rest := through types true outer thrown []
        ⟨appendNew targets entry,
          rest.resumptions ++ rest.targets.map fun target => (entry, .exceptional target)⟩

def edges (route : ThrowRoute) : List Edge := route.targets.map .exceptional

end ThrowRoute

namespace Scope

/-- The route to the block after a target. -/
def breakRoute (scope : Scope) (target : Target) : JumpRoute :=
  .through (.sequential target.breakTo) (scope.crossed target)

/-- The route to the next round of a loop. -/
def continueRoute (scope : Scope) (target : Target) (continueTo : BlockId) : JumpRoute :=
  .through (.loopBack continueTo) (scope.crossed target)

/-- The route out of the method. -/
def returnRoute (scope : Scope) : JumpRoute := .through (.sequential Graph.exit) scope.handlers

/-- The route of an exception thrown on purpose, which may end the method. -/
def throwRoute (scope : Scope) (thrown : TypeName) : ThrowRoute :=
  .through scope.types true scope.handlers [thrown] []

/-- The route of the exceptions that an element with the given `throws` list may raise. Those that
nothing in the method receives are left out. -/
def raiseRoute (scope : Scope) (declared : List TypeName) : ThrowRoute :=
  .through scope.types false scope.handlers (Throwable.ofDeclared declared) []

end Scope

end MethodFlow
