import MethodFlow.Distinct
import MethodFlow.Tree.Walk
import MethodFlow.Graph.Reachability

/-!
# Measures of a method body

Cyclomatic complexity is taken from the graph and counts only what control can reach. The deepest
nesting, the number of variables and the number of lines are taken from the text.
-/

namespace MethodFlow

namespace Graph

/-- The decisions taken in some blocks together. -/
def decisions (g : Graph) (ids : List BlockId) : Nat :=
  ids.foldr (fun id count => (g.block? id).elim 0 (·.decisions) + count) 0

/-- One more than the decisions in the blocks that control can reach. -/
def complexityWithin (g : Graph) (r : Reachability) : Nat :=
  1 + g.decisions (g.ids.filter r.isReachable)

def complexity (g : Graph) : Nat := g.complexityWithin g.reachability

end Graph

namespace Event

/-- The names of variables that a node brings up: those it declares, and those it refers to. A
member counts when it is one of `this`. -/
def variableNames : Event → List String
  | .stmt (.localVar decl) => [decl.name]
  | .stmt (.forEach var _ _ _) => [var]
  | .stmt (.tryStmt resources _ _ _ _) => resources.map (·.name)
  | .expr (.name ident _) => [ident]
  | .expr (.member object field _) =>
    match object.skipParens with
    | .this _ => [field]
    | _ => []
  | .catchClause clause => [clause.param]
  | _ => []

end Event

namespace Visitor

/-- Keeps the greatest depth at which a statement was seen. -/
def deepest : Visitor Nat
  | .stmt _, context, depth => .yield (max depth context.depth)
  | _, _, depth => .yield depth

/-- Collects the names of variables, each once. -/
def variableNames : Visitor (List String) :=
  fun event _ names => .yield (appendAllNew names event.variableNames)

end Visitor

namespace Block

/-- How deeply statements are nested, zero for a body without nested statements. -/
def nestingLevel (body : Block) : Nat := (body.walk Visitor.deepest {} 0).2

/-- The names of the variables a body brings up, each once. -/
def variableNames (body : Block) : List String := (body.walk Visitor.variableNames {} []).2

def variableCount (body : Block) : Nat := body.variableNames.length

def lineCount (body : Block) : Nat := body.span.lineCount

end Block

/-- The measures of a body whose graph could be built. -/
structure Metrics where
  complexity : Nat
  nesting : Nat
  variableCount : Nat
  lines : Nat
  deriving DecidableEq

namespace Metrics

/-- The measures of a body, given its graph and what is reachable in it. -/
def ofBody (body : Block) (g : Graph) (r : Reachability) : Metrics where
  complexity := g.complexityWithin r
  nesting := body.nestingLevel
  variableCount := body.variableCount
  lines := body.lineCount

end Metrics

end MethodFlow
