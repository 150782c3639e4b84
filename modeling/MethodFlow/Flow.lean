import MethodFlow.Build.Stmt
import MethodFlow.Metrics

/-!
# Flow of a body

The graph of a body together with what is derived from it: the blocks that control can reach, and
the measures.
-/

namespace MethodFlow

/-- A body's graph and the results derived from it. -/
structure Flow where
  graph : Graph
  reachability : Reachability
  metrics : Metrics

namespace Flow

/-- Builds the graph of a body and derives the rest from it. -/
def build (types : Subtyping) (body : Block) : Except BuildFailure Flow := do
  let graph ← Graph.build types body
  let reachability := graph.reachability
  return { graph, reachability, metrics := .ofBody body graph reachability }

/-- The dead blocks by region. -/
def deadRegions (flow : Flow) : List (List BlockId) := flow.graph.deadRegions flow.reachability

end Flow

end MethodFlow
