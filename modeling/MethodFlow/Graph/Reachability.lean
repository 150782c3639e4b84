import MethodFlow.Graph.Basic

/-!
# Reachable blocks and dead regions

A search starts from some blocks and takes every edge, whatever its kind. It works on the list of
blocks not found yet: finding a block moves it from that list to the queue, so the search ends
without a bound on its steps, and what is left at the end is what it did not reach.

Blocks that the search from the entry leaves over are dead. They are grouped into regions, each
found by a search among dead blocks alone, and each listed with its head first.
-/

namespace MethodFlow

namespace Search

/-- Moves the targets that were not found yet out of `unfound`, in the order of the targets. -/
def discover (unfound : List BlockId) : List BlockId → List BlockId × List BlockId
  | [] => (unfound, [])
  | target :: targets =>
    if unfound.contains target then
      let rest := discover (unfound.erase target) targets
      (rest.1, target :: rest.2)
    else discover unfound targets

/-- Discovery splits the blocks not found yet and loses none of them. -/
theorem length_discover (unfound targets : List BlockId) :
    (discover unfound targets).1.length + (discover unfound targets).2.length = unfound.length := by
  induction targets generalizing unfound with
  | nil => simp [discover]
  | cons target targets ih =>
    simp only [discover]
    split
    · rename_i h
      have hmem : target ∈ unfound := List.contains_iff_mem.mp h
      have hpos : 0 < unfound.length := List.length_pos_of_mem hmem
      have := ih (unfound.erase target)
      rw [List.length_erase_of_mem hmem] at this
      simp only [List.length_cons]
      omega
    · exact ih unfound

/-- Breadth-first search. Gives the blocks in the order in which they leave the queue, and what of
`unfound` was not reached. -/
def run (next : BlockId → List BlockId) (unfound queue : List BlockId) :
    List BlockId × List BlockId :=
  match queue with
  | [] => ([], unfound)
  | block :: queue =>
    let found := discover unfound (next block)
    let rest := run next found.1 (queue ++ found.2)
    (block :: rest.1, rest.2)
termination_by unfound.length + queue.length
decreasing_by
  have := length_discover unfound (next block)
  simp only [List.length_append, List.length_cons]
  omega

/-- Starts a search among `unfound` at each candidate that no earlier search has found. Gives one
list of blocks for each search made. -/
def regions (next : BlockId → List BlockId) (unfound : List BlockId) :
    List BlockId → List (List BlockId)
  | [] => []
  | head :: heads =>
    if unfound.contains head then
      let region := run next (unfound.erase head) [head]
      region.1 :: regions next region.2 heads
    else regions next unfound heads

end Search

/-- Which blocks of a graph control can reach, and which it cannot. -/
structure Reachability where
  /-- In the order in which the search visits them. -/
  reachable : List BlockId
  /-- In order. -/
  unreachable : List BlockId

namespace Reachability

def isReachable (r : Reachability) (id : BlockId) : Bool := r.reachable.contains id

end Reachability

namespace Graph

/-- The result of a search from the entry. -/
def reachability (g : Graph) : Reachability :=
  let found := Search.run g.targets (g.ids.erase entry) [entry]
  ⟨found.1, found.2⟩

/-- Whether a dead block is entered from no dead block. -/
def isDeadHead (g : Graph) (r : Reachability) (id : BlockId) : Bool :=
  (g.predecessors id).all r.isReachable

/-- The dead blocks by region. Regions start at the heads, in order; dead cycles that no head leads
to start at their first block. -/
def deadRegions (g : Graph) (r : Reachability) : List (List BlockId) :=
  Search.regions g.targets r.unreachable (r.unreachable.filter (g.isDeadHead r) ++ r.unreachable)

end Graph

end MethodFlow
