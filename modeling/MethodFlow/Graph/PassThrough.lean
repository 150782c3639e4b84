import MethodFlow.Graph.Basic

/-!
# Blocks that control only passes through

A block without elements and with a single edge does nothing but pass control on. Following such
blocks tells where a jump really leads. Loop headers are never passed over, so that a jump to the
header of an empty loop leads to that header.
-/

namespace MethodFlow

namespace BasicBlock

/-- Where a block passes control on to, if that is all it does. -/
def passesTo? (b : BasicBlock) : Option BlockId :=
  if b.kind == .loopHeader || !b.isEmpty then none
  else
    match b.successors with
    | [e] => some e.target
    | _ => none

end BasicBlock

namespace Graph

/-- Where a block passes control on to, if that is all it does. -/
def passesTo? (g : Graph) (id : BlockId) : Option BlockId := (g.block? id).bind (·.passesTo?)

/-- Follows blocks that only pass control on, each of `unpassed` at most once. -/
def passOver (g : Graph) (unpassed : List BlockId) (id : BlockId) : BlockId :=
  if _ : id ∈ unpassed then
    match g.passesTo? id with
    | some next => g.passOver (unpassed.erase id) next
    | none => id
  else id
termination_by unpassed.length
decreasing_by
  rename id ∈ unpassed => h
  have := List.length_pos_of_mem h
  rw [List.length_erase_of_mem h]
  omega

/-- The first block from `id` on that does more than pass control on. On a cycle of blocks that do
nothing, the block at which the cycle was entered. -/
def normalize (g : Graph) (id : BlockId) : BlockId := g.passOver g.ids id

/-- The target of the only normal edge, if there is exactly one. -/
def successor? (g : Graph) (id : BlockId) : Option BlockId :=
  match (g.block? id).map (·.normalSuccessors) with
  | some [e] => some e.target
  | _ => none

/-- Where control would go from a block if the jump at its end were not there. -/
def withoutJump? (g : Graph) (id : BlockId) : Option BlockId :=
  ((g.block? id).bind (·.lexicalNext)).map g.normalize

end Graph

end MethodFlow
