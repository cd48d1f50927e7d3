import Mathlib.Tactic

/-!
# The blocks of a function, as an adaptor shows them

The part of the `IRAdaptor` concept that the block order and the loops are
computed from: the range of blocks, the entry and the successors. The fields
that are propositions are what the concept's comments and the analyzer's
assertions ask of an adaptor: the entry comes first in the range of blocks, the
successors are blocks of the function, and the entry is no successor.
-/

namespace Tpde

/-- The control flow of the current function. -/
structure Cfg (B : Type) where
  /-- `cur_blocks()`. -/
  curBlocks : List B
  /-- `cur_entry_block()`. -/
  curEntryBlock : B
  /-- `block_succs(block)`, in order, with duplicates. -/
  blockSuccs : B → List B
  nodup : curBlocks.Nodup
  entry_first : curBlocks.head? = some curEntryBlock
  succs_mem : ∀ b ∈ curBlocks, ∀ s ∈ blockSuccs b, s ∈ curBlocks
  entry_no_pred : ∀ b ∈ curBlocks, curEntryBlock ∉ blockSuccs b

namespace Cfg

variable {B : Type} (A : Cfg B)

/-- There is an edge from `b` to `c`. -/
def Edge (b c : B) : Prop := c ∈ A.blockSuccs b

theorem entry_mem : A.curEntryBlock ∈ A.curBlocks := List.mem_of_head? A.entry_first

end Cfg

end Tpde
