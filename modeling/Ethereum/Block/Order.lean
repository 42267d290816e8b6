import Ethereum.Block.Basic

/-!
# Orders on blocks

Blocks are sorted by a comparison that the caller picks. The sort is stable: blocks that compare
equal stay in the order in which they came.
-/

namespace Ethereum.Block

/-- Compares blocks by their numbers. -/
def byNumber (a b : Block) : Ordering := compare a.header.number.toNat b.header.number.toNat

/-- Sorts items that hold a block each, such as blocks themselves, by a comparison of blocks. -/
def sortOn {α : Type} (block : α → Block) (compareBlocks : Block → Block → Ordering)
    (items : List α) : List α :=
  items.mergeSort fun a b => (compareBlocks (block a) (block b)).isLE

/-- Sorts blocks by a comparison. -/
def sort (compareBlocks : Block → Block → Ordering) (blocks : List Block) : List Block :=
  sortOn id compareBlocks blocks

end Ethereum.Block
