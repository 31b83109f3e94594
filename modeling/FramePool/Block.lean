import FramePool.Address.Physical

/-!
# Blocks and buddies

A block of order `o` is a run of `2 ^ o` frames that starts at a multiple of its length. Two blocks
of order `o` that make up a block of order `o + 1` are buddies: their addresses differ in the one
bit that the size of the block sets.
-/

namespace FramePool.Block

/-- The frames of a block of the order. -/
def frames (order : Nat) : Except Fault Nat := Word.shl 1 order

/-- The bytes of a block of the order. -/
def size (P : Platform) (order : Nat) : Except Fault Nat := Word.shl P.pageSize order

/-- The address of the buddy of the block at `a`. -/
def buddyAddress {P : Platform} (a : PhysicalAddress P) (order : Nat) :
    Except Fault (PhysicalAddress P) :=
  (size P order).bind fun bytes ↦ PhysicalAddress.ofNat P (a.value ^^^ bytes)

/-- The frame that heads the buddy of the block headed by `f`. -/
def buddy (P : Platform) (f : Frame) (order : Nat) : Except Fault Frame := do
  let a ← f.start P
  let b ← buddyAddress a order
  return b.frame

end FramePool.Block
