import FramePool.Frame

/-!
# Descriptors

What a pool knows about one frame. Only the frame that heads a block speaks for it: the flags say
whether the block is free or allocated, and order, references and links are those of the block. The
descriptors inside a block keep whatever they held when they last headed one, except that every
usable frame inside is unflagged.
-/

namespace FramePool

-- Powers are those of the core library, whatever else is imported.
attribute [local instance (high)] instPowNat

/-- The record of one frame. -/
structure Descriptor where
  /-- The frame heads a block on a free list. -/
  free : Bool := false
  /-- The frame is no memory that may be handed out. -/
  reserved : Bool := false
  /-- The frame heads a block that was handed out. -/
  allocated : Bool := false
  /-- The order of the block that the frame heads. -/
  order : Nat := 0
  /-- The references to the block that the frame heads. -/
  refs : Nat := 0
  /-- The block before this one on its free list. -/
  prev : Option Frame := none
  /-- The block after this one on its free list. -/
  next : Option Frame := none
deriving DecidableEq, Repr, Inhabited

namespace Descriptor

/-- One more than the largest reference count, which has 32 bits. -/
def refLimit : Nat := 2 ^ (32 : Nat)

/-- The reference count after taking a reference. -/
def refsUp (d : Descriptor) : Except Fault Nat :=
  if d.refs + 1 < refLimit then .ok (d.refs + 1) else .error .refOverflow

/-- The reference count after dropping a reference. -/
def refsDown (d : Descriptor) : Except Fault Nat :=
  if 0 < d.refs then .ok (d.refs - 1) else .error .refUnderflow

/-- The flags as a bit set: free is 1, reserved is 2, allocated is 4. -/
def flagBits (d : Descriptor) : Nat :=
  d.free.toNat + 2 * d.reserved.toNat + 4 * d.allocated.toNat

/-- The text that shows every field, with its name. -/
def debugText (d : Descriptor) : String :=
  "PageInfo \x7b flags: PageFlags(" ++ toString d.flagBits ++ "), order: " ++ toString d.order ++
    ", ref_count: " ++ toString d.refs ++ ", prev: " ++ linkText d.prev ++
    ", next: " ++ linkText d.next ++ " \x7d"

end Descriptor

end FramePool
