/-!
# Faults and allocation errors

Two kinds of failure are kept apart. An `AllocError` is an answer: the caller asked for a block and
there is none to give. A `Fault` is the end of the run: an argument that no caller may pass, an
arithmetic overflow, a table too large for memory, or a broken data structure. A `Violation` is what
the checker of a pool can find wrong; finding one is a fault.

Each cause is one constructor, and its wording is in one place, `Fault.message`.
-/

namespace FramePool

/-- Why a request for a block was answered without one. -/
inductive AllocError where
  /-- No free block of the requested order or of a larger one is left. -/
  | outOfMemory
  /-- The requested order is not below the number of orders. -/
  | orderTooLarge
  /-- The shared pool was used before it was given a pool. -/
  | uninitialized
deriving DecidableEq, Repr

namespace AllocError

/-- The errors, in the order in which they are listed to users. -/
def all : List AllocError := [outOfMemory, orderTooLarge, uninitialized]

/-- The identifier of the error. -/
def name : AllocError → String
  | outOfMemory => "OutOfMemory"
  | orderTooLarge => "OrderTooLarge"
  | uninitialized => "Uninitialized"

/-- The sentence shown to users. -/
def message : AllocError → String
  | outOfMemory => "out of physical memory"
  | orderTooLarge => "requested block order is too large"
  | uninitialized => "page allocator is not initialized"

end AllocError

/-- What the checker of a pool can find. Frames and orders are numbers; `order` is the order of the
list that is being walked. -/
inductive Violation where
  /-- The walk along a list visited more blocks than there are frames. -/
  | cyclic (order : Nat)
  /-- A listed frame is not flagged free. -/
  | notFlagged (frame : Nat)
  /-- A listed frame is reserved. -/
  | reserved (frame : Nat)
  /-- A listed frame is flagged allocated. -/
  | allocated (frame : Nat)
  /-- A listed frame has another order than its list. -/
  | wrongOrder (frame actual order : Nat)
  /-- A listed frame is no multiple of its block's length. -/
  | misaligned (frame order : Nat)
  /-- A listed frame still has references. -/
  | referenced (frame : Nat)
  /-- The back link of a listed frame is not its predecessor on the list. -/
  | brokenBackLink (frame : Nat)
  /-- Both halves of a larger block are free. -/
  | unmerged (frame buddy order : Nat)
  /-- A listed block ends outside the table. -/
  | pastTable (order frame : Nat)
  /-- Two listed blocks share a frame. -/
  | overlap (frame : Nat)
  /-- A listed block contains a reserved frame. -/
  | coversReserved (head frame : Nat)
  /-- A list's counter is not its length. -/
  | miscounted (order count len : Nat)
  /-- More frames are free than the pool was built with. -/
  | tooManyFree (covered total : Nat)
  /-- Some frame is flagged free and on no list. -/
  | unlisted (flagged listed : Nat)
deriving DecidableEq, Repr

/-- The sentence that reports a violation. -/
def Violation.message : Violation → String
  | cyclic order => s!"order-{order} free list is cyclic"
  | notFlagged frame => s!"listed frame {frame} is not flagged free"
  | reserved frame => s!"reserved frame {frame} is on a free list"
  | allocated frame => s!"allocated frame {frame} is on a free list"
  | wrongOrder frame actual order =>
    s!"frame {frame} has order {actual} but sits on the order-{order} list"
  | misaligned frame order => s!"frame {frame} is misaligned for order {order}"
  | referenced frame => s!"free frame {frame} is referenced"
  | brokenBackLink frame => s!"broken back link at frame {frame}"
  | unmerged frame buddy order =>
    s!"free buddies {frame} and {buddy} were not merged at order {order}"
  | pastTable order frame => s!"order-{order} block at frame {frame} runs past the frame table"
  | overlap frame => s!"frame {frame} is covered by more than one free block"
  | coversReserved head frame => s!"free block at frame {head} covers reserved frame {frame}"
  | miscounted order count len => s!"order-{order} list holds {count} blocks but counts {len}"
  | tooManyFree covered total => s!"{covered} frames are free but the pool only has {total}"
  | unlisted flagged listed => s!"{flagged} frames are flagged free but {listed} are listed"

/-- What ends a run. -/
inductive Fault where
  /-- A sum does not fit a word. -/
  | addOverflow
  /-- A difference is negative. -/
  | subOverflow
  /-- A product does not fit a word. -/
  | mulOverflow
  /-- A shift by the width of a word or more. -/
  | shiftOverflow
  /-- A table or a buffer would be larger than an object in memory can be. -/
  | capacityOverflow
  /-- A subscript outside its table. -/
  | indexOutOfBounds (len index : Nat)
  /-- A slice that starts behind the end of its table. -/
  | sliceOutOfBounds (len first : Nat)
  /-- A physical address with too many bits. -/
  | physicalTooWide
  /-- A virtual address whose upper bits do not repeat its sign bit. -/
  | notCanonical
  /-- An alignment that is no power of two. -/
  | badAlignment
  /-- An address past the end of the emulated memory. -/
  | addressOutOfBounds
  /-- A range that leaves the emulated memory, or starts at its end. -/
  | rangeOutOfBounds
  /-- A virtual address outside the emulated memory. -/
  | pointerOutOfBounds
  /-- A second direct map was installed. -/
  | mapInstalled
  /-- Memory was to be reached with no direct map installed. -/
  | mapMissing
  /-- A range to release ends outside the table. -/
  | releasePastTable (first last len : Nat)
  /-- A range to release contains a reserved frame. -/
  | releaseReserved (frame : Nat)
  /-- A block to release starts at a free block. -/
  | releaseFree (frame : Nat)
  /-- A block to release starts at an allocated block. -/
  | releaseAllocated (frame : Nat)
  /-- A page whose frame has no descriptor. -/
  | outsideTable (frame : Nat)
  /-- A reserved frame was given back. -/
  | freeReserved (frame : Nat)
  /-- The frame given back heads no allocated block. -/
  | doubleFree (frame : Nat)
  /-- The block given back still has references. -/
  | freeReferenced (frame refs : Nat)
  /-- A reference was taken to a frame that heads no allocated block. -/
  | increfUnallocated (frame : Nat)
  /-- A reference was dropped on a frame that heads no allocated block. -/
  | decrefUnallocated (frame : Nat)
  /-- A reference count would exceed its 32 bits. -/
  | refOverflow
  /-- A reference was dropped that nobody holds. -/
  | refUnderflow
  /-- A block was to be halved down to an order that is not below its own. -/
  | splitTooSmall (order frame target : Nat)
  /-- A frame was to be listed while flagged free. -/
  | alreadyListed (frame : Nat)
  /-- A frame was to be taken off a list while not flagged free. -/
  | notListed (frame : Nat)
  /-- A frame without predecessor is not the first of its list. -/
  | notFirst (first : Option Nat) (frame : Nat)
  /-- The checker found a violation. -/
  | violation (v : Violation)
  /-- The shared pool was given a second pool. -/
  | alreadyInitialized
  /-- A block was given back to the shared pool before it was given a pool. -/
  | usedBeforeInit
deriving DecidableEq, Repr

/-- How a link to a frame is spelled. -/
def linkText : Option Nat → String
  | none => "None"
  | some frame => s!"Some(FrameNumber({frame}))"

/-- The sentence that reports a fault. -/
def Fault.message : Fault → String
  | addOverflow => "attempt to add with overflow"
  | subOverflow => "attempt to subtract with overflow"
  | mulOverflow => "attempt to multiply with overflow"
  | shiftOverflow => "attempt to shift left with overflow"
  | capacityOverflow => "capacity overflow"
  | indexOutOfBounds len index =>
    s!"index out of bounds: the len is {len} but the index is {index}"
  | sliceOutOfBounds len first =>
    s!"range start index {first} out of range for slice of length {len}"
  | physicalTooWide => "physical address exceeds maximum width"
  | notCanonical => "address is not canonical"
  | badAlignment => "alignment must be a power of two"
  | addressOutOfBounds => "physical address out of bounds"
  | rangeOutOfBounds => "physical range out of bounds"
  | pointerOutOfBounds => "pointer not within emulated memory"
  | mapInstalled => "address translator already set"
  | mapMissing =>
    "address translator not set; call AddressTranslator::set_current during initialization"
  | releasePastTable first last len =>
    s!"frame range {first}..{last} exceeds the frame table ({len} frames)"
  | releaseReserved frame => s!"cannot release reserved frame {frame}"
  | releaseFree frame => s!"frame {frame} released twice"
  | releaseAllocated frame => s!"frame {frame} released while allocated"
  | outsideTable frame => s!"frame {frame} is outside the frame table"
  | freeReserved frame => s!"freeing reserved frame {frame}"
  | doubleFree frame => s!"double free of frame {frame}: it does not head an allocated block"
  | freeReferenced frame refs => s!"freeing frame {frame} with {refs} outstanding references"
  | increfUnallocated frame => s!"taking a reference to unallocated frame {frame}"
  | decrefUnallocated frame => s!"dropping a reference to unallocated frame {frame}"
  | refOverflow => "page reference count overflow"
  | refUnderflow => "page reference count underflow"
  | splitTooSmall order frame target =>
    s!"cannot split order-{order} block at frame {frame} down to order {target}"
  | alreadyListed frame => s!"frame {frame} is already on a free list"
  | notListed frame => s!"frame {frame} is not on a free list"
  | notFirst first frame =>
    "assertion `left == right` failed: unlinked frame was not the head\n  left: " ++
      linkText first ++ "\n right: " ++ linkText (some frame)
  | violation v => v.message
  | alreadyInitialized => "page allocator already initialized"
  | usedBeforeInit => "page allocator used before initialization"

/-- Goes on when `c` holds and ends with `fault` otherwise. -/
def require (c : Prop) [Decidable c] (fault : Fault) : Except Fault Unit :=
  if c then .ok () else .error fault

@[simp] theorem require_of_pos {c : Prop} [Decidable c] {fault : Fault} (h : c) :
    require c fault = .ok () :=
  if_pos h

@[simp] theorem require_of_neg {c : Prop} [Decidable c] {fault : Fault} (h : ¬c) :
    require c fault = .error fault :=
  if_neg h

end FramePool
