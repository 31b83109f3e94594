import FramePool.Word

/-!
# Frame numbers

Physical memory is cut into frames of one page each, numbered from zero. A frame number is both an
index into the table of descriptors and, times the page size, an address.
-/

namespace FramePool

/-- The number of a frame. -/
abbrev Frame := Nat

namespace Frame

/-- Whether the frame can head a block of the order: whether it is a multiple of the block's
length. Faults when the length is no word. -/
def isAligned (f : Frame) (order : Nat) : Except Fault Bool :=
  (Word.shl 1 order).map fun frames ↦ f % frames == 0

/-- The frame `n` frames up. -/
def add (f : Frame) (n : Nat) : Except Fault Frame := Word.add f n

/-- How many frames `f` is above `g`. -/
def sub (f g : Frame) : Except Fault Nat := Word.sub f g

/-- The plain text of a frame number. -/
def text (f : Frame) : String := toString (f : Nat)

/-- The text that names the type, too. -/
def debugText (f : Frame) : String := s!"FrameNumber({text f})"

end Frame

end FramePool
