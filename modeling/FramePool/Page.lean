import FramePool.Trace

/-!
# Pages

A page names a block by the frame that heads it. It is a plain value: it says nothing about whether
the block is still handed out, which the pool keeps in its table. A page reference stands for one
counted reference to a block, to be given back once.
-/

namespace FramePool

/-- A block, named by the frame that heads it. -/
structure Page where
  /-- The frame that heads the block. -/
  frame : Frame
deriving DecidableEq, Repr

/-- One counted reference to a block. -/
structure PageRef where
  /-- The block. -/
  page : Page
deriving DecidableEq, Repr

namespace Page

/-- The address of the first byte of the block. -/
def address (P : Platform) (p : Page) : Except Fault (PhysicalAddress P) := p.frame.start P

/-- The text of a page is the address of its block. -/
def text (P : Platform) (p : Page) : Except Fault String :=
  (p.frame.addressText P).map fun address ↦ s!"page {address}"

/-- The text that names the type and the frame. -/
def debugText (p : Page) : String := s!"Page({p.frame.debugText})"

end Page

end FramePool
