import FramePool.Block
import FramePool.FreeList
import FramePool.Page
import FramePool.Pool.Stats

/-!
# Pools

A pool is a table of descriptors and, threaded through it, one list of free blocks for each order.
This module holds the state, what can be read off it, and the three smallest changes: to put a block
in front of the list of an order, to take it off, and to note the order of a block.
-/

namespace FramePool

-- Powers and sums are those of the core library, whatever else is imported.
attribute [local instance (high)] instPowNat Zero.ofOfNat0

/-- The frames of a machine and the free blocks among them. -/
structure Pool where
  /-- The descriptors of the frames. -/
  table : FrameTable
  /-- The free blocks of each order. -/
  lists : Vector FreeList orderCount
  /-- The number of usable frames that the pool was built with. -/
  total : Nat
deriving DecidableEq

namespace Pool

/-- The pool over a table with nothing handed over yet. -/
def ofTable (t : FrameTable) : Pool where
  table := t
  lists := Vector.replicate orderCount {}
  total := t.usableCount

/-- The list of an order; empty where there is no such order. -/
def list (p : Pool) (order : Nat) : FreeList := p.lists[order]?.getD {}

/-- Changes the table and the list of an order together. -/
def withList {α : Type} (p : Pool) (order : Nat)
    (change : FrameTable → FreeList → Except Fault (α × FrameTable × FreeList)) :
    Except Fault (α × Pool) :=
  let ⟨table, lists, total⟩ := p
  if h : order < orderCount then do
    let (a, table, list) ← change table lists[order]
    return (a, ⟨table, lists.set order list, total⟩)
  else
    .error (.indexOutOfBounds orderCount order)

/-- Puts a block in front of the list of its order. -/
def link (p : Pool) (order : Nat) (f : Frame) : Except Fault Pool :=
  (p.withList order fun t l ↦ (l.push t f).map ((), ·)).map (·.2)

/-- Takes a block off the list of its order. -/
def unlink (p : Pool) (order : Nat) (f : Frame) : Except Fault Pool :=
  (p.withList order fun t l ↦ (l.remove t f).map ((), ·)).map (·.2)

/-- Takes the first block off the list of an order. -/
def popFirst (p : Pool) (order : Nat) : Except Fault (Option Frame × Pool) :=
  p.withList order fun t l ↦ l.pop t

/-- Changes the descriptor of a frame that the table must have. -/
def write (p : Pool) (f : Frame) (g : Descriptor → Descriptor) : Except Fault Pool :=
  let ⟨table, lists, total⟩ := p
  (table.write f g).map fun table ↦ ⟨table, lists, total⟩

/-- Notes the order of the block that a frame heads. -/
def setOrder (p : Pool) (f : Frame) (order : Nat) : Except Fault Pool :=
  p.write f fun d ↦ { d with order := order }

/-! ### What can be read off a pool -/

/-- The descriptor of the frame that heads a page, which the table must have. -/
def describe (p : Pool) (page : Page) : Except Fault Descriptor :=
  match p.table.get? page.frame with
  | some d => .ok d
  | none => .error (.outsideTable page.frame)

/-- The order that is noted for a page. -/
def orderOf (p : Pool) (page : Page) : Except Fault Nat := (p.describe page).map (·.order)

/-- The bytes of a block of the order that is noted for a page. -/
def blockSize (P : Platform) (p : Pool) (page : Page) : Except Fault Nat :=
  p.orderOf page >>= Block.size P

/-- The page of the frame that contains an address, if the table has it. -/
def pageAt {P : Platform} (p : Pool) (a : PhysicalAddress P) : Option Page :=
  (p.table.get? a.frame).map fun _ ↦ ⟨a.frame⟩

/-- The number of free blocks of an order. -/
def freeCount (p : Pool) (order : Nat) : Nat := (p.list order).len

/-- The number of frames in free blocks. The sum is a word: free blocks share no frame, so they have
no more of them than the table. -/
def freePages (p : Pool) : Nat :=
  ((List.range orderCount).map fun order ↦ p.freeCount order * 2 ^ order).sum

/-- The memory in free blocks, in KiB. The product is a word whenever the frames of the table have
no more bytes than a word can count. -/
def freeKib (P : Platform) (p : Pool) : Nat := p.freePages * P.pageSize / 1024

/-- The number of usable frames that are in no free block. -/
def allocatedPages (p : Pool) : Nat := p.total - p.freePages

/-- A snapshot of the counters. -/
def stats (p : Pool) : Stats where
  freeBlocks := p.lists.map (·.len)
  totalPages := p.total

/-- The frames with an address that head a free or an allocated block, with their descriptors. -/
def heads (P : Platform) (p : Pool) : List (Frame × Descriptor) :=
  ((p.table.frames.toList.take P.frameLimit).zipIdx.filter fun (d, _) ↦ d.free || d.allocated).map
    fun (d, f) ↦ (f, d)

end Pool

end FramePool
