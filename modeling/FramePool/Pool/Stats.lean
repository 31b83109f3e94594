import FramePool.Platform
import FramePool.Text.Size

/-!
# Counters of a pool

A snapshot of how many free blocks there are of each order, and what follows from it. Its sums and
products are words where those of the pool are.
-/

namespace FramePool

-- Powers and sums are those of the core library, whatever else is imported.
attribute [local instance (high)] instPowNat Zero.ofOfNat0

/-- How many free blocks a pool had of each order, and how many usable frames in all. -/
structure Stats where
  /-- The number of free blocks of each order. -/
  freeBlocks : Vector Nat orderCount
  /-- The number of usable frames. -/
  totalPages : Nat
deriving DecidableEq, Repr

namespace Stats

/-- The number of free blocks of an order; none where there is no such order. -/
def blocks (s : Stats) (order : Nat) : Nat := s.freeBlocks[order]?.getD 0

/-- The number of free frames. -/
def freePages (s : Stats) : Nat :=
  (s.freeBlocks.toList.zipIdx.map fun (count, order) ↦ count * 2 ^ order).sum

/-- The free memory in bytes. -/
def freeBytes (P : Platform) (s : Stats) : Nat := s.freePages * P.pageSize

/-- The free memory in KiB. -/
def freeKib (P : Platform) (s : Stats) : Nat := s.freeBytes P / 1024

/-- The number of usable frames that are not free. -/
def allocatedPages (s : Stats) : Nat := s.totalPages - s.freePages

/-- The report: a line for each order and a summary. -/
def report (P : Platform) (s : Stats) : String :=
  let blockLine := fun (count, order) ↦ s!"  order #{order} blocks={count}\n"
  let free := Text.size (s.freeBytes P)
  let total := Text.size (s.totalPages * P.pageSize)
  "buddy allocator:\n" ++ String.join (s.freeBlocks.toList.zipIdx.map blockLine) ++
    s!"  free: {s.freeKib P} kiB ({free} of {total})"

end Stats

end FramePool
