import FramePool.BootMap
import FramePool.Pool.Check
import FramePool.Pool.Coalesce

/-!
# Handing memory over

A range of frames is handed to a pool in the largest naturally aligned blocks that fit, from its
start on. `carve` is that partition; `releaseRange` gives its blocks to the pool one by one. A boot
map gives a pool by handing over every run of usable frames.
-/

namespace FramePool.Pool

-- Powers are those of the core library, whatever else is imported.
attribute [local instance (high)] instPowNat

/-- The largest order of a block that can start at a frame and has at most `count` frames. -/
def fittingOrder (f : Frame) (count : Nat) : Nat :=
  ((List.range orderCount).reverse.find? fun o ↦ f % 2 ^ o = 0 ∧ 2 ^ o ≤ count).getD baseOrder

/-- The blocks that `carve` cuts off, at most `fuel` of them. No head or end of one exceeds the end
of the range, which is a word when a range is released. -/
def carveFrom : (fuel : Nat) → (f : Frame) → (count : Nat) → List (Frame × Nat)
  | 0, _, _ => []
  | fuel + 1, f, count =>
    if count = 0 then []
    else
      let order := fittingOrder f count
      (f, order) :: carveFrom fuel (f + 2 ^ order) (count - 2 ^ order)

/-- The largest naturally aligned blocks that make up a range, as head and order, from its start
on. Each has a frame at least, so there are no more of them than frames. -/
def carve (f : Frame) (count : Nat) : List (Frame × Nat) := carveFrom count f count

/-- Faults with the first reserved frame among `count` frames from `f` on. -/
def requireUsable (t : FrameTable) (f : Frame) (count : Nat) : Except Fault Unit :=
  match (List.range' f count).find? t.isReserved with
  | some reserved => .error (.releaseReserved reserved)
  | none => .ok ()

/-- Hands one block to the pool. None of its frames may be reserved, and its head may not head a
free or an allocated block. -/
def releaseBlock (P : Platform) (p : Pool) (head : Frame) (order : Nat) : Traced Pool := do
  requireUsable p.table head (2 ^ order)
  let d ← p.table.read head
  require (d.free = false) (.releaseFree head)
  require (d.allocated = false) (.releaseAllocated head)
  let p ← p.setOrder head order
  let (_, _, p) ← p.merge P head
  return p

/-- Hands blocks to the pool, in order. -/
def releaseBlocks (P : Platform) : List (Frame × Nat) → Pool → Traced Pool
  | [], p => pure p
  | (head, order) :: blocks, p => do
    let p ← p.releaseBlock P head order
    releaseBlocks P blocks p

/-- Hands `count` frames from `first` on to the pool. -/
def releaseRange (C : Config) (p : Pool) (first : Frame) (count : Nat) : Traced Pool := do
  let last ← Word.add first count
  require (last ≤ p.table.length) (.releasePastTable first last p.table.length)
  let p ← releaseBlocks C.platform (carve first count) p
  p.verify C
  return p

/-- Hands ranges of frames to the pool, in order. -/
def releaseRanges (C : Config) : List (Frame × Nat) → Pool → Traced Pool
  | [], p => pure p
  | (first, count) :: ranges, p => do
    let p ← p.releaseRange C first count
    releaseRanges C ranges p

/-- The pool over a table of `count` usable frames with all of them handed over. -/
def ofCount (C : Config) (count : Nat) : Traced Pool := do
  let t ← FrameTable.allocate count
  (ofTable t).releaseRange C 0 count

/-- The pool over the table of a boot map with every usable frame handed over. -/
def ofBootMap (C : Config) (map : List Region) : Traced Pool := do
  let t ← FrameTable.ofBootMap C.platform map
  let runs := t.usableRuns
  let p ← releaseRanges C runs (ofTable t)
  Traced.emit (.ready p.table.length p.freePages)
  return p

end FramePool.Pool
