import FramePool.Pool.Basic

/-!
# Halving and merging blocks

A request takes the first block of the smallest sufficient order and halves it down, leaving each
upper half on the list of its order. A block that comes back is merged with its buddy as long as
the buddy is a free block of the same order; the lower of the two frames heads the merged block.
The two undo each other: the buddies that `halve` leaves behind are the ones that `merge` collects.
-/

namespace FramePool.Pool

/-- Halves the block at `head` from order `order + levels` down to `order`. -/
def halveDown (P : Platform) (head : Frame) (order : Nat) :
    (levels : Nat) → Pool → Except Fault Pool
  | 0, p => .ok p
  | levels + 1, p => do
    let buddy ← Block.buddy P head (order + levels)
    let p ← p.setOrder head (order + levels)
    let p ← p.setOrder buddy (order + levels)
    let p ← p.link (order + levels) buddy
    halveDown P head order levels p

/-- Halves the block at `head`, which is on no list, down to an order below its own. -/
def halve (P : Platform) (p : Pool) (head : Frame) (order : Nat) : Traced Pool := do
  let d ← p.table.read head
  require (order < d.order) (.splitTooSmall d.order head order)
  let p ← halveDown P head order (d.order - order) p
  Traced.emit (.halved head order)
  return p

/-- The smallest order from `order` up that has a free block. -/
def firstFit (p : Pool) (order : Nat) : Option Nat :=
  (List.range' order (orderCount - order)).find? fun o ↦ !(p.list o).isEmpty

/-- Takes a block of the order off the lists, halving a larger one if there is none, and answers
its head. Without a sufficient block the pool stays as it is. -/
def take (P : Platform) (p : Pool) (order : Nat) : Traced (Option Frame × Pool) := do
  match p.firstFit order with
  | none => return (none, p)
  | some found =>
    match ← (p.popFirst found : Except Fault (Option Frame × Pool)) with
    | (none, p) => return (none, p)
    | (some head, p) =>
      Traced.emit (.found found head order)
      if order < found then
        let p ← p.halve P head order
        return (some head, p)
      else
        return (some head, p)

/-- Merges the block of the order at `head`, which is on no list, at most `levels` times, and puts
the result on the list of its order. Answers the head and the order of the result. -/
def climb (P : Platform) : (levels : Nat) → (order : Nat) → (head : Frame) → Pool →
    Traced (Frame × Nat × Pool)
  | 0, order, head, p => do
    let p ← p.link order head
    return (head, order, p)
  | levels + 1, order, head, p => do
    let buddy ← Block.buddy P head order
    if p.table.isFreeHead buddy order then
      let p ← p.unlink order buddy
      Traced.emit (.merged order head buddy)
      let p ← p.setOrder (min head buddy) (order + 1)
      climb P levels (order + 1) (min head buddy) p
    else
      let p ← p.link order head
      return (head, order, p)

/-- Puts the block at `head`, which is on no list, back on the lists, merged with its free buddies.
Answers the head and the order of the free block that it is now part of. -/
def merge (P : Platform) (p : Pool) (head : Frame) : Traced (Frame × Nat × Pool) := do
  let d ← p.table.read head
  climb P (topOrder - d.order) d.order head p

end FramePool.Pool
