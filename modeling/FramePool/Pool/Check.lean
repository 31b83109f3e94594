import FramePool.Pool.Basic

/-!
# The checker

Walks every list of a pool and ends with the first violation. The walk notes which frames it has
seen in free blocks, so that no frame is seen twice; it ends on a cyclic list because it gives up
after as many blocks as there are frames.
-/

namespace FramePool.Pool

-- Powers are those of the core library, whatever else is imported.
attribute [local instance (high)] instPowNat

/-- What the walk has seen. -/
structure Coverage where
  /-- Whether each frame was seen in a free block. -/
  seen : Array Bool
  /-- The number of frames seen in free blocks. -/
  frames : Nat := 0

/-- Ends with a violation unless `c` holds. -/
def demand (c : Prop) [Decidable c] (v : Violation) : Except Fault Unit :=
  require c (.violation v)

/-- Notes `count` frames from `first` up as part of the free block at `head`. -/
def cover (t : FrameTable) (head : Frame) : (count : Nat) → (first : Frame) → Array Bool →
    Except Fault (Array Bool)
  | 0, _, seen => .ok seen
  | count + 1, first, seen => do
    demand (seen.getD first false = false) (.overlap first)
    demand (t.isReserved first = false) (.coversReserved head first)
    cover t head count (first + 1) (seen.setIfInBounds first true)

/-- Checks one listed block and notes its frames. -/
def checkBlock (P : Platform) (t : FrameTable) (order : Nat) (prev : Option Frame) (head : Frame)
    (d : Descriptor) (seen : Coverage) : Except Fault Coverage := do
  demand (d.free = true) (.notFlagged head)
  demand (d.reserved = false) (.reserved head)
  demand (d.allocated = false) (.allocated head)
  demand (d.order = order) (.wrongOrder head d.order order)
  demand (head % 2 ^ order = 0) (.misaligned head order)
  demand (d.refs = 0) (.referenced head)
  demand (d.prev = prev) (.brokenBackLink head)
  if order < topOrder then
    let buddy ← Block.buddy P head order
    demand (t.isFreeHead buddy order = false) (.unmerged head buddy order)
  demand (head + 2 ^ order ≤ t.length) (.pastTable order head)
  let ⟨noted, frames⟩ := seen
  let noted ← cover t head (2 ^ order) head noted
  return ⟨noted, frames + 2 ^ order⟩

/-- Checks the blocks from a link on, with at most `fuel` of them left to allow. Answers how many
there were. -/
def checkFrom (P : Platform) (t : FrameTable) (order : Nat) : (fuel : Nat) →
    (prev link : Option Frame) → Coverage → Except Fault (Nat × Coverage)
  | _, _, none, seen => .ok (0, seen)
  | 0, _, some head, _ => do
    let _ ← t.read head
    .error (.violation (.cyclic order))
  | fuel + 1, prev, some head, seen => do
    let d ← t.read head
    let seen ← checkBlock P t order prev head d seen
    let (count, seen) ← checkFrom P t order fuel (some head) d.next seen
    return (count + 1, seen)

/-- Checks the lists of some orders. Answers how many blocks there are on them. -/
def checkLists (P : Platform) (p : Pool) : List Nat → Coverage → Except Fault (Nat × Coverage)
  | [], seen => .ok (0, seen)
  | order :: orders, seen => do
    let l := p.list order
    let (count, seen) ← checkFrom P p.table order p.table.length none l.head seen
    demand (count = l.len) (.miscounted order count l.len)
    let (rest, seen) ← checkLists P p orders seen
    return (count + rest, seen)

/-- Ends with the first violation, if there is one. -/
def check (P : Platform) (p : Pool) : Except Fault Unit := do
  let (listed, seen) ← checkLists P p (List.range orderCount)
    { seen := Array.replicate p.table.length false }
  demand (seen.frames ≤ p.total) (.tooManyFree seen.frames p.total)
  let flagged := p.table.frames.countP (·.free)
  demand (flagged = listed) (.unlisted flagged listed)

/-- Checks the pool where the configuration asks for it. -/
def verify (C : Config) (p : Pool) : Except Fault Unit :=
  if C.selfCheck then p.check C.platform else .ok ()

end FramePool.Pool
