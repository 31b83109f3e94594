import FramePool.Table

/-!
# Free lists

A free list is doubly linked through the descriptors of the frames on it, so a block in the middle
leaves its list in constant time. The list itself is the first frame and a counter; `walk` reads
the frames off the table. Many lists share one table, each frame being on at most one of them.
-/

namespace FramePool

/-- The first frame of a list that is threaded through a table, and its length. -/
structure FreeList where
  /-- The first frame. -/
  head : Option Frame := none
  /-- How many frames are on the list. -/
  len : Nat := 0
deriving DecidableEq, Repr, Inhabited

namespace FreeList

/-- Whether no frame is on the list. -/
def isEmpty (l : FreeList) : Bool := l.head.isNone

/-- Puts a frame in front of the list and flags it free. The counter stays a word: a list has no
more frames than its table. -/
def push (t : FrameTable) (l : FreeList) (f : Frame) : Except Fault (FrameTable × FreeList) := do
  let d ← t.read f
  require (d.free = false) (.alreadyListed f)
  let t := t.update f fun d ↦ { d with free := true, prev := none, next := l.head }
  let t ← t.writeLink l.head fun d ↦ { d with prev := some f }
  return (t, { head := some f, len := l.len + 1 })

/-- Takes a frame off the list, wherever it stands, and clears its flag and links. -/
def remove (t : FrameTable) (l : FreeList) (f : Frame) : Except Fault (FrameTable × FreeList) := do
  let d ← t.read f
  require (d.free = true) (.notListed f)
  let t := t.update f fun d ↦ { d with free := false, prev := none, next := none }
  require (d.prev = none → l.head = some f) (.notFirst l.head f)
  let t ← t.writeLink d.prev fun e ↦ { e with next := d.next }
  let t ← t.writeLink d.next fun e ↦ { e with prev := d.prev }
  let len ← Word.sub l.len 1
  return (t, { head := if d.prev = none then d.next else l.head, len := len })

/-- Takes the first frame off the list. -/
def pop (t : FrameTable) (l : FreeList) : Except Fault (Option Frame × FrameTable × FreeList) :=
  match l.head with
  | none => .ok (none, t, l)
  | some f => (l.remove t f).map fun (t, l) ↦ (some f, t, l)

/-- The frames that the links lead to from a link, at most `fuel` of them. -/
def follow (t : FrameTable) : (fuel : Nat) → Option Frame → List Frame
  | 0, _ => []
  | _, none => []
  | fuel + 1, some f => f :: follow t fuel ((t.get? f).bind (·.next))

/-- The frames on the list, from the first to the last. -/
def walk (t : FrameTable) (l : FreeList) : List Frame := follow t l.len l.head

end FreeList

end FramePool
