import FramePool.Descriptor
import FramePool.Platform

/-!
# The frame table

One descriptor for each frame from frame 0 up. The view of a table is `get?`, and each operation is
described by what it does to that view: `get?_update`, `length_update`.

A table is built for a given number of frames, which faults beyond `tableCapacity` before anything
else is done about it (`requireCapacity`). The tables themselves are of any length: what is said of
an operation on a table holds at every length, be there memory for it or not.
-/

namespace FramePool

/-- One descriptor for each of the first frames. -/
structure FrameTable where
  /-- The descriptors, in the order of their frames. -/
  frames : Array Descriptor
deriving DecidableEq, Repr

namespace FrameTable

/-- Faults when an object in memory cannot have the descriptors of `count` frames. -/
def requireCapacity (count : Nat) : Except Fault Unit :=
  require (count ≤ tableCapacity) .capacityOverflow

/-- A table of `count` frames, all usable and none handed over. -/
def ofCount (count : Nat) : FrameTable := ⟨Array.replicate count {}⟩

/-- The table of `count` usable frames, as a program comes by it. -/
def allocate (count : Nat) : Except Fault FrameTable := do
  requireCapacity count
  return ofCount count

/-- The number of frames. -/
def length (t : FrameTable) : Nat := t.frames.size

/-- The descriptor of a frame, if the table has one. -/
def get? (t : FrameTable) (f : Frame) : Option Descriptor := t.frames[f]?

/-- The descriptor of a frame that the table must have. -/
def read (t : FrameTable) (f : Frame) : Except Fault Descriptor :=
  match t.get? f with
  | some d => .ok d
  | none => .error (.indexOutOfBounds t.length f)

/-- The descriptors from a frame on. The frame may be the one behind the last. -/
def readFrom (t : FrameTable) (f : Frame) : Except Fault (List Descriptor) :=
  if f ≤ t.length then .ok (t.frames.toList.drop f) else .error (.sliceOutOfBounds t.length f)

/-- The table with the descriptor of one frame changed. Outside the table it changes nothing. -/
def update (t : FrameTable) (f : Frame) (g : Descriptor → Descriptor) : FrameTable :=
  ⟨t.frames.modify f g⟩

/-- The table with the descriptor of a frame changed that the table must have. -/
def write (t : FrameTable) (f : Frame) (g : Descriptor → Descriptor) : Except Fault FrameTable :=
  if f < t.length then .ok (t.update f g) else .error (.indexOutOfBounds t.length f)

/-- The table with the descriptor changed to which a link leads, if it leads anywhere. -/
def writeLink (t : FrameTable) (link : Option Frame) (g : Descriptor → Descriptor) :
    Except Fault FrameTable :=
  match link with
  | none => .ok t
  | some f => t.write f g

/-- Whether the table has the frame and it is reserved. -/
def isReserved (t : FrameTable) (f : Frame) : Bool := (t.get? f).any (·.reserved)

/-- Whether the table has the frame and it heads a free block of the order. -/
def isFreeHead (t : FrameTable) (f : Frame) (order : Nat) : Bool :=
  (t.get? f).any fun d ↦ d.free && d.order == order

/-- The number of frames that are not reserved. -/
def usableCount (t : FrameTable) : Nat := t.frames.countP fun d ↦ !d.reserved

/-! ### The view of a changed table -/

@[simp] theorem length_ofCount (count : Nat) : (ofCount count).length = count := by
  simp [ofCount, length]

@[simp] theorem isReserved_ofCount (count : Nat) (f : Frame) :
    (ofCount count).isReserved f = false := by
  rw [isReserved, get?, ofCount, Array.getElem?_replicate]
  split <;> rfl

@[simp] theorem length_update (t : FrameTable) (f : Frame) (g : Descriptor → Descriptor) :
    (t.update f g).length = t.length := by
  simp [update, length]

theorem get?_update (t : FrameTable) (f f' : Frame) (g : Descriptor → Descriptor) :
    (t.update f g).get? f' = if f = f' then (t.get? f').map g else t.get? f' := by
  simp [update, get?, Array.getElem?_modify]

@[simp] theorem get?_update_self (t : FrameTable) (f : Frame) (g : Descriptor → Descriptor) :
    (t.update f g).get? f = (t.get? f).map g := by
  simp [get?_update]

theorem get?_update_of_ne (t : FrameTable) {f f' : Frame} (g : Descriptor → Descriptor)
    (h : f ≠ f') : (t.update f g).get? f' = t.get? f' := by
  simp [get?_update, h]

theorem get?_isSome {t : FrameTable} {f : Frame} : (t.get? f).isSome ↔ f < t.length := by
  simp [get?, length]

theorem read_eq_ok_iff {t : FrameTable} {f : Frame} {d : Descriptor} :
    t.read f = .ok d ↔ t.get? f = some d := by
  unfold read
  cases t.get? f <;> simp

theorem readFrom_eq_ok_iff {t : FrameTable} {f : Frame} {ds : List Descriptor} :
    t.readFrom f = .ok ds ↔ f ≤ t.length ∧ ds = t.frames.toList.drop f := by
  unfold readFrom
  by_cases h : f ≤ t.length <;> simp [h, eq_comm]

end FrameTable

end FramePool
