import FramePool.Table
import FramePool.Trace

/-!
# Boot maps

The firmware describes physical memory as a list of regions. A frame is usable when a region of
free memory covers all of it and no later region of another kind touches it: regions count in
order, a later one overrides an earlier one. The table ends with the last whole frame of the
highest free region.
-/

namespace FramePool

/-- What a region of physical memory is. -/
inductive RegionKind where
  /-- Memory that may be handed out. -/
  | free
  /-- Memory of the firmware or of a device. -/
  | reserved
  /-- Tables of the firmware that may be reused once they are read. -/
  | acpiReclaimable
  /-- Storage of the firmware. -/
  | acpiNvs
  /-- Memory that is broken. -/
  | bad
deriving DecidableEq, Repr

namespace RegionKind

/-- The kinds, in the order in which they are listed to users. -/
def all : List RegionKind := [free, reserved, acpiReclaimable, acpiNvs, bad]

/-- The identifier of the kind. -/
def name : RegionKind → String
  | free => "Free"
  | reserved => "Reserved"
  | acpiReclaimable => "AcpiReclaimable"
  | acpiNvs => "AcpiNvs"
  | bad => "Bad"

/-- The words shown to users. -/
def text : RegionKind → String
  | free => "free"
  | reserved => "reserved"
  | acpiReclaimable => "ACPI"
  | acpiNvs => "ACPI NVS"
  | bad => "bad"

/-- Whether memory of the kind may be handed out. -/
def isUsable (k : RegionKind) : Bool := k == free

/-- The kind with the given identifier. -/
def ofName? (s : String) : Option RegionKind := all.find? fun k ↦ k.name == s

end RegionKind

/-- An entry of a boot map. -/
structure Region where
  /-- The first byte. -/
  base : Nat
  /-- The number of bytes. -/
  size : Nat
  /-- What the region is. -/
  kind : RegionKind
deriving DecidableEq, Repr

/-- The bytes of a region, from `first` up to but not including `last`. -/
structure Span where
  /-- The first byte. -/
  first : Nat
  /-- One more than the last byte. -/
  last : Nat
  /-- Whether the bytes may be handed out. -/
  usable : Bool
deriving DecidableEq, Repr

/-- The bytes of a region, whose base must be a physical address and whose end a word. -/
def Region.span (P : Platform) (r : Region) : Except Fault Span := do
  let base ← PhysicalAddress.ofNat P r.base
  let last ← Word.add base.value r.size
  return ⟨base.value, last, r.kind.isUsable⟩

/-- Whether the frame that consists of the bytes from `first` up to `last` is usable once the
region counts, given whether it was before. -/
def Span.decide (first last : Nat) (usable : Bool) (s : Span) : Bool :=
  if s.usable then
    usable || (s.first ≤ first && last ≤ s.last)
  else
    usable && !(s.first < last && first < s.last)

/-- Whether the regions, counted in order, leave the frame usable. -/
def usableFrame (P : Platform) (spans : List Span) (f : Frame) : Bool :=
  spans.foldl (Span.decide (f * P.pageSize) (f * P.pageSize + P.pageSize)) false

namespace FrameTable

/-- The number of whole frames below the end of the highest usable region. -/
def frameCount (P : Platform) (map : List Region) : Except Fault Nat := do
  let spans ← (map.filter (·.kind.isUsable)).mapM (Region.span P)
  return (spans.map fun s ↦ s.last / P.pageSize).foldl max 0

/-- The table that a boot map describes. The usable regions are looked at for its length, and all of
them for its frames, if it has any. -/
def ofBootMap (P : Platform) (map : List Region) : Traced FrameTable := do
  let count ← frameCount P map
  Traced.emit (.building count)
  requireCapacity count
  let spans ← (if count = 0 then .ok [] else map.mapM (Region.span P) : Except Fault (List Span))
  return ⟨Array.ofFn fun f : Fin count ↦ { reserved := !usableFrame P spans f }⟩

/-! ### Runs of usable frames -/

/-- The runs of usable frames from frame `f` up, given those from the next frame up, when frame `f`
is usable itself. -/
def extendRuns (f : Frame) : List (Frame × Nat) → List (Frame × Nat)
  | [] => [(f, 1)]
  | (first, count) :: runs =>
    if first = f + 1 then (f, count + 1) :: runs else (f, 1) :: (first, count) :: runs

/-- The maximal runs of usable frames, as first frame and length, in ascending order. -/
def usableRuns (t : FrameTable) : List (Frame × Nat) :=
  t.frames.toList.zipIdx.foldr (fun (d, f) runs ↦ if d.reserved then runs else extendRuns f runs) []

/-- One step of an iteration over the runs: the first run from a cursor on, and the cursor behind
it. One scan goes over the reserved frames in front of the run, another one over its own. -/
def nextRun (t : FrameTable) (cursor : Frame) :
    Except Fault (Option ((Frame × Nat) × Frame)) := do
  let rest ← t.readFrom cursor
  match rest.findIdx? fun d ↦ !d.reserved with
  | none => return none
  | some skip =>
    let first ← Frame.add cursor skip
    let frames ← t.readFrom first
    let count := (frames.takeWhile fun d ↦ !d.reserved).length
    let cursor ← Frame.add first count
    return some ((first, count), cursor)

end FrameTable

end FramePool
