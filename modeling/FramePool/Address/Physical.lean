import FramePool.Frame
import FramePool.Platform

/-!
# Physical addresses

A physical address carries the proof that it fits the platform's address width, so an operation
that leaves the width has to fault before it can answer. Frame `f` starts at address
`f * pageSize`; `Frame.start` and `PhysicalAddress.frame` go between the two.
-/

namespace FramePool

/-- An address of a byte of physical memory. -/
@[ext] structure PhysicalAddress (P : Platform) where
  /-- The address as a number. -/
  value : Nat
  /-- The address fits the platform's width. -/
  value_lt : value < P.physicalLimit
deriving DecidableEq

namespace PhysicalAddress

variable {P : Platform}

/-- The address with the given number, which must fit the platform's width. -/
def ofNat (P : Platform) (n : Nat) : Except Fault (PhysicalAddress P) :=
  if h : n < P.physicalLimit then .ok ⟨n, h⟩ else .error .physicalTooWide

/-- Whether the address is a multiple of the power of two `align`. -/
def isAligned (a : PhysicalAddress P) (align : Nat) : Except Fault Bool :=
  Word.isAligned a.value align

/-- The largest multiple of the power of two `align` up to the address. -/
def alignDown (a : PhysicalAddress P) (align : Nat) : Except Fault (PhysicalAddress P) := do
  Word.requirePowerOfTwo align
  return ⟨a.value - a.value % align, Nat.lt_of_le_of_lt (Nat.sub_le _ _) a.value_lt⟩

/-- The address `n` bytes up. -/
def add (a : PhysicalAddress P) (n : Nat) : Except Fault (PhysicalAddress P) :=
  Word.add a.value n >>= ofNat P

/-- How many bytes `a` is above `b`. -/
def sub (a b : PhysicalAddress P) : Except Fault Nat := Word.sub a.value b.value

/-- The frame that contains the address. -/
def frame (a : PhysicalAddress P) : Frame := a.value / P.pageSize

/-- The plain text of an address. -/
def text (a : PhysicalAddress P) : String := Word.hexText a.value

/-- The text that names the type, too. -/
def debugText (a : PhysicalAddress P) : String := s!"PhysicalAddress({a.text})"

theorem ofNat_of_lt {n : Nat} (h : n < P.physicalLimit) : ofNat P n = .ok ⟨n, h⟩ :=
  dif_pos h

theorem ofNat_of_le {n : Nat} (h : P.physicalLimit ≤ n) : ofNat P n = .error .physicalTooWide :=
  dif_neg (Nat.not_lt.mpr h)

theorem ofNat_eq_ok_iff {n : Nat} {a : PhysicalAddress P} : ofNat P n = .ok a ↔ n = a.value := by
  constructor
  · intro h
    unfold ofNat at h
    split at h
    · cases h; rfl
    · cases h
  · rintro rfl
    exact ofNat_of_lt a.value_lt

end PhysicalAddress

/-- The address of the first byte of a frame. -/
def Frame.start (P : Platform) (f : Frame) : Except Fault (PhysicalAddress P) :=
  Word.mul f P.pageSize >>= PhysicalAddress.ofNat P

theorem Platform.physicalLimit_lt (P : Platform) : P.physicalLimit < Word.limit :=
  Nat.pow_lt_pow_right (by decide) P.physicalBits_lt

/-- A frame has an address exactly when it is among the first `frameLimit` frames. -/
theorem Frame.start_eq_ok_iff {P : Platform} {f : Frame} {a : PhysicalAddress P} :
    f.start P = .ok a ↔ f * P.pageSize = a.value := by
  have hlim := P.physicalLimit_lt
  unfold Frame.start Word.mul
  split
  · exact PhysicalAddress.ofNat_eq_ok_iff
  · rename_i h
    constructor
    · intro h'; cases h'
    · intro h'
      exact absurd (h' ▸ Nat.lt_trans a.value_lt hlim) h

theorem Frame.start_of_lt {P : Platform} {f : Frame} (h : f * P.pageSize < P.physicalLimit) :
    f.start P = .ok ⟨f * P.pageSize, h⟩ :=
  Frame.start_eq_ok_iff.mpr rfl

end FramePool
