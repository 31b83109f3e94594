import FramePool.Frame
import FramePool.Platform

/-!
# Virtual addresses

A virtual address is canonical when the bits above its sign bit repeat it: it lies in the lowest or
in the highest `2 ^ (virtualBits - 1)` words. An address that points into emulated memory is not
subject to that rule, so the type carries no proof and `ofNat` is the check.
-/

namespace FramePool

-- Powers are those of the core library, whatever else is imported.
attribute [local instance (high)] instPowNat

/-- An address as the running program sees it. -/
@[ext] structure VirtualAddress where
  /-- The address as a number. -/
  value : Nat
deriving DecidableEq, Repr

/-- Whether the bits of the word above the platform's sign bit repeat it. -/
def Platform.IsCanonical (P : Platform) (n : Nat) : Prop :=
  n < 2 ^ (P.virtualBits - 1) ∨ Word.limit - 2 ^ (P.virtualBits - 1) ≤ n

instance (P : Platform) (n : Nat) : Decidable (P.IsCanonical n) :=
  inferInstanceAs (Decidable (_ ∨ _))

namespace VirtualAddress

/-- The address with the given number, which must be canonical. -/
def ofNat (P : Platform) (n : Nat) : Except Fault VirtualAddress :=
  if P.IsCanonical n then .ok ⟨n⟩ else .error .notCanonical

/-- Whether the address is a multiple of the power of two `align`. -/
def isAligned (v : VirtualAddress) (align : Nat) : Except Fault Bool :=
  Word.isAligned v.value align

/-- The largest multiple of the power of two `align` up to the address. -/
def alignDown (v : VirtualAddress) (align : Nat) : Except Fault VirtualAddress :=
  (Word.alignDown v.value align).map VirtualAddress.mk

/-- The address `n` bytes up, which must again be canonical. -/
def add (P : Platform) (v : VirtualAddress) (n : Nat) : Except Fault VirtualAddress :=
  Word.add v.value n >>= ofNat P

/-- How many bytes `v` is above `w`. -/
def sub (v w : VirtualAddress) : Except Fault Nat := Word.sub v.value w.value

/-- The plain text of an address. -/
def text (v : VirtualAddress) : String := Word.hexText v.value

/-- The text that names the type, too. -/
def debugText (v : VirtualAddress) : String := s!"VirtualAddress({v.text})"

theorem ofNat_eq_ok_iff {P : Platform} {n : Nat} {v : VirtualAddress} :
    ofNat P n = .ok v ↔ P.IsCanonical n ∧ v = ⟨n⟩ := by
  by_cases h : P.IsCanonical n <;> simp [ofNat, h, eq_comm]

end VirtualAddress

end FramePool
