import FramePool.Fault

/-!
# Checked arithmetic on words

Sizes, addresses and frame numbers are natural numbers below `2 ^ 64`. The operations here answer
the exact result, or fault when it does not fit a word: they are those of a build that checks its
arithmetic for overflow. A shift is the exception: it faults only when the count is no bit position,
and drops the bits that leave the word. The two wrapping operations move an address by a fixed
offset, which is modulo `2 ^ 64` by design.

A sum or a product that is known to be a word is written as one of natural numbers instead, and says
what bounds it.
-/

namespace FramePool.Word

-- Powers are those of the core library, whatever else is imported.
attribute [local instance (high)] instPowNat

/-- One more than the largest word. -/
def limit : Nat := 2 ^ (64 : Nat)

/-- The sum, when it fits a word. -/
def add (a b : Nat) : Except Fault Nat :=
  if a + b < limit then .ok (a + b) else .error .addOverflow

/-- The difference, when it is not negative. -/
def sub (a b : Nat) : Except Fault Nat :=
  if b ≤ a then .ok (a - b) else .error .subOverflow

/-- The product, when it fits a word. -/
def mul (a b : Nat) : Except Fault Nat :=
  if a * b < limit then .ok (a * b) else .error .mulOverflow

/-- The word moved `k` bits up, less the bits that leave it. -/
def shl (a k : Nat) : Except Fault Nat :=
  if k < 64 then .ok ((a <<< k) % limit) else .error .shiftOverflow

/-- The sum modulo the number of words. -/
def wrappingAdd (a b : Nat) : Nat := (a + b) % limit

/-- The difference of two words modulo the number of words. -/
def wrappingSub (a b : Nat) : Nat := (a + limit - b) % limit

/-- Faults unless `align` is a power of two. -/
def requirePowerOfTwo (align : Nat) : Except Fault Unit :=
  require (align ≠ 0 ∧ align &&& (align - 1) = 0) .badAlignment

/-- Whether `a` is a multiple of the power of two `align`. -/
def isAligned (a align : Nat) : Except Fault Bool := do
  requirePowerOfTwo align
  return a % align == 0

/-- The largest multiple of the power of two `align` up to `a`. -/
def alignDown (a align : Nat) : Except Fault Nat := do
  requirePowerOfTwo align
  return a - a % align

/-- The lower-case hexadecimal text of a number. -/
def hexText (a : Nat) : String :=
  "0x" ++ String.ofList (Nat.toDigits 16 a)

/-! ### When the operations answer -/

theorem add_eq_ok_iff {a b c : Nat} : add a b = .ok c ↔ a + b < limit ∧ c = a + b := by
  by_cases h : a + b < limit <;> simp [add, h, eq_comm]

theorem sub_eq_ok_iff {a b c : Nat} : sub a b = .ok c ↔ b ≤ a ∧ c = a - b := by
  by_cases h : b ≤ a <;> simp [sub, h, eq_comm]

/-- A shift that drops no bit is a product. -/
theorem shl_eq_ok {a k : Nat} (hk : k < 64) (h : a * 2 ^ k < limit) : shl a k = .ok (a * 2 ^ k) := by
  rw [shl, if_pos hk, Nat.shiftLeft_eq, Nat.mod_eq_of_lt h]

/-- Taking away what was added gives the word back, also across the end of the words. -/
theorem wrappingSub_wrappingAdd {a b : Nat} (ha : a < limit) (hb : b < limit) :
    wrappingSub (wrappingAdd a b) b = a := by
  unfold wrappingSub wrappingAdd limit at *
  omega

end FramePool.Word
