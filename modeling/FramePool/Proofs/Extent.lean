import FramePool.Block
import Mathlib.Data.List.Perm.Basic
import Mathlib.Data.Nat.Bitwise
import Mathlib.Tactic.Ring

/-!
# Extents: blocks as sets of frames

An extent is a block without its bookkeeping: a first frame and an order. What the rest of the
theory needs from the arithmetic of powers of two is here, in three steps.

* The buddy of a frame is found by flipping one bit. On a frame aligned to the order, that is adding
  or taking away the length of the block (`Frame.buddy_of_dvd`, `Frame.buddy_of_not_dvd`).
* Two aligned extents that share a frame are nested, the smaller in the larger
  (`Extent.mem_of_mem`): membership is a quotient by the length (`Extent.mem_iff_div`).
* An extent and its buddy are apart and together fill their parent (`Extent.mem_parent_iff`,
  `Extent.apart_buddy`).

Frames are written as natural numbers here, since all that is said about them is arithmetic.
-/

namespace FramePool

/-! ### Buddies of frames -/

/-- The frame that differs from `f` in the one bit that is the length of a block of the order. -/
def Frame.buddy (f o : Nat) : Nat := f ^^^ 2 ^ o

namespace Frame

variable {f g o : Nat}

@[simp] theorem buddy_buddy (f o : Nat) : buddy (buddy f o) o = f := by
  simp [buddy]

theorem buddy_ne (f o : Nat) : buddy f o ≠ f := by
  intro h
  have hzero : f ^^^ (f ^^^ 2 ^ o) = 0 := by
    rw [show f ^^^ 2 ^ o = f from h, Nat.xor_self]
  rw [← Nat.xor_assoc, Nat.xor_self, Nat.zero_xor] at hzero
  exact (Nat.two_pow_pos o).ne' hzero

theorem buddy_eq_iff : buddy f o = g ↔ f = buddy g o := by
  constructor
  · rintro rfl; rw [buddy_buddy]
  · rintro rfl; rw [buddy_buddy]

/-- Block number `k` of an order has number `k ^^^ 1` as its buddy. -/
theorem buddy_two_pow_mul (k o : Nat) : buddy (2 ^ o * k) o = 2 ^ o * (k ^^^ 1) := by
  have h := Nat.shiftLeft_xor_distrib (i := o) (a := k) (b := 1)
  simp only [Nat.shiftLeft_eq, Nat.one_mul] at h
  rw [buddy, Nat.mul_comm, Nat.mul_comm (2 ^ o), h]

theorem two_pow_succ_dvd_iff (k o : Nat) : 2 ^ (o + 1) ∣ 2 ^ o * k ↔ Even k := by
  rw [Nat.pow_succ, Nat.mul_dvd_mul_iff_left (Nat.two_pow_pos o), even_iff_two_dvd]

/-- The lower half of a larger block lies below its buddy. -/
theorem buddy_of_dvd (h : 2 ^ (o + 1) ∣ f) : buddy f o = f + 2 ^ o := by
  obtain ⟨k, rfl⟩ := h
  rw [Nat.pow_succ, Nat.mul_assoc, buddy_two_pow_mul, Nat.xor_one_of_even (even_two_mul k)]
  ring

/-- The upper half of a larger block lies above its buddy. -/
theorem buddy_of_not_dvd (h : 2 ^ o ∣ f) (h' : ¬2 ^ (o + 1) ∣ f) : buddy f o + 2 ^ o = f := by
  obtain ⟨k, rfl⟩ := h
  rw [two_pow_succ_dvd_iff, Nat.not_even_iff_odd] at h'
  obtain ⟨j, rfl⟩ := h'
  rw [buddy_two_pow_mul, Nat.xor_one_of_odd ⟨j, rfl⟩, Nat.add_sub_cancel]
  ring

theorem dvd_buddy (h : 2 ^ o ∣ f) : 2 ^ o ∣ buddy f o := by
  obtain ⟨k, rfl⟩ := h
  rw [buddy_two_pow_mul]
  exact Nat.dvd_mul_right _ _

/-- Of two buddies, the lower one starts the larger block. -/
theorem dvd_min_buddy (h : 2 ^ o ∣ f) : 2 ^ (o + 1) ∣ min f (buddy f o) := by
  by_cases h' : 2 ^ (o + 1) ∣ f
  · rwa [buddy_of_dvd h', Nat.min_eq_left (Nat.le_add_right _ _)]
  · have hf := buddy_of_not_dvd h h'
    rw [Nat.min_eq_right (by omega)]
    obtain ⟨k, rfl⟩ := h
    rw [two_pow_succ_dvd_iff, Nat.not_even_iff_odd] at h'
    obtain ⟨j, rfl⟩ := h'
    rw [buddy_two_pow_mul, Nat.xor_one_of_odd ⟨j, rfl⟩, Nat.add_sub_cancel,
      two_pow_succ_dvd_iff]
    exact even_two_mul j

/-- A frame and its buddy, in ascending order, are one length apart. -/
theorem buddy_cases (h : 2 ^ o ∣ f) :
    (min f (buddy f o) = f ∧ buddy f o = f + 2 ^ o) ∨
      (min f (buddy f o) = buddy f o ∧ f = buddy f o + 2 ^ o) := by
  by_cases h' : 2 ^ (o + 1) ∣ f
  · have hf := buddy_of_dvd h'
    exact Or.inl ⟨by omega, hf⟩
  · have hf := buddy_of_not_dvd h h'
    exact Or.inr ⟨by omega, hf.symm⟩

end Frame

/-! ### Extents -/

/-- A run of `2 ^ order` frames from `head` on. -/
structure Extent where
  /-- The first frame. -/
  head : Nat
  /-- The binary logarithm of the length. -/
  order : Nat
deriving DecidableEq, Repr

namespace Extent

variable {b c : Extent} {f g : Nat}

/-- A frame belongs to an extent when it lies between the ends. -/
instance : Membership Nat Extent where
  mem b f := b.head ≤ f ∧ f < b.head + 2 ^ b.order

theorem mem_iff : f ∈ b ↔ b.head ≤ f ∧ f < b.head + 2 ^ b.order := Iff.rfl

instance (f : Nat) (b : Extent) : Decidable (f ∈ b) := decidable_of_iff _ mem_iff.symm

/-- Only a multiple of the length can head a block. -/
def Aligned (b : Extent) : Prop := 2 ^ b.order ∣ b.head

instance (b : Extent) : Decidable b.Aligned := inferInstanceAs (Decidable (_ ∣ _))

/-- Two extents that share no frame. -/
def Apart (b c : Extent) : Prop := ∀ f, f ∈ b → f ∉ c

/-- The other half of the parent. -/
def buddy (b : Extent) : Extent := ⟨Frame.buddy b.head b.order, b.order⟩

/-- The extent of the next order that is made of this one and its buddy. -/
def parent (b : Extent) : Extent := ⟨min b.head (Frame.buddy b.head b.order), b.order + 1⟩

theorem head_mem (b : Extent) : b.head ∈ b :=
  ⟨Nat.le_refl _, Nat.lt_add_of_pos_right (Nat.two_pow_pos _)⟩

theorem not_apart_self (b : Extent) : ¬b.Apart b := fun h ↦ h _ b.head_mem b.head_mem

/-! #### Nesting -/

/-- Membership in an aligned extent is a matter of the leading bits. -/
theorem mem_iff_div (hb : b.Aligned) : f ∈ b ↔ f / 2 ^ b.order = b.head / 2 ^ b.order := by
  obtain ⟨k, hk⟩ := hb
  rw [mem_iff, hk, Nat.mul_div_cancel_left _ (Nat.two_pow_pos _),
    Nat.div_eq_iff (Nat.two_pow_pos _)]
  have := Nat.two_pow_pos b.order
  rw [Nat.mul_comm k]
  omega

/-- **Nesting.** Of two aligned extents that share a frame, the larger contains the smaller. -/
theorem mem_of_mem (hb : b.Aligned) (hc : c.Aligned) (hle : b.order ≤ c.order) (hfb : f ∈ b)
    (hfc : f ∈ c) (hg : g ∈ b) : g ∈ c := by
  obtain ⟨k, hk⟩ := Nat.exists_eq_add_of_le hle
  have hsplit : ∀ n : Nat, n / 2 ^ c.order = n / 2 ^ b.order / 2 ^ k := fun n ↦ by
    rw [hk, Nat.pow_add, Nat.div_div_eq_div_mul]
  rw [mem_iff_div hb] at hfb hg
  rw [mem_iff_div hc, hsplit, hg, ← hfb, ← hsplit]
  exact (mem_iff_div hc).1 hfc

theorem eq_of_mem (hb : b.Aligned) (hc : c.Aligned) (heq : b.order = c.order) (hfb : f ∈ b)
    (hfc : f ∈ c) : b = c := by
  rw [mem_iff_div hb] at hfb
  rw [mem_iff_div hc, ← heq, hfb] at hfc
  obtain ⟨head, order⟩ := b
  obtain ⟨head', order'⟩ := c
  obtain rfl : order = order' := heq
  exact congrArg (Extent.mk · order) ((Nat.div_left_inj hb hc).1 hfc)

/-! #### Halves and parents -/

@[simp] theorem parent_order (b : Extent) : b.parent.order = b.order + 1 := rfl

theorem Aligned.buddy (hb : b.Aligned) : b.buddy.Aligned := Frame.dvd_buddy hb

theorem Aligned.parent (hb : b.Aligned) : b.parent.Aligned := Frame.dvd_min_buddy hb

theorem mem_parent_iff (hb : b.Aligned) : f ∈ b.parent ↔ f ∈ b ∨ f ∈ b.buddy := by
  have hpow : 2 ^ (b.order + 1) = 2 ^ b.order + 2 ^ b.order := by ring
  rcases Frame.buddy_cases hb with ⟨hmin, hbuddy⟩ | ⟨hmin, hbuddy⟩ <;>
    simp only [mem_iff, parent, buddy, hmin, hpow] <;> omega

theorem apart_buddy (hb : b.Aligned) : b.Apart b.buddy := by
  intro f hf hf'
  rw [mem_iff] at hf hf'
  simp only [buddy] at hf'
  rcases Frame.buddy_cases hb with ⟨-, hbuddy⟩ | ⟨-, hbuddy⟩ <;> omega

/-- An aligned extent of a positive order is the parent of its lower half. -/
theorem parent_lowerHalf {h o : Nat} (haligned : 2 ^ (o + 1) ∣ h) :
    (⟨h, o⟩ : Extent).parent = ⟨h, o + 1⟩ := by
  rw [parent, Frame.buddy_of_dvd haligned, Nat.min_eq_left (Nat.le_add_right _ _)]

theorem aligned_lowerHalf {h o : Nat} (haligned : 2 ^ (o + 1) ∣ h) :
    (⟨h, o⟩ : Extent).Aligned :=
  Nat.dvd_trans (Nat.pow_dvd_pow 2 (Nat.le_succ o)) haligned

end Extent

/-! ### Buddies on a platform -/

section Platform

variable {P : Platform} {f g o : Nat}

/-- A frame has an address when its bytes lie below the end of the physical address space. -/
theorem Frame.mul_pageSize_lt_iff : f * P.pageSize < P.physicalLimit ↔ f < P.frameLimit := by
  rw [← P.frameLimit_mul_pageSize, Nat.mul_lt_mul_right P.pageSize_pos]

/-- The frames that have an address are fewer than the words. -/
theorem Platform.frameLimit_lt (P : Platform) : P.frameLimit < Word.limit := by
  refine Nat.lt_of_le_of_lt ?_ P.physicalLimit_lt
  rw [← P.frameLimit_mul_pageSize]
  exact Nat.le_mul_of_pos_right _ P.pageSize_pos

/-- Below the top order, flipping the bit stays within the physical address space. -/
theorem Frame.buddy_lt_frameLimit (hf : f < P.frameLimit) (ho : o < topOrder) :
    Frame.buddy f o < P.frameLimit := by
  have htop := P.topBlock_le
  refine Nat.xor_lt_two_pow hf (Nat.pow_lt_pow_right (by decide) ?_)
  omega

/-- The bytes of a block are a word. -/
theorem Block.bytes_lt (P : Platform) (ho : o ≤ topOrder) : 2 ^ o * P.pageSize < Word.limit := by
  have htop := P.topBlock_le
  have hbits := P.physicalBits_lt
  rw [Platform.pageSize, ← Nat.pow_add]
  exact Nat.pow_lt_pow_right (by decide) (by omega)

theorem Block.size_eq_ok (ho : o ≤ topOrder) : Block.size P o = .ok (2 ^ o * P.pageSize) := by
  have ho' : o < 64 := Nat.lt_of_le_of_lt ho (by decide)
  have hbytes := Block.bytes_lt P ho
  rw [Nat.mul_comm] at hbytes ⊢
  exact Word.shl_eq_ok ho' hbytes

/-- **The buddy of an addressable block** is computed without a fault, by flipping a bit of the
address or of the frame. -/
theorem Block.buddy_eq_ok (hf : f < P.frameLimit) (ho : o < topOrder) :
    Block.buddy P f o = .ok (Frame.buddy f o) := by
  have hstart := Frame.start_of_lt (Frame.mul_pageSize_lt_iff.2 hf)
  have hxor : (f * P.pageSize) ^^^ (2 ^ o * P.pageSize) = Frame.buddy f o * P.pageSize := by
    have h := Nat.shiftLeft_xor_distrib (i := P.pageShift) (a := f) (b := 2 ^ o)
    simp only [Nat.shiftLeft_eq] at h
    exact h.symm
  have hlt := Frame.mul_pageSize_lt_iff.2 (Frame.buddy_lt_frameLimit hf ho)
  have haddress : Block.buddyAddress (P := P) ⟨f * P.pageSize, Frame.mul_pageSize_lt_iff.2 hf⟩ o =
      .ok ⟨Frame.buddy f o * P.pageSize, hlt⟩ := by
    rw [Block.buddyAddress, Block.size_eq_ok (Nat.le_of_lt ho)]
    show PhysicalAddress.ofNat P ((f * P.pageSize) ^^^ (2 ^ o * P.pageSize)) = _
    rw [PhysicalAddress.ofNat_eq_ok_iff, hxor]
  rw [Block.buddy, hstart]
  show (Block.buddyAddress _ o >>= fun b ↦ pure b.frame) = _
  rw [haddress]
  show Except.ok (PhysicalAddress.frame _) = _
  rw [PhysicalAddress.frame, Nat.mul_div_cancel _ P.pageSize_pos]

/-- Only an addressable block has a buddy to compute. -/
theorem Block.lt_frameLimit_of_buddy (h : Block.buddy P f o = .ok g) : f < P.frameLimit := by
  rw [Block.buddy] at h
  cases hstart : Frame.start P f with
  | error fault => rw [hstart] at h; cases h
  | ok a =>
    rw [← Frame.mul_pageSize_lt_iff, Frame.start_eq_ok_iff.1 hstart]
    exact a.value_lt

end Platform

end FramePool
