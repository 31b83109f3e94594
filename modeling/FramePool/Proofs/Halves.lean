import FramePool.Proofs.Extent

/-!
# The two halves of a block

A block finds its buddy through its address: the address of its first byte, with the bit flipped
that the size of the block sets, is an address again, and belongs to some frame. Each of these steps
may fault. Below the top order the second one cannot, since the bit is one of those that an address
has; so what decides is whether the block has an address at all (`Block.buddy_eq_error`).

On frames the same bit is flipped, that of the length of the block (`Frame.testBit_buddy`). Of a
block and its buddy just the lower one is aligned to the next order (`Frame.dvd_min_buddy`,
`Frame.not_dvd_max_buddy`), for they are one length apart. So **buddies are the two halves of one
block** (`Block.buddy_halves`).
-/

namespace FramePool

variable {P : Platform} {f o : Nat}

/-! ### Frames -/

/-- Whether a frame can head a block is answered for every order whose length is a word. -/
theorem Frame.isAligned_eq_ok (f : Frame) (ho : o < 64) :
    Frame.isAligned f o = .ok (decide (2 ^ o ∣ f)) := by
  have hlt : 1 * 2 ^ o < Word.limit := by
    rw [Nat.one_mul]
    exact Nat.pow_lt_pow_right (by decide) ho
  rw [Frame.isAligned, Word.shl_eq_ok ho hlt, Nat.one_mul, Except.map, Except.ok.injEq,
    Bool.eq_iff_iff, beq_iff_eq, decide_eq_true_iff, Nat.dvd_iff_mod_eq_zero]

/-- **One bit is flipped**, and no other one. -/
theorem Frame.testBit_buddy (f o i : Nat) :
    (Frame.buddy f o).testBit i = (f.testBit i ^^ decide (i = o)) := by
  rw [Frame.buddy, Nat.testBit_xor, Nat.testBit_two_pow, decide_eq_decide.2 eq_comm]

/-- Of two buddies, the upper one starts no larger block. -/
theorem Frame.not_dvd_max_buddy (h : 2 ^ o ∣ f) : ¬2 ^ (o + 1) ∣ max f (Frame.buddy f o) := by
  intro hmax
  have hlower := Frame.dvd_min_buddy h
  have hapart : max f (Frame.buddy f o) = min f (Frame.buddy f o) + 2 ^ o := by
    rcases Frame.buddy_cases h with ⟨hmin, hbuddy⟩ | ⟨hmin, hbuddy⟩ <;> omega
  rw [hapart, Nat.dvd_add_right hlower] at hmax
  have hle : 2 ^ (o + 1) ≤ 2 ^ o := Nat.le_of_dvd (Nat.two_pow_pos o) hmax
  exact Nat.not_le.2 (Nat.pow_lt_pow_right (by decide) (Nat.lt_succ_self o)) hle

/-! ### Blocks of a platform -/

/-- What is wrong with a frame that has no address: the address is no word, or it is too wide. -/
theorem Frame.start_eq_error (h : P.physicalLimit ≤ f * P.pageSize) :
    Frame.start P f =
      .error (if f * P.pageSize < Word.limit then .physicalTooWide else .mulOverflow) := by
  rw [Frame.start, Word.mul]
  split
  · exact PhysicalAddress.ofNat_of_le h
  · rfl

/-- **Beyond the last address** no buddy is found, whatever the order. -/
theorem Block.buddy_eq_error (h : P.physicalLimit ≤ f * P.pageSize) (o : Nat) :
    Block.buddy P f o =
      .error (if f * P.pageSize < Word.limit then .physicalTooWide else .mulOverflow) := by
  rw [Block.buddy, Frame.start_eq_error h]
  rfl

/-- The blocks of order `o` headed by `f` and by `g` are the two halves of a block. -/
structure Block.Halves (P : Platform) (o : Nat) (f g : Frame) : Prop where
  /-- The head of the other half has the same bits, except for bit `o`. -/
  flipped : ∀ i, g.testBit i = (f.testBit i ^^ decide (i = o))
  /-- It is another frame. -/
  ne : g ≠ f
  /-- It can head a block of the order. -/
  aligned : Frame.isAligned g o = .ok true
  /-- It has an address. -/
  addressable : g * P.pageSize < P.physicalLimit
  /-- Its buddy is the head of this half. -/
  back : Block.buddy P g o = .ok f
  /-- The lower of the two can head a block of the next order. -/
  lower : Frame.isAligned (min f g) (o + 1) = .ok true
  /-- The upper one cannot. -/
  upper : Frame.isAligned (max f g) (o + 1) = .ok false
  /-- The halves share no frame. -/
  apart : (⟨f, o⟩ : Extent).Apart ⟨g, o⟩
  /-- Together they have the frames of the block of the next order that the lower one heads. -/
  whole : ∀ i, i ∈ (⟨min f g, o + 1⟩ : Extent) ↔ i ∈ (⟨f, o⟩ : Extent) ∨ i ∈ (⟨g, o⟩ : Extent)

/-- Flipping the bit gives the other half. -/
theorem Block.halves_buddy (ho : o < topOrder) (haligned : 2 ^ o ∣ f) (hf : f < P.frameLimit) :
    Block.Halves P o f (Frame.buddy f o) := by
  have hword : o + 1 < 64 := Nat.lt_of_le_of_lt ho (by decide)
  have hlimit := Frame.buddy_lt_frameLimit hf ho
  have haligned' : (⟨f, o⟩ : Extent).Aligned := haligned
  refine ⟨Frame.testBit_buddy f o, Frame.buddy_ne f o, ?_, Frame.mul_pageSize_lt_iff.2 hlimit, ?_,
    ?_, ?_, Extent.apart_buddy haligned', fun i ↦ Extent.mem_parent_iff haligned'⟩
  · rw [Frame.isAligned_eq_ok _ (Nat.lt_of_succ_lt hword), decide_eq_true (Frame.dvd_buddy haligned)]
  · rw [Block.buddy_eq_ok hlimit ho, Frame.buddy_buddy]
  · rw [Frame.isAligned_eq_ok _ hword, decide_eq_true (Frame.dvd_min_buddy haligned)]
  · rw [Frame.isAligned_eq_ok _ hword, decide_eq_false (Frame.not_dvd_max_buddy haligned)]

/-- **Buddies are the two halves of one block.** On every platform, let a frame be aligned to an
order below the top one, and let it have an address. Then its buddy is found without a fault: it is
another frame, with the one bit flipped, it is aligned and has an address again, and its own buddy is
the first frame. The lower of the two is aligned to the next order and the upper one is not; the two
blocks share no frame, and together they are the block of the next order at the lower one. For a
frame without an address no buddy is found, of any order: the product with the page size is no word,
or it is too wide for an address. -/
theorem Block.buddy_halves (P : Platform) (f o : Nat) :
    (o < topOrder → Frame.isAligned f o = .ok true → f * P.pageSize < P.physicalLimit →
      ∃ g, Block.buddy P f o = .ok g ∧ Block.Halves P o f g) ∧
    (P.physicalLimit ≤ f * P.pageSize → Block.buddy P f o =
      .error (if f * P.pageSize < Word.limit then .physicalTooWide else .mulOverflow)) := by
  refine ⟨fun ho haligned hf ↦ ?_, fun hf ↦ Block.buddy_eq_error hf o⟩
  have hword : o < 64 := Nat.lt_trans ho (by decide)
  rw [Frame.isAligned_eq_ok f hword, Except.ok.injEq, decide_eq_true_iff] at haligned
  rw [Frame.mul_pageSize_lt_iff] at hf
  exact ⟨Frame.buddy f o, Block.buddy_eq_ok hf ho, Block.halves_buddy ho haligned hf⟩

/-- On the larger platform the last block of order 8 is an upper half, and the frame behind it has no
address. -/
theorem Block.buddy_halves_last :
    Frame.isAligned (2 ^ 36 - 256) 8 = .ok true ∧
      Block.Halves .x86_64 8 (2 ^ 36 - 256) (2 ^ 36 - 512) ∧
      Block.buddy .x86_64 (2 ^ 36) 8 = .error .physicalTooWide := by
  have haligned : Frame.isAligned (2 ^ 36 - 256) 8 = .ok true := rfl
  have hbuddy : Block.buddy .x86_64 (2 ^ 36 - 256) 8 = .ok (2 ^ 36 - 512) := rfl
  obtain ⟨g, hg, hhalves⟩ :=
    (Block.buddy_halves .x86_64 (2 ^ 36 - 256) 8).1 (by decide) haligned (by decide)
  obtain rfl : g = 2 ^ 36 - 512 := Except.ok.inj (hg.symm.trans hbuddy)
  exact ⟨haligned, hhalves, (Block.buddy_halves .x86_64 (2 ^ 36) 8).2 (by decide)⟩

end FramePool
