import FramePool.Proofs.Layout

/-!
# Maximal blocks

The blocks of a coalesced layout are the largest ones that fit into the frames that they cover,
whatever order they came in (`Layout.Coalesced.mem_iff_maximal`). So a block that is put back into
the layout ends up in the largest block that contains it and has otherwise covered frames only. This
is its hull (`Extent.Hull`, `Layout.Coalesced.hull`), and there is one hull at most
(`Extent.Hull.unique`).
-/

namespace FramePool

variable {t : FrameTable} {L : Layout} {b c B : Extent} {S : Nat → Prop}

namespace Extent

/-- A block that consists of frames of a kind: aligned, and of an order that there is. -/
structure Fits (S : Nat → Prop) (b : Extent) : Prop where
  /-- There is such an order. -/
  order_le : b.order ≤ topOrder
  /-- A multiple of the length heads it. -/
  aligned : b.Aligned
  /-- Each of its frames is of the kind. -/
  frames : ∀ f ∈ b, S f

/-- A block of frames of a kind that is inside no larger one. -/
structure Maximal (S : Nat → Prop) (b : Extent) : Prop extends Fits S b where
  /-- A block of such frames that contains it is no larger. -/
  largest : ∀ c : Extent, c.Fits S → (∀ f ∈ b, f ∈ c) → c.order ≤ b.order

/-- The largest block that contains `b` and whose other frames are of a kind. -/
structure Hull (S : Nat → Prop) (b B : Extent) : Prop extends Fits (fun f ↦ f ∈ b ∨ S f) B where
  /-- It contains the block. -/
  contains : ∀ f ∈ b, f ∈ B
  /-- No other such block is larger. -/
  largest : ∀ c : Extent, c.Fits (fun f ↦ f ∈ b ∨ S f) → (∀ f ∈ b, f ∈ c) → c.order ≤ B.order

/-- A block has one hull at most. -/
theorem Hull.unique (h : b.Hull S B) (h' : b.Hull S c) : c = B := by
  have horder : c.order = B.order :=
    Nat.le_antisymm (h.largest c h'.toFits h'.contains) (h'.largest B h.toFits h.contains)
  exact eq_of_mem h'.aligned h.aligned horder (h'.contains _ b.head_mem) (h.contains _ b.head_mem)

end Extent

namespace Layout

/-- **Free blocks are maximal**: the blocks of a coalesced layout are the maximal blocks of covered
frames. -/
theorem Coalesced.mem_iff_maximal (hL : L.Coalesced) (ht : Tiling t L.extents)
    (hS : ∀ f, S f ↔ ∃ b ∈ L.extents, f ∈ b) : b ∈ L.extents ↔ b.Maximal S := by
  have hcover : ∀ c : Extent, c.Fits S → ∃ d ∈ L.extents, c.order ≤ d.order ∧ ∀ f ∈ c, f ∈ d :=
    fun c hc ↦ hL.exists_block ht hc.aligned hc.order_le fun f hf ↦
      Extent.depth_pos_iff.2 ((hS f).1 (hc.frames f hf))
  have hfits : ∀ c ∈ L.extents, c.Fits S := fun c hc ↦
    ⟨Nat.le_of_lt_succ (mem_extents.1 hc).1, ht.aligned c hc, fun f hf ↦ (hS f).2 ⟨c, hc, hf⟩⟩
  constructor
  · intro hb
    refine ⟨hfits b hb, fun c hc hbc ↦ ?_⟩
    obtain ⟨d, hd, hle, hcd⟩ := hcover c hc
    rwa [ht.eq_of_mem hb hd b.head_mem (hcd _ (hbc _ b.head_mem))]
  · intro hb
    obtain ⟨d, hd, hle, hbd⟩ := hcover b hb.toFits
    have horder : b.order = d.order := Nat.le_antisymm hle (hb.largest d (hfits d hd) hbd)
    rwa [Extent.eq_of_mem hb.aligned (ht.aligned d hd) horder b.head_mem (hbd _ b.head_mem)]

/-- **The hull of a block** that became covered is the block of the layout that contains it. -/
theorem Coalesced.hull (hL : L.Coalesced) (ht : Tiling t L.extents)
    (hS : ∀ f, f ∈ b ∨ S f ↔ ∃ c ∈ L.extents, f ∈ c) (hB : B ∈ L.extents)
    (hcontains : ∀ f ∈ b, f ∈ B) : b.Hull S B := by
  have hmax : B.Maximal fun f ↦ f ∈ b ∨ S f := (hL.mem_iff_maximal ht hS).1 hB
  refine ⟨hmax.toFits, hcontains, fun c hc hbc ↦ ?_⟩
  -- Of the two blocks around `b` one contains the other.
  rcases Nat.le_total c.order B.order with hle | hle
  · exact hle
  · refine hmax.largest c hc fun f hf ↦ ?_
    exact Extent.mem_of_mem hmax.aligned hc.aligned hle (hcontains _ b.head_mem)
      (hbc _ b.head_mem) hf

end Layout

end FramePool
