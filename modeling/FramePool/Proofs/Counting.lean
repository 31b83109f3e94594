import FramePool.Proofs.Tiling
import Mathlib.Data.Finset.Card

/-!
# Counting frames

Blocks that share no frame have as many frames as their lengths add up to (`Tiling.sum_eq_card`).
That is why a pool can count blocks where its callers think of frames, and why the frames of all
blocks together are never more than the usable ones of the table (`Tiling.sum_le_usableCount`).
-/

namespace FramePool

/-! ### The frames of a table -/

namespace FrameTable

variable {t : FrameTable} {f : Nat}

/-- Descriptors are counted by asking about each frame. -/
theorem countP_frames (t : FrameTable) (q : Descriptor → Bool) :
    t.frames.countP q = (List.range t.length).countP fun f ↦ (t.get? f).any q := by
  have hmap : t.frames.toList = (List.range t.length).map fun f ↦ (t.get? f).getD {} := by
    refine List.ext_getElem (by simp [length]) fun f hf _ ↦ ?_
    simp [get?, Array.getElem?_eq_getElem (show f < t.frames.size by simpa using hf)]
  rw [← Array.countP_toList, hmap, List.countP_map]
  refine List.countP_congr fun f hf ↦ ?_
  rw [List.mem_range] at hf
  obtain ⟨d, hd⟩ := Option.isSome_iff_exists.1 (get?_isSome.2 hf)
  rw [Function.comp_apply, hd, Option.getD_some, Option.any_some]

theorem usableCount_eq (t : FrameTable) :
    t.usableCount = (List.range t.length).countP fun f ↦ !t.isReserved f := by
  rw [usableCount, countP_frames]
  refine List.countP_congr fun f hf ↦ ?_
  rw [List.mem_range] at hf
  obtain ⟨d, hd⟩ := Option.isSome_iff_exists.1 (get?_isSome.2 hf)
  rw [isReserved, hd, Option.any_some, Option.any_some]

theorem usableCount_le_length (t : FrameTable) : t.usableCount ≤ t.length := by
  rw [usableCount_eq]
  exact List.countP_le_length.trans_eq List.length_range

/-- The usable frames of a table. -/
def usableFrames (t : FrameTable) : Finset Nat :=
  (Finset.range t.length).filter fun f ↦ t.isReserved f = false

theorem mem_usableFrames : f ∈ t.usableFrames ↔ f < t.length ∧ t.isReserved f = false := by
  rw [usableFrames, Finset.mem_filter, Finset.mem_range]

theorem card_usableFrames (t : FrameTable) : t.usableFrames.card = t.usableCount := by
  have hfilter : t.usableFrames =
      ((List.range t.length).filter fun f ↦ !t.isReserved f).toFinset := by
    ext f
    rw [mem_usableFrames, List.mem_toFinset, List.mem_filter, List.mem_range, Bool.not_eq_true']
  rw [hfilter, List.toFinset_card_of_nodup (List.nodup_range.filter _), usableCount_eq,
    List.countP_eq_length_filter]

end FrameTable

/-! ### The frames of blocks -/

namespace Extent

variable {b : Extent} {bs : List Extent} {f : Nat}

/-- The frames of an extent, in ascending order. -/
def frames (b : Extent) : List Nat := List.range' b.head (2 ^ b.order)

/-- The frames of some extents. -/
def frameSet (bs : List Extent) : Finset Nat := (bs.flatMap frames).toFinset

theorem mem_frames : f ∈ b.frames ↔ f ∈ b := by
  rw [frames, List.mem_range'_1, mem_iff]

theorem mem_frameSet : f ∈ frameSet bs ↔ ∃ b ∈ bs, f ∈ b := by
  simp only [frameSet, List.mem_toFinset, List.mem_flatMap, mem_frames]

theorem length_frames (bs : List Extent) :
    (bs.flatMap frames).length = (bs.map fun b ↦ 2 ^ b.order).sum := by
  simp only [List.length_flatMap, frames, List.length_range']

end Extent

namespace Tiling

open Extent

variable {t : FrameTable} {bs : List Extent}

/-- **The lengths add up**: extents that share no frame have as many frames as they cover. -/
theorem sum_eq_card (h : Tiling t bs) :
    (bs.map fun b ↦ 2 ^ b.order).sum = (frameSet bs).card := by
  have hnodup : (bs.flatMap frames).Nodup := by
    refine List.nodup_flatMap.2 ⟨fun b _ ↦ List.nodup_range', h.pairwise.imp ?_⟩
    intro b c hapart f hb hc
    exact hapart f (mem_frames.1 hb) (mem_frames.1 hc)
  rw [frameSet, List.toFinset_card_of_nodup hnodup, length_frames]

theorem frameSet_subset (h : Tiling t bs) : frameSet bs ⊆ t.usableFrames := fun f hf ↦ by
  obtain ⟨b, hb, hfb⟩ := mem_frameSet.1 hf
  exact FrameTable.mem_usableFrames.2 (h.usable_of_mem hb hfb)

/-- **Extents that share no frame** have no more frames than the table has usable ones. -/
theorem sum_le_usableCount (h : Tiling t bs) :
    (bs.map fun b ↦ 2 ^ b.order).sum ≤ t.usableCount :=
  calc (bs.map fun b ↦ 2 ^ b.order).sum = (frameSet bs).card := h.sum_eq_card
    _ ≤ t.usableFrames.card := Finset.card_le_card h.frameSet_subset
    _ = t.usableCount := t.card_usableFrames

end Tiling

end FramePool
