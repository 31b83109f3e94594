import FramePool.Proofs.Extent
import FramePool.Table

/-!
# Tilings: extents that share no frame

How many extents of a list lie over a frame (`Extent.depth`) is what all statements about disjoint
blocks come down to: extents are pairwise apart exactly when no frame is covered twice
(`pairwise_apart_iff`). Depth does not notice the order of the list, nor whether a block stands
there whole or as its two halves; `Regroup` is the equivalence that these two moves generate. Hence
everything a pool does to its blocks keeps a tiling one (`Regroup.tiling`).
-/

namespace FramePool

namespace Extent

variable {b : Extent} {bs cs : List Extent} {f : Nat}

/-- How many of the extents contain the frame. -/
def depth (bs : List Extent) (f : Nat) : Nat := bs.countP (f ∈ ·)

@[simp] theorem depth_nil (f : Nat) : depth [] f = 0 := rfl

theorem depth_cons (b : Extent) (bs : List Extent) (f : Nat) :
    depth (b :: bs) f = depth bs f + if f ∈ b then 1 else 0 := by
  simp [depth, List.countP_cons]

theorem depth_append (bs cs : List Extent) (f : Nat) :
    depth (bs ++ cs) f = depth bs f + depth cs f :=
  List.countP_append

theorem depth_perm (h : bs.Perm cs) (f : Nat) : depth bs f = depth cs f :=
  h.countP_eq _

theorem depth_pos_iff : 0 < depth bs f ↔ ∃ b ∈ bs, f ∈ b := by
  simp [depth, List.countP_pos_iff]

theorem depth_pos (hb : b ∈ bs) (hf : f ∈ b) : 0 < depth bs f :=
  depth_pos_iff.2 ⟨b, hb, hf⟩

theorem depth_eq_zero_iff : depth bs f = 0 ↔ ∀ b ∈ bs, f ∉ b := by
  simp [depth, List.countP_eq_zero]

/-- Extents share no frame exactly when no frame is covered twice. -/
theorem pairwise_apart_iff : bs.Pairwise Apart ↔ ∀ f, depth bs f ≤ 1 := by
  induction bs with
  | nil => simp
  | cons b bs ih =>
    rw [List.pairwise_cons, ih]
    constructor
    · rintro ⟨hb, hbs⟩ f
      rw [depth_cons]
      split
      · rename_i hf
        have hzero : ¬0 < depth bs f := fun hpos ↦ by
          obtain ⟨c, hc, hfc⟩ := depth_pos_iff.1 hpos
          exact hb c hc f hf hfc
        omega
      · exact hbs f
    · intro h
      refine ⟨fun c hc f hfb hfc ↦ ?_, fun f ↦ ?_⟩
      · have hpos := depth_pos hc hfc
        have hle := h f
        rw [depth_cons, if_pos hfb] at hle
        omega
      · have hle := h f
        rw [depth_cons] at hle
        omega

/-- A parent covers what its two halves cover. -/
theorem depth_parent (hb : b.Aligned) (bs : List Extent) (f : Nat) :
    depth (b.parent :: bs) f = depth (b :: b.buddy :: bs) f := by
  have hapart := apart_buddy hb f
  simp only [depth_cons, mem_parent_iff hb]
  by_cases hf : f ∈ b
  · have hf' := hapart hf
    simp [hf, hf']
  · simp [hf]

end Extent

open Extent

/-- Two lists of extents that differ in order, and in whether blocks stand there whole or as their
two halves. -/
inductive Regroup : List Extent → List Extent → Prop
  | perm {bs cs : List Extent} : bs.Perm cs → Regroup bs cs
  | halve {b : Extent} (bs : List Extent) :
    b.Aligned → Regroup (b.parent :: bs) (b :: b.buddy :: bs)
  | symm {bs cs : List Extent} : Regroup bs cs → Regroup cs bs
  | trans {bs cs ds : List Extent} : Regroup bs cs → Regroup cs ds → Regroup bs ds

namespace Regroup

variable {bs cs : List Extent}

theorem refl (bs : List Extent) : Regroup bs bs := perm (List.Perm.refl bs)

theorem append_right (h : Regroup bs cs) (ds : List Extent) : Regroup (bs ++ ds) (cs ++ ds) := by
  induction h with
  | perm h => exact perm (h.append_right ds)
  | halve bs hb => exact halve (bs ++ ds) hb
  | symm _ ih => exact ih.symm
  | trans _ _ ih ih' => exact ih.trans ih'

theorem append_left (h : Regroup bs cs) (ds : List Extent) : Regroup (ds ++ bs) (ds ++ cs) :=
  (perm List.perm_append_comm).trans ((h.append_right ds).trans (perm List.perm_append_comm))

theorem depth_eq (h : Regroup bs cs) (f : Nat) : depth bs f = depth cs f := by
  induction h with
  | perm h => exact depth_perm h f
  | halve bs hb => exact depth_parent hb bs f
  | symm _ ih => exact ih.symm
  | trans _ _ ih ih' => exact ih.trans ih'

theorem aligned_iff (h : Regroup bs cs) : (∀ b ∈ bs, b.Aligned) ↔ ∀ c ∈ cs, c.Aligned := by
  induction h with
  | perm h => exact ⟨fun hbs c hc ↦ hbs c (h.mem_iff.2 hc), fun hcs b hb ↦ hcs b (h.mem_iff.1 hb)⟩
  | halve bs hb => simp only [List.forall_mem_cons, hb, hb.buddy, hb.parent, true_and]
  | symm _ ih => exact ih.symm
  | trans _ _ ih ih' => exact ih.trans ih'

/-- Regrouping neither uncovers a frame nor covers another. -/
theorem covered_iff (h : Regroup bs cs) (f : Nat) : (∃ b ∈ bs, f ∈ b) ↔ ∃ c ∈ cs, f ∈ c := by
  rw [← depth_pos_iff, ← depth_pos_iff, h.depth_eq]

end Regroup

/-! ### Tilings of a table -/

/-- The extents are blocks of usable frames of the table that share no frame. -/
structure Tiling (t : FrameTable) (bs : List Extent) : Prop where
  /-- Each starts at a multiple of its length. -/
  aligned : ∀ b ∈ bs, b.Aligned
  /-- No frame is covered twice. -/
  depth_le : ∀ f, depth bs f ≤ 1
  /-- What is covered are usable frames of the table. -/
  usable : ∀ f, 0 < depth bs f → f < t.length ∧ t.isReserved f = false

theorem Regroup.tiling {t : FrameTable} {bs cs : List Extent} (h : Regroup bs cs) :
    Tiling t bs ↔ Tiling t cs := by
  have mp : ∀ {bs cs : List Extent}, Regroup bs cs → Tiling t bs → Tiling t cs :=
    fun h ht ↦ ⟨h.aligned_iff.1 ht.aligned, fun f ↦ h.depth_eq f ▸ ht.depth_le f,
      fun f hf ↦ ht.usable f (h.depth_eq f ▸ hf)⟩
  exact ⟨mp h, mp h.symm⟩

namespace Tiling

variable {t t' : FrameTable} {b c : Extent} {bs cs : List Extent} {f : Nat}

theorem nil (t : FrameTable) : Tiling t [] :=
  ⟨fun _ hb ↦ absurd hb List.not_mem_nil, fun _ ↦ Nat.zero_le 1,
    fun _ hf ↦ absurd hf (Nat.lt_irrefl 0)⟩

theorem perm (h : Tiling t bs) (hperm : bs.Perm cs) : Tiling t cs :=
  (Regroup.perm hperm).tiling.1 h

theorem pairwise (h : Tiling t bs) : bs.Pairwise Apart := pairwise_apart_iff.2 h.depth_le

theorem nodup (h : Tiling t bs) : bs.Nodup := by
  refine List.nodup_iff_pairwise_ne.2 (h.pairwise.imp fun hapart heq ↦ ?_)
  subst heq
  exact not_apart_self _ hapart

/-- Leaving extents away keeps a tiling. -/
theorem sublist (h : Tiling t bs) (hsub : cs.Sublist bs) : Tiling t cs where
  aligned b hb := h.aligned b (hsub.subset hb)
  depth_le f := Nat.le_trans (hsub.countP_le) (h.depth_le f)
  usable f hf := h.usable f (Nat.lt_of_lt_of_le hf hsub.countP_le)

/-- A block that lies free of the others joins them. -/
theorem cons (h : Tiling t bs) (hb : b.Aligned) (hfree : ∀ f ∈ b, depth bs f = 0)
    (husable : ∀ f ∈ b, f < t.length ∧ t.isReserved f = false) : Tiling t (b :: bs) where
  aligned := List.forall_mem_cons.2 ⟨hb, h.aligned⟩
  depth_le f := by
    rw [depth_cons]
    split
    · rename_i hf; rw [hfree f hf]
    · exact h.depth_le f
  usable f hf := by
    by_cases hfb : f ∈ b
    · exact husable f hfb
    · rw [depth_cons, if_neg hfb] at hf
      exact h.usable f hf

/-- A frame of a block is covered by that block alone. -/
theorem depth_tail (h : Tiling t (b :: bs)) (hf : f ∈ b) : depth bs f = 0 := by
  have hle := h.depth_le f
  rw [depth_cons, if_pos hf] at hle
  omega

/-- The first block shares no frame with the others. -/
theorem not_mem_tail (h : Tiling t (b :: bs)) (hc : c ∈ bs) (hf : f ∈ b) : f ∉ c := fun hfc ↦ by
  have hpos := depth_pos hc hfc
  rw [h.depth_tail hf] at hpos
  exact Nat.lt_irrefl 0 hpos

/-- No frame lies in a block of the one list and in a block of the other. -/
theorem not_mem_of_append (h : Tiling t (bs ++ cs)) (hb : b ∈ bs) (hf : f ∈ b) (hc : c ∈ cs) :
    f ∉ c := fun hfc ↦ by
  have hle := h.depth_le f
  rw [depth_append] at hle
  have hpos := depth_pos hb hf
  have hpos' := depth_pos hc hfc
  omega

theorem usable_of_mem (h : Tiling t bs) (hb : b ∈ bs) (hf : f ∈ b) :
    f < t.length ∧ t.isReserved f = false :=
  h.usable f (depth_pos hb hf)

/-- A block ends inside the table. -/
theorem le_length (h : Tiling t bs) (hb : b ∈ bs) : b.head + 2 ^ b.order ≤ t.length := by
  have hpos := Nat.two_pow_pos b.order
  have hlast : b.head + 2 ^ b.order - 1 ∈ b := mem_iff.2 (by omega)
  have := (h.usable_of_mem hb hlast).1
  omega

/-- Two blocks that share a frame are the same. -/
theorem eq_of_mem (h : Tiling t bs) (hb : b ∈ bs) (hc : c ∈ bs) (hfb : f ∈ b) (hfc : f ∈ c) :
    b = c := by
  have hperm := List.perm_cons_erase hb
  rcases List.mem_cons.1 (hperm.mem_iff.1 hc) with rfl | hc'
  · rfl
  · exact absurd hfc ((h.perm hperm).not_mem_tail hc' hfb)

end Tiling

end FramePool
