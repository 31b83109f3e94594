import FramePool.Proofs.Tiling
import FramePool.Platform
import Mathlib.Logic.Function.Basic

/-!
# Layouts: free lists as plain sequences

A layout is what is left of a pool when the table is forgotten: for each order the heads of the free
blocks, in the order of their list. Merging and halving blocks are functions of layouts
(`Layout.merge`, `Layout.halve`), and everything that is said about blocks is proved here, where no
descriptor is in the way; that a pool does to its lists what these functions do to its layout is
shown elsewhere.

Both functions only regroup blocks (`regroup_merge`, `regroup_halve`), and both keep a layout
coalesced, that is, without two free buddies (`coalesced_merge`, `coalesced_halve`). A coalesced
layout is as coarse as it can be: **every aligned run of covered frames lies in one block**
(`Coalesced.exists_block`), which is why the covered frames alone determine the blocks
(`Coalesced.mem_iff`).
-/

namespace FramePool

/-- The heads of the free blocks of each order, in the order of their list. -/
abbrev Layout := Nat → List Nat

namespace Layout

variable {L : Layout} {b : Extent} {o f g h k : Nat}

/-- A block put in front of the list of its order. -/
def push (L : Layout) (o f : Nat) : Layout := Function.update L o (f :: L o)

/-- A block taken off the list of its order. -/
def erase (L : Layout) (o f : Nat) : Layout := Function.update L o ((L o).erase f)

/-- The blocks on the lists. -/
def extents (L : Layout) : List Extent :=
  (List.range orderCount).flatMap fun o ↦ (L o).map (⟨·, o⟩)

/-- Only frames of the orders that there are. -/
def Bounded (L : Layout) : Prop := ∀ o, orderCount ≤ o → L o = []

/-- No two blocks of an order below the top one are buddies. -/
def Coalesced (L : Layout) : Prop := ∀ o < topOrder, ∀ f ∈ L o, Frame.buddy f o ∉ L o

/-- Merges the block of order `o` at `h` with its buddy as long as that is a block of the layout, at
most `levels` times. Answers the block that results and the layout it is put on. -/
def merge : (levels o h : Nat) → Layout → Extent × Layout
  | 0, o, h, L => (⟨h, o⟩, L.push o h)
  | levels + 1, o, h, L =>
    if Frame.buddy h o ∈ L o then
      merge levels (o + 1) (min h (Frame.buddy h o)) (L.erase o (Frame.buddy h o))
    else
      (⟨h, o⟩, L.push o h)

/-- Halves the block at `h` from order `o + levels` down to `o`, leaving the upper halves. -/
def halve (h o : Nat) : (levels : Nat) → Layout → Layout
  | 0, L => L
  | levels + 1, L => halve h o levels (L.push (o + levels) (Frame.buddy h (o + levels)))

/-- The layout with a block put back and merged as far as it goes. -/
def putBack (L : Layout) (b : Extent) : Layout :=
  (merge (topOrder - b.order) b.order b.head L).2

/-- The layout without a block, but with the upper halves that are left when it is halved down to
order `o`. -/
def takeOff (L : Layout) (g k o : Nat) : Layout := (L.erase k g).halve g o (k - o)

/-- The block that a request of order `o` gets a part of: the first of those of the smallest order
`k` from `o` up that has any. -/
structure Offers (L : Layout) (o k g : Nat) : Prop where
  /-- The order is sufficient. -/
  le : o ≤ k
  /-- It is an order. -/
  lt : k < orderCount
  /-- The block is the first of its list. -/
  head : (L k).head? = some g
  /-- No smaller sufficient order has a block. -/
  empty : ∀ j, o ≤ j → j < k → L j = []

/-! ### Pushing and erasing -/

@[simp] theorem push_self (L : Layout) (o f : Nat) : L.push o f o = f :: L o :=
  Function.update_self ..

theorem push_of_ne (L : Layout) {o o' : Nat} (f : Nat) (hne : o' ≠ o) : L.push o f o' = L o' :=
  Function.update_of_ne hne ..

@[simp] theorem erase_self (L : Layout) (o f : Nat) : L.erase o f o = (L o).erase f :=
  Function.update_self ..

theorem erase_of_ne (L : Layout) {o o' : Nat} (f : Nat) (hne : o' ≠ o) : L.erase o f o' = L o' :=
  Function.update_of_ne hne ..

theorem mem_push {o' g : Nat} : g ∈ L.push o f o' ↔ (o' = o ∧ g = f) ∨ g ∈ L o' := by
  by_cases ho : o' = o
  · subst ho; simp
  · simp [push_of_ne L f ho, ho]

theorem mem_of_mem_erase {o' g : Nat} (hg : g ∈ L.erase o f o') : g ∈ L o' := by
  by_cases ho : o' = o
  · subst ho
    rw [erase_self] at hg
    exact List.mem_of_mem_erase hg
  · rwa [erase_of_ne L f ho] at hg

theorem mem_extents : b ∈ L.extents ↔ b.order < orderCount ∧ b.head ∈ L b.order := by
  simp only [extents, List.mem_flatMap, List.mem_range, List.mem_map]
  constructor
  · rintro ⟨o, ho, f, hf, rfl⟩
    exact ⟨ho, hf⟩
  · rintro ⟨ho, hf⟩
    exact ⟨b.order, ho, b.head, hf, rfl⟩

/-- If one list has one block more and the others are the same, then so have all together. -/
theorem extents_perm_cons {L' : Layout} (ho : o < orderCount) (hself : (L' o).Perm (f :: L o))
    (hother : ∀ o', o' ≠ o → L' o' = L o') : L'.extents.Perm (⟨f, o⟩ :: L.extents) := by
  have key : ∀ os : List Nat, os.Nodup → o ∈ os →
      (os.flatMap fun o ↦ (L' o).map (Extent.mk · o)).Perm
        (⟨f, o⟩ :: os.flatMap fun o ↦ (L o).map (Extent.mk · o)) := by
    intro os hnodup hmem
    induction os with
    | nil => cases hmem
    | cons a os ih =>
      rw [List.nodup_cons] at hnodup
      rw [List.flatMap_cons, List.flatMap_cons]
      rcases List.mem_cons.1 hmem with rfl | hmem'
      · have hrest : (os.flatMap fun o ↦ (L' o).map (Extent.mk · o)) =
            os.flatMap fun o ↦ (L o).map (Extent.mk · o) := by
          refine List.flatMap_congr fun o' ho' ↦ ?_
          rw [hother o' fun heq ↦ hnodup.1 (heq ▸ ho')]
        rw [hrest]
        exact (hself.map (Extent.mk · o)).append_right _
      · have hne : a ≠ o := fun heq ↦ hnodup.1 (heq ▸ hmem')
        rw [hother a hne]
        exact ((ih hnodup.2 hmem').append_left _).trans List.perm_middle
  exact key _ List.nodup_range (List.mem_range.2 ho)

theorem extents_push (ho : o < orderCount) (f : Nat) :
    (L.push o f).extents.Perm (⟨f, o⟩ :: L.extents) :=
  extents_perm_cons ho (by rw [push_self]) fun _ hne ↦ push_of_ne L f hne

theorem extents_erase (ho : o < orderCount) (hf : f ∈ L o) :
    L.extents.Perm (⟨f, o⟩ :: (L.erase o f).extents) :=
  extents_perm_cons ho (by rw [erase_self]; exact List.perm_cons_erase hf) fun _ hne ↦
    (erase_of_ne L f hne).symm

/-- Erasing undoes pushing. -/
theorem erase_push (L : Layout) (o f : Nat) : (L.push o f).erase o f = L := by
  rw [erase, push_self, List.erase_cons_head, push, Function.update_idem, Function.update_eq_self]

/-- Pushing undoes erasing the first block of a list. -/
theorem push_erase (hf : (L o).head? = some f) : (L.erase o f).push o f = L := by
  obtain ⟨fs, hfs⟩ := List.head?_eq_some_iff.1 hf
  rw [push, erase_self, hfs, List.erase_cons_head, ← hfs, erase, Function.update_idem,
    Function.update_eq_self]

theorem Bounded.erase (hL : L.Bounded) (o f : Nat) : (L.erase o f).Bounded := fun o' ho' ↦ by
  by_cases heq : o' = o
  · subst heq; rw [erase_self, hL o' ho']; rfl
  · rw [erase_of_ne L f heq, hL o' ho']

/-! ### Merging -/

/-- The merged block starts no higher and is no smaller. -/
theorem merge_fst_le (levels o h : Nat) (L : Layout) :
    (merge levels o h L).1.head ≤ h ∧ o ≤ (merge levels o h L).1.order ∧
      (merge levels o h L).1.order ≤ o + levels := by
  induction levels generalizing o h L with
  | zero => exact ⟨Nat.le_refl h, Nat.le_refl o, Nat.le_refl _⟩
  | succ levels ih =>
    rw [merge]
    split
    · have := ih (o + 1) (min h (Frame.buddy h o)) (L.erase o (Frame.buddy h o))
      omega
    · exact ⟨Nat.le_refl h, Nat.le_refl o, Nat.le_add_right ..⟩

/-- The heads afterwards are the merged block's and some of those before. -/
theorem mem_merge {levels o' g : Nat} (hg : g ∈ (merge levels o h L).2 o') :
    (⟨g, o'⟩ : Extent) = (merge levels o h L).1 ∨ g ∈ L o' := by
  induction levels generalizing o h L with
  | zero =>
    rcases mem_push.1 hg with ⟨rfl, rfl⟩ | hg
    · exact Or.inl rfl
    · exact Or.inr hg
  | succ levels ih =>
    rw [merge] at hg ⊢
    split at hg
    · rename_i hbuddy
      rw [if_pos hbuddy]
      exact (ih hg).imp_right mem_of_mem_erase
    · rename_i hbuddy
      rw [if_neg hbuddy]
      rcases mem_push.1 hg with ⟨rfl, rfl⟩ | hg
      · exact Or.inl rfl
      · exact Or.inr hg

/-- **Merging regroups** the block with those of the layout. -/
theorem regroup_merge {levels : Nat} (ho : o + levels ≤ topOrder) (haligned : 2 ^ o ∣ h) :
    Regroup (⟨h, o⟩ :: L.extents) (merge levels o h L).2.extents := by
  induction levels generalizing o h L with
  | zero => exact .perm (extents_push (Nat.lt_succ_of_le ho) h).symm
  | succ levels ih =>
    have ho' : o < orderCount := by unfold topOrder at ho; omega
    rw [merge]
    split
    · rename_i hbuddy
      have hout : Regroup (⟨h, o⟩ :: L.extents)
          (⟨h, o⟩ :: (⟨h, o⟩ : Extent).buddy :: (L.erase o (Frame.buddy h o)).extents) :=
        .perm ((extents_erase ho' hbuddy).cons _)
      refine (hout.trans (Regroup.halve (b := ⟨h, o⟩) _ haligned).symm).trans ?_
      exact ih (o := o + 1) (by omega) (Frame.dvd_min_buddy haligned)
    · exact .perm (extents_push ho' h).symm

/-- **Merging goes on until nothing can be merged.** -/
theorem coalesced_merge {levels : Nat} (hL : L.Coalesced) (ho : o + levels = topOrder) (h : Nat) :
    (merge levels o h L).2.Coalesced := by
  have hpush : ∀ {o h : Nat} {L : Layout}, L.Coalesced →
      (o < topOrder → Frame.buddy h o ∉ L o) → (L.push o h).Coalesced := by
    intro o h L hL hbuddy o' ho' f hf hf'
    rcases mem_push.1 hf with ⟨rfl, rfl⟩ | hold <;> rcases mem_push.1 hf' with ⟨hoo, heq⟩ | hold'
    · exact Frame.buddy_ne _ _ heq
    · exact hbuddy ho' hold'
    · subst hoo
      rw [Frame.buddy_eq_iff] at heq
      exact hbuddy ho' (heq ▸ hold)
    · exact hL o' ho' f hold hold'
  induction levels generalizing o h L with
  | zero => exact hpush hL fun hlt ↦ by omega
  | succ levels ih =>
    rw [merge]
    split
    · refine ih (fun o' ho' f hf hf' ↦ ?_) (by omega) _
      exact hL o' ho' f (mem_of_mem_erase hf) (mem_of_mem_erase hf')
    · rename_i hbuddy
      exact hpush hL fun _ ↦ hbuddy

/-! ### Halving -/

/-- The heads afterwards are those before and the upper halves. -/
theorem mem_halve {levels o' g : Nat} :
    g ∈ halve h o levels L o' ↔
      (∃ j < levels, o' = o + j ∧ g = Frame.buddy h (o + j)) ∨ g ∈ L o' := by
  induction levels generalizing L with
  | zero => simp [halve]
  | succ levels ih =>
    rw [halve, ih, mem_push]
    constructor
    · rintro (⟨j, hj, hg⟩ | ⟨hg⟩ | hg)
      · exact Or.inl ⟨j, by omega, hg⟩
      · exact Or.inl ⟨levels, by omega, hg⟩
      · exact Or.inr hg
    · rintro (⟨j, hj, hg⟩ | hg)
      · rcases Nat.lt_succ_iff_lt_or_eq.1 hj with hj | rfl
        · exact Or.inl ⟨j, hj, hg⟩
        · exact Or.inr (Or.inl hg)
      · exact Or.inr (Or.inr hg)

/-- **Halving regroups** the block into its lowest part and the upper halves. -/
theorem regroup_halve (levels : Nat) (ho : o + levels < orderCount)
    (haligned : 2 ^ (o + levels) ∣ h) :
    Regroup (⟨h, o + levels⟩ :: L.extents) (⟨h, o⟩ :: (halve h o levels L).extents) := by
  induction levels generalizing L with
  | zero => exact .refl _
  | succ levels ih =>
    have hlow := Extent.aligned_lowerHalf (o := o + levels) haligned
    have hpush := extents_push (L := L) (o := o + levels) (by omega)
      (Frame.buddy h (o + levels))
    refine .trans ?_ (ih (L := L.push (o + levels) (Frame.buddy h (o + levels))) (by omega) hlow)
    show Regroup (⟨h, o + levels + 1⟩ :: L.extents) _
    rw [← Extent.parent_lowerHalf (o := o + levels) haligned]
    exact (Regroup.halve _ hlow).trans (.perm (hpush.symm.cons _))

/-- Halving into empty lists leaves no two buddies: each of them gets one block. -/
theorem coalesced_halve {levels : Nat} (hL : L.Coalesced) (hempty : ∀ j < levels, L (o + j) = []) :
    (halve h o levels L).Coalesced := by
  intro o' ho' f hf hf'
  rw [mem_halve] at hf hf'
  rcases hf with ⟨j, hj, rfl, rfl⟩ | hf <;> rcases hf' with ⟨i, hi, heq, hg⟩ | hf'
  · rw [← heq] at hg
    exact Frame.buddy_ne _ _ hg
  · rw [hempty j hj] at hf'
    cases hf'
  · rw [heq, hempty i hi] at hf
    cases hf
  · exact hL o' ho' f hf hf'

/-! ### Taking blocks off and putting them back -/

theorem regroup_takeOff (hk : k < orderCount) (hg : g ∈ L k) (hok : o ≤ k) (haligned : 2 ^ k ∣ g) :
    Regroup L.extents (⟨g, o⟩ :: (L.takeOff g k o).extents) := by
  have hsum : o + (k - o) = k := Nat.add_sub_cancel' hok
  have hhalve := regroup_halve (L := L.erase k g) (h := g) (o := o) (k - o)
    (by rwa [hsum]) (by rwa [hsum])
  rw [hsum] at hhalve
  exact (Regroup.perm (extents_erase hk hg)).trans hhalve

theorem coalesced_takeOff (hL : L.Coalesced) (hempty : ∀ j, o ≤ j → j < k → L j = []) :
    (L.takeOff g k o).Coalesced := by
  refine coalesced_halve (fun o' ho' f hf hb ↦ ?_) fun j hj ↦ ?_
  · exact hL o' ho' f (mem_of_mem_erase hf) (mem_of_mem_erase hb)
  · rw [erase_of_ne L g (by omega), hempty (o + j) (by omega) (by omega)]

/-- The first block that is put anywhere has none to merge with. -/
theorem putBack_nil (b : Extent) : putBack (fun _ ↦ []) b = push (fun _ ↦ []) b.order b.head := by
  rw [putBack]
  cases topOrder - b.order with
  | zero => rfl
  | succ levels => rw [merge, if_neg List.not_mem_nil]

theorem regroup_putBack (L : Layout) (hb : b.Aligned) (ho : b.order ≤ topOrder) :
    Regroup (b :: L.extents) (L.putBack b).extents :=
  regroup_merge (Nat.le_of_eq (Nat.add_sub_cancel' ho)) hb

theorem coalesced_putBack (hL : L.Coalesced) (ho : b.order ≤ topOrder) : (L.putBack b).Coalesced :=
  coalesced_merge hL (Nat.add_sub_cancel' ho) b.head

/-! ### Putting back what was taken off -/

theorem Offers.mem (h : L.Offers o k g) : g ∈ L k := List.mem_of_mem_head? h.head

/-- **Merging undoes halving**: it finds every upper half where halving left it. -/
theorem merge_halve {levels : Nat} (n : Nat) (haligned : 2 ^ (o + levels) ∣ h) (L : Layout) :
    merge (levels + n) o h (halve h o levels L) = merge n (o + levels) h L := by
  induction levels generalizing n L with
  | zero => rw [Nat.zero_add, halve, Nat.add_zero]
  | succ levels ih =>
    have hlow : 2 ^ (o + levels) ∣ h := Extent.aligned_lowerHalf (o := o + levels) haligned
    have hmin : min h (Frame.buddy h (o + levels)) = h := by
      rw [Frame.buddy_of_dvd (o := o + levels) haligned, Nat.min_eq_left (Nat.le_add_right _ _)]
    have hmem : Frame.buddy h (o + levels) ∈
        L.push (o + levels) (Frame.buddy h (o + levels)) (o + levels) := by
      rw [push_self]
      exact List.mem_cons_self
    calc merge (levels + 1 + n) o h (halve h o (levels + 1) L)
        = merge (levels + (n + 1)) o h
            (halve h o levels (L.push (o + levels) (Frame.buddy h (o + levels)))) := by
          rw [halve, Nat.add_right_comm, Nat.add_assoc]
      _ = merge (n + 1) (o + levels) h (L.push (o + levels) (Frame.buddy h (o + levels))) :=
          ih (n + 1) hlow _
      _ = merge n (o + (levels + 1)) h L := by
          rw [merge, if_pos hmem, hmin, erase_push, Nat.add_assoc]

/-- **Round trip.** The part of a block that was taken off merges, when it is put back, with all
that was left of the block and with nothing else, as the whole block had no buddy before. -/
theorem Coalesced.putBack_takeOff (hL : L.Coalesced) (h : L.Offers o k g) (haligned : 2 ^ k ∣ g) :
    (L.takeOff g k o).putBack ⟨g, o⟩ = L := by
  have hsum : o + (k - o) = k := Nat.add_sub_cancel' h.le
  have hktop : k ≤ topOrder := Nat.le_of_lt_succ h.lt
  have hlevels : topOrder - o = (k - o) + (topOrder - k) := by
    have := h.le
    omega
  have hstop : merge (topOrder - k) k g (L.erase k g) = (⟨g, k⟩, (L.erase k g).push k g) := by
    rcases Nat.eq_or_lt_of_le hktop with rfl | hlt
    · rw [Nat.sub_self, merge]
    · obtain ⟨n, hn⟩ := Nat.exists_eq_succ_of_ne_zero (Nat.sub_pos_of_lt hlt).ne'
      have hbuddy : Frame.buddy g k ∉ L.erase k g k := fun hmem ↦
        hL k hlt g h.mem (mem_of_mem_erase hmem)
      rw [hn, merge, if_neg hbuddy]
  have hmerge := merge_halve (o := o) (topOrder - k) (hsum.symm ▸ haligned) (L.erase k g)
  rw [hsum, hstop] at hmerge
  rw [putBack, takeOff, hlevels, hmerge, push_erase h.head]

/-! ### Coalesced layouts -/

/-- **Maximality.** In a coalesced layout whose blocks share no frame, an aligned run of covered
frames lies in one block. The induction is on the order of the run: its halves lie in one block
each, and two blocks that are just the halves would be buddies. -/
theorem Coalesced.exists_block {t : FrameTable} (hL : L.Coalesced) (ht : Tiling t L.extents)
    (hb : b.Aligned) (ho : b.order ≤ topOrder) (hcover : ∀ f ∈ b, 0 < Extent.depth L.extents f) :
    ∃ c ∈ L.extents, b.order ≤ c.order ∧ ∀ f ∈ b, f ∈ c := by
  obtain ⟨head, order⟩ := b
  induction order generalizing head with
  | zero =>
    obtain ⟨c, hc, hmem⟩ := Extent.depth_pos_iff.1 (hcover head (Extent.head_mem ⟨head, 0⟩))
    refine ⟨c, hc, Nat.zero_le _, fun f hf ↦ ?_⟩
    rw [Extent.mem_iff] at hf
    simp only [Nat.pow_zero] at hf
    rwa [show f = head by omega]
  | succ o ih =>
    have hlow : (⟨head, o⟩ : Extent).Aligned := Extent.aligned_lowerHalf hb
    have hparent := Extent.parent_lowerHalf (h := head) (o := o) hb
    have hhalves : ∀ f, f ∈ (⟨head, o + 1⟩ : Extent) ↔
        f ∈ (⟨head, o⟩ : Extent) ∨ f ∈ (⟨head, o⟩ : Extent).buddy := fun f ↦ by
      rw [← hparent]; exact Extent.mem_parent_iff hlow
    have ho' : o ≤ topOrder := Nat.le_of_succ_le ho
    obtain ⟨c, hc, hco, hcsub⟩ := ih head hlow ho' fun f hf ↦ hcover f ((hhalves f).2 (Or.inl hf))
    obtain ⟨d, hd, hdo, hdsub⟩ := ih (Frame.buddy head o) hlow.buddy ho'
      fun f hf ↦ hcover f ((hhalves f).2 (Or.inr hf))
    -- A block of a larger order that meets the run contains all of it.
    have hlarge : ∀ e ∈ L.extents, o + 1 ≤ e.order → ∀ f, f ∈ (⟨head, o + 1⟩ : Extent) → f ∈ e →
        ∃ c ∈ L.extents, o + 1 ≤ c.order ∧ ∀ f ∈ (⟨head, o + 1⟩ : Extent), f ∈ c :=
      fun e he heo f hfb hfe ↦
        ⟨e, he, heo, fun g hg ↦ Extent.mem_of_mem hb (ht.aligned e he) heo hfb hfe hg⟩
    have hhead := Extent.head_mem ⟨head, o⟩
    have hhead' := Extent.head_mem (⟨head, o⟩ : Extent).buddy
    rcases Nat.lt_or_ge o c.order with hlt | hge
    · exact hlarge c hc hlt _ ((hhalves _).2 (Or.inl hhead)) (hcsub _ hhead)
    rcases Nat.lt_or_ge o d.order with hlt | hge'
    · exact hlarge d hd hlt _ ((hhalves _).2 (Or.inr hhead')) (hdsub _ hhead')
    · have hceq : (⟨head, o⟩ : Extent) = c :=
        Extent.eq_of_mem hlow (ht.aligned c hc) (Nat.le_antisymm hco hge) hhead (hcsub _ hhead)
      have hdeq : (⟨head, o⟩ : Extent).buddy = d :=
        Extent.eq_of_mem hlow.buddy (ht.aligned d hd) (Nat.le_antisymm hdo hge') hhead'
          (hdsub _ hhead')
      subst hceq hdeq
      exact absurd (mem_extents.1 hd).2 (hL o ho head (mem_extents.1 hc).2)

/-- **The covered frames determine the blocks**: the blocks are the aligned runs of covered frames
that are of the top order or whose parent is not covered. -/
theorem Coalesced.mem_iff {t : FrameTable} (hL : L.Coalesced) (ht : Tiling t L.extents)
    (hb : b.Aligned) (ho : b.order ≤ topOrder) :
    b ∈ L.extents ↔ (∀ f ∈ b, 0 < Extent.depth L.extents f) ∧
      (b.order < topOrder → ¬∀ f ∈ b.parent, 0 < Extent.depth L.extents f) := by
  constructor
  · intro hmem
    refine ⟨fun f hf ↦ Extent.depth_pos hmem hf, fun hlt hparent ↦ ?_⟩
    obtain ⟨c, hc, hco, hcsub⟩ := hL.exists_block ht hb.parent hlt hparent
    have hhead := hcsub b.head ((Extent.mem_parent_iff hb).2 (Or.inl b.head_mem))
    have heq := ht.eq_of_mem hmem hc b.head_mem hhead
    rw [← heq, Extent.parent_order] at hco
    omega
  · rintro ⟨hcover, hmax⟩
    obtain ⟨c, hc, hco, hcsub⟩ := hL.exists_block ht hb ho hcover
    rcases Nat.eq_or_lt_of_le hco with heq | hlt
    · rwa [Extent.eq_of_mem hb (ht.aligned c hc) heq b.head_mem (hcsub _ b.head_mem)]
    · have hctop : c.order ≤ topOrder := Nat.le_of_lt_succ (mem_extents.1 hc).1
      refine absurd (fun f hf ↦ Extent.depth_pos hc ?_) (hmax (by omega))
      exact Extent.mem_of_mem hb.parent (ht.aligned c hc) hlt
        ((Extent.mem_parent_iff hb).2 (Or.inl b.head_mem)) (hcsub _ b.head_mem) hf

end Layout

end FramePool
