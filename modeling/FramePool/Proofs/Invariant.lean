import FramePool.Proofs.Coalesce
import FramePool.Proofs.Ledger

/-!
# The invariant of a pool and its ledger

`Sound` is what holds between operations: the lists are those of a coalesced layout, the free blocks
and those of the ledger tile a part of the usable frames, the books are kept, and each block that
might have a buddy has an address. In the middle of an operation a block is in hand, on no list and
in no ledger; `Held` is the invariant with a block in hand.

An operation is a sequence of moves, each of them a theorem here. A block comes into hand when it is
taken off the lists (`Sound.exists_take`), reclaimed from the ledger (`Sound.reclaim`) or picked up
from frames that belonged to no block (`Sound.pickUp`). It leaves when it is handed out
(`Held.lend`) or put back, merged with its buddies (`Held.putBack`). What a move does to the covered
frames is a `Regroup`.
-/

namespace FramePool

/-- An order that there is and, where there may be a buddy, an address from which to compute it. -/
def Extent.Addressable (P : Platform) (b : Extent) : Prop :=
  b.order ≤ topOrder ∧ (b.order < topOrder → b.head < P.frameLimit)

namespace FrameTable

variable {t t' : FrameTable}

/-- A table in which no frame heads a block: all that it says is which frames are reserved. -/
def Fresh (t : FrameTable) : Prop := ∀ f d, t.get? f = some d → d = { reserved := d.reserved }

/-- The same frames, and the same of them reserved. -/
structure Alike (t t' : FrameTable) : Prop where
  length_eq : t'.length = t.length
  isReserved_eq : ∀ f, t'.isReserved f = t.isReserved f

theorem Alike.refl (t : FrameTable) : t.Alike t := ⟨rfl, fun _ ↦ rfl⟩

theorem Alike.trans {t'' : FrameTable} (h : t.Alike t') (h' : t'.Alike t'') : t.Alike t'' :=
  ⟨h'.length_eq.trans h.length_eq, fun f ↦ (h'.isReserved_eq f).trans (h.isReserved_eq f)⟩

theorem Relabelled.alike {S : Nat → Prop} (h : t.Relabelled S t') : t.Alike t' :=
  ⟨h.length_eq, h.isReserved_eq⟩

/-- A write that leaves the reserved flag alone. -/
theorem alike_update {u : Descriptor → Descriptor} (hu : ∀ d, (u d).reserved = d.reserved)
    (t : FrameTable) (f : Nat) : t.Alike (t.update f u) := by
  refine ⟨length_update .., fun g ↦ ?_⟩
  rw [isReserved, isReserved, get?_update]
  split
  · cases t.get? g <;> simp [hu]
  · rfl

end FrameTable

namespace Layout

variable {P : Platform} {L : Layout} {b c : Extent} {g k o : Nat}

/-- The upper halves of a block with an address have addresses. -/
theorem addressable_takeOff (hL : ∀ c ∈ L.extents, c.Addressable P) (hg : o < k → g < P.frameLimit)
    (hc : c ∈ (L.takeOff g k o).extents) : c.Addressable P := by
  obtain ⟨hco, hmem⟩ := mem_extents.1 hc
  rcases mem_halve.1 hmem with ⟨j, hj, hcj, hch⟩ | hmem
  · refine ⟨Nat.le_of_lt_succ hco, fun hlt ↦ ?_⟩
    rw [hch]
    exact Frame.buddy_lt_frameLimit (hg (by omega)) (hcj ▸ hlt)
  · exact hL c (mem_extents.2 ⟨hco, mem_of_mem_erase hmem⟩)

/-- The merged block starts no higher than the one that is put back, so it has an address too. -/
theorem addressable_putBack (hL : ∀ c ∈ L.extents, c.Addressable P) (hb : b.Addressable P)
    (hc : c ∈ (L.putBack b).extents) : c.Addressable P := by
  obtain ⟨hco, hmem⟩ := mem_extents.1 hc
  rcases mem_merge hmem with hcb | hmem
  · refine ⟨Nat.le_of_lt_succ hco, fun hlt ↦ ?_⟩
    obtain ⟨hhead, horder, -⟩ := merge_fst_le (topOrder - b.order) b.order b.head L
    have hc : c = (merge (topOrder - b.order) b.order b.head L).1 := hcb
    rw [← hc] at hhead horder
    exact Nat.lt_of_le_of_lt hhead (hb.2 (Nat.lt_of_le_of_lt horder hlt))
  · exact hL c (mem_extents.2 ⟨hco, hmem⟩)

end Layout

namespace Pool

open FrameTable Loan

/-- **The invariant** of a pool that was built over the table `t`, its layout and its ledger. -/
structure Sound (P : Platform) (t : FrameTable) (p : Pool) (L : Layout) (ledger : List Loan) :
    Prop where
  /-- The table has the frames that it had. -/
  alike : t.Alike p.table
  /-- The lists are those of the layout. -/
  threads : p.Threads L
  /-- No two free blocks are buddies. -/
  coalesced : L.Coalesced
  /-- Free blocks and those handed out share no frame and consist of usable frames. -/
  tiling : Tiling t (L.extents ++ extents ledger)
  /-- The descriptors agree with the ledger. -/
  books : Books p.table ledger
  /-- The buddy of each block can be computed. -/
  addressable : ∀ b ∈ L.extents ++ extents ledger, b.Addressable P
  /-- The counter is that of the table. -/
  total : p.total = t.usableCount

/-- **The invariant with a block in hand.** -/
structure Held (P : Platform) (t : FrameTable) (p : Pool) (L : Layout) (ledger : List Loan)
    (b : Extent) : Prop extends Sound P t p L ledger where
  /-- The block shares no frame with the others. -/
  apart : Tiling t (b :: (L.extents ++ extents ledger))
  /-- Its order is noted. -/
  label : p.Labels b.head b.order

variable {P : Platform} {t : FrameTable} {p p' : Pool} {L L' : Layout} {ledger : List Loan}
  {b : Extent} {f g k o : Nat}

/-- The free blocks share no frame. -/
theorem Sound.tiling_free (hs : Sound P t p L ledger) : Tiling t L.extents :=
  hs.tiling.sublist (List.sublist_append_left _ _)

/-- The blocks that were handed out share no frame. -/
theorem Sound.tiling_lent (hs : Sound P t p L ledger) : Tiling t (extents ledger) :=
  hs.tiling.sublist (List.sublist_append_right _ _)

/-- No frame of a block that lies apart from the others is on a list or heads a block that was
handed out. -/
theorem loose_of_tiling (hL : L.Bounded) (hbooks : Books p.table ledger) (halike : t.Alike p.table)
    (ht : Tiling t (b :: (L.extents ++ extents ledger))) (hf : f ∈ b) : p.Loose L f := by
  have hzero : ∀ c ∈ L.extents ++ extents ledger, f ∉ c := fun c hc ↦ ht.not_mem_tail hc hf
  refine ⟨fun o hmem ↦ ?_, ?_⟩
  · refine hzero ⟨f, o⟩ (List.mem_append_left _ (Layout.mem_extents.2 ⟨?_, hmem⟩))
      (Extent.head_mem _)
    refine Nat.lt_of_not_le fun hle ↦ ?_
    rw [hL o hle] at hmem
    cases hmem
  · have hlt : f < p.table.length :=
      halike.length_eq ▸ (ht.usable_of_mem List.mem_cons_self hf).1
    obtain ⟨d, hd⟩ := Option.isSome_iff_exists.1 (get?_isSome.2 hlt)
    refine ⟨d, hd, (hbooks.idle f d hd fun l hl heq ↦ ?_).1⟩
    exact hzero _ (List.mem_append_right _ (mem_extents hl)) (heq ▸ Extent.head_mem _)

/-- A frame of a block is a usable frame of the table. -/
theorem Sound.usable_of_mem (hs : Sound P t p L ledger) (hb : b ∈ L.extents ++ extents ledger)
    (hf : f ∈ b) : f < p.table.length ∧ p.table.isReserved f = false := by
  rw [hs.alike.length_eq, hs.alike.isReserved_eq]
  exact hs.tiling.usable_of_mem hb hf

/-- No block that was handed out is on a list. -/
theorem Sound.unlisted {l : Loan} (hs : Sound P t p L ledger) (hl : l ∈ ledger) (o : Nat) :
    l.head ∉ L o := fun hmem ↦ by
  have hblock : (⟨l.head, o⟩ : Extent) ∈ L.extents :=
    Layout.mem_extents.2 ⟨hs.threads.lt_orderCount hmem, hmem⟩
  have hle := hs.tiling.depth_le l.head
  rw [Extent.depth_append] at hle
  have hpos : 0 < Extent.depth L.extents l.head := Extent.depth_pos hblock (Extent.head_mem _)
  have hpos' := Extent.depth_pos (mem_extents hl) l.head_mem
  omega

theorem Held.loose (h : Held P t p L ledger b) (hf : f ∈ b) : p.Loose L f :=
  loose_of_tiling h.threads.bounded h.books h.alike h.apart hf

/-! ### Fresh pools -/

/-- Nothing is handed over to a pool over a fresh table. -/
theorem sound_ofTable (P : Platform) (ht : t.Fresh) :
    Sound P t (ofTable t) (fun _ ↦ []) [] where
  alike := Alike.refl t
  threads := by
    refine ⟨fun o ho ↦ ?_, fun _ _ ↦ rfl, fun o f hf ↦ absurd hf List.not_mem_nil,
      fun f d hd hfree ↦ ?_, fun f d hd _ ↦ ?_⟩
    · have hlist : (ofTable t).list o = {} := by
        rw [list_eq_getElem ho]
        exact Vector.getElem_replicate ho
      rw [hlist]
      exact FreeList.represents_nil t
    · rw [ht f d hd] at hfree
      cases hfree
    · rw [ht f d hd]
      exact ⟨rfl, rfl⟩
  coalesced := fun _ _ _ hf ↦ absurd hf List.not_mem_nil
  tiling := Tiling.nil t
  books := by
    refine ⟨fun l hl ↦ absurd hl List.not_mem_nil, fun f d hd _ ↦ ?_⟩
    rw [ht f d hd]
    exact ⟨rfl, rfl⟩
  addressable := fun b hb ↦ absurd hb List.not_mem_nil
  total := rfl

/-! ### A block comes into hand -/

/-- The block that is offered is a block. -/
theorem Sound.dvd_of_offers (hs : Sound P t p L ledger) (h : L.Offers o k g) : 2 ^ k ∣ g :=
  hs.tiling.aligned ⟨g, k⟩ (List.mem_append_left _ (Layout.mem_extents.2 ⟨h.lt, h.mem⟩))

theorem Sound.regroup_takeOff (hs : Sound P t p L ledger) (h : L.Offers o k g) :
    Regroup L.extents (⟨g, o⟩ :: (L.takeOff g k o).extents) :=
  Layout.regroup_takeOff h.lt h.mem h.le (hs.dvd_of_offers h)

/-- The block that is offered shares no frame with the others. -/
theorem Sound.tiling_of_offers (hs : Sound P t p L ledger) (h : L.Offers o k g) :
    Tiling t (⟨g, k⟩ :: ((L.erase k g).extents ++ extents ledger)) :=
  hs.tiling.perm ((Layout.extents_erase h.lt h.mem).append_right _)

/-- **Taking** the block that is offered off the lists succeeds, unless it has to be halved and has
no address. -/
theorem Sound.exists_take (hs : Sound P t p L ledger) (h : L.Offers o k g)
    (haddr : o < k → g < P.frameLimit) :
    ∃ p', (Pool.take P p o).result = .ok (some g, p') ∧
      Held P t p' (L.takeOff g k o) ledger ⟨g, o⟩ ∧ (⟨g, o⟩ : Extent).Addressable P := by
  have hblock : (⟨g, k⟩ : Extent) ∈ L.extents := Layout.mem_extents.2 ⟨h.lt, h.mem⟩
  -- The block that is found stands first; what is in hand afterwards is its lowest part.
  have ht := hs.tiling_of_offers h
  obtain ⟨p', htake, hp', htotal, hlabel, hre⟩ :=
    hs.threads.take (P := P) h (hs.dvd_of_offers h)
      (fun f hf ↦ loose_of_tiling (hs.threads.bounded.erase k g) hs.books hs.alike ht hf) haddr
  obtain ⟨hfreeAddr, hlentAddr⟩ := List.forall_mem_append.1 hs.addressable
  have hapart := ((hs.regroup_takeOff h).append_right _).tiling.1 hs.tiling
  refine ⟨p', htake, ⟨⟨hs.alike.trans hre.alike, hp',
    Layout.coalesced_takeOff hs.coalesced h.empty, hapart.sublist (List.sublist_cons_self _ _),
    hs.books.relabelled hre fun l hl ↦ head_not_mem ht hl,
    List.forall_mem_append.2 ⟨fun c ↦ Layout.addressable_takeOff hfreeAddr haddr, hlentAddr⟩,
    htotal.trans hs.total⟩, hapart, hlabel⟩, Nat.le_trans h.le (Nat.le_of_lt_succ h.lt),
    fun ho ↦ ?_⟩
  rcases Nat.eq_or_lt_of_le h.le with rfl | hok
  · exact (hfreeAddr _ hblock).2 ho
  · exact haddr hok

/-- What was taken off the lists is the lowest part of the block that was offered. -/
theorem Sound.of_take_eq_ok (hs : Sound P t p L ledger)
    (h : (Pool.take P p o).result = .ok (some f, p')) :
    ∃ k, L.Offers o k f ∧ Held P t p' (L.takeOff f k o) ledger ⟨f, o⟩ ∧
      (⟨f, o⟩ : Extent).Addressable P := by
  cases hfit : p.firstFit o with
  | none =>
    rw [take_of_firstFit_eq_none hfit] at h
    cases h
  | some k =>
    obtain ⟨g, hoffers⟩ := hs.threads.exists_offers hfit
    obtain ⟨p'', htake, hheld⟩ := hs.exists_take hoffers fun hok ↦
      hs.threads.lt_frameLimit_of_take hoffers hok h
    rw [h, Except.ok.injEq, Prod.mk.injEq, Option.some.injEq] at htake
    obtain ⟨rfl, rfl⟩ := htake
    exact ⟨k, hoffers, hheld⟩

/-- A block that was handed out stands among the others. -/
theorem Sound.perm_settle {l : Loan} (hs : Sound P t p L ledger) (hl : l ∈ ledger) :
    (L.extents ++ extents ledger).Perm
      (l.toExtent :: (L.extents ++ extents (settle l.head ledger))) :=
  ((extents_settle hs.tiling_lent hl).append_left _).trans List.perm_middle

/-- **Reclaiming** a block without references from the ledger. -/
theorem Sound.reclaim {l : Loan} (hs : Sound P t p L ledger) (hl : l ∈ ledger)
    (hrefs : l.refs = 0) :
    Held P t { p with table := p.table.update l.head fun d ↦ { d with allocated := false } } L
      (settle l.head ledger) l.toExtent := by
  have hout := hs.perm_settle hl
  have ht := hs.tiling.perm hout
  refine ⟨⟨hs.alike.trans (alike_update (fun _ ↦ by rfl) ..),
    hs.threads.write (fun _ ↦ ⟨rfl, rfl, rfl⟩) fun o hmem ↦ absurd hmem (hs.unlisted hl o),
    hs.coalesced, ht.sublist (List.sublist_cons_self _ _), hs.books.settle hl hrefs, fun c hc ↦ ?_,
    hs.total⟩, ht, ?_⟩
  · exact hs.addressable c (hout.mem_iff.2 (List.mem_cons_of_mem _ hc))
  · obtain ⟨d, hd, -, ho, -⟩ := hs.books.lent l hl
    rw [Labels, get?_update_self, hd]
    exact congrArg some ho

/-- **Picking up** a block of usable frames that belong to no block. -/
theorem Sound.pickUp (hs : Sound P t p L ledger) (hb : b.Aligned)
    (hfree : ∀ f ∈ b, Extent.depth (L.extents ++ extents ledger) f = 0)
    (husable : ∀ f ∈ b, f < t.length ∧ t.isReserved f = false) :
    Held P t { p with table := p.table.update b.head fun d ↦ { d with order := b.order } } L ledger
      b := by
  have ht := hs.tiling.cons hb hfree husable
  have hloose := loose_of_tiling hs.threads.bounded hs.books hs.alike ht b.head_mem
  have hre := relabelled_update p.table b.head b.order
  refine ⟨⟨hs.alike.trans hre.alike,
    hs.threads.write (fun _ ↦ ⟨rfl, rfl, rfl⟩) fun o hmem ↦ absurd hmem (hloose.unlisted o),
    hs.coalesced, hs.tiling, hs.books.relabelled hre fun l hl heq ↦ ?_, hs.addressable, hs.total⟩,
    ht, ?_⟩
  · exact head_not_mem ht hl (heq ▸ b.head_mem)
  · obtain ⟨d, hd, -⟩ := hloose.unallocated
    rw [Labels, get?_update_self, hd]
    rfl

/-! ### A block leaves -/

/-- **Handing out** the block in hand. -/
theorem Held.lend (h : Held P t p L ledger b) (hb : b.Addressable P) :
    Sound P t { p with table := p.table.update b.head fun d ↦ { d with allocated := true } } L
      (⟨b, 0⟩ :: ledger) := by
  have hloose := h.loose b.head_mem
  refine ⟨h.alike.trans (alike_update (fun _ ↦ by rfl) ..),
    h.threads.write (fun _ ↦ ⟨rfl, rfl, rfl⟩) fun o hmem ↦ absurd hmem (hloose.unlisted o),
    h.coalesced, h.apart.perm List.perm_middle.symm, ?_, ?_, h.total⟩
  · obtain ⟨d, hd, -⟩ := hloose.unallocated
    have ho : d.order = b.order := by
      have hlabel := h.label
      rwa [Labels, hd, Option.map_some, Option.some.injEq] at hlabel
    have hbooks := h.books.lend hd fun l hl heq ↦ head_not_mem h.apart hl (heq ▸ b.head_mem)
    rwa [ho] at hbooks
  · intro c hc
    rcases List.mem_cons.1 (List.perm_middle.mem_iff.1 hc) with rfl | hc
    · exact hb
    · exact h.addressable c hc

/-- **Putting back** the block in hand, which has an address, succeeds. -/
theorem Held.putBack (h : Held P t p L ledger b) (hb : b.Addressable P) :
    ∃ f o p', (Pool.merge P p b.head).result = .ok (f, o, p') ∧
      Sound P t p' (L.putBack b) ledger := by
  have haligned := h.apart.aligned b List.mem_cons_self
  obtain ⟨f, o, p', hmerge, hp', htotal, hre⟩ :=
    h.threads.merge (h.loose b.head_mem) h.label hb.1 hb.2
  obtain ⟨hfreeAddr, hlentAddr⟩ := List.forall_mem_append.1 h.addressable
  have hregroup := Layout.regroup_putBack L haligned hb.1
  refine ⟨f, o, p', hmerge, h.alike.trans hre.alike, hp',
    Layout.coalesced_putBack h.coalesced hb.1, (hregroup.append_right _).tiling.1 h.apart,
    h.books.relabelled hre ?_,
    List.forall_mem_append.2 ⟨fun c ↦ Layout.addressable_putBack hfreeAddr hb, hlentAddr⟩,
    htotal.trans h.total⟩
  rintro l hl (heq | ⟨o, hmem⟩)
  · exact head_not_mem h.apart hl (heq ▸ b.head_mem)
  · exact h.unlisted hl o hmem

/-- A block that was put back has an address. -/
theorem Held.addressable_of_merge {r : Frame × Nat × Pool} (h : Held P t p L ledger b)
    (ho : b.order ≤ topOrder) (h' : (Pool.merge P p b.head).result = .ok r) : b.Addressable P :=
  ⟨ho, lt_frameLimit_of_merge h.label h'⟩

/-! ### References -/

/-- **Counting references** moves no block. -/
theorem Sound.recount {l : Loan} (hs : Sound P t p L ledger) (hl : l ∈ ledger) (u : Nat → Nat) :
    Sound P t { p with table := p.table.update l.head fun d ↦ { d with refs := u l.refs } } L
      (recount l.head u ledger) := by
  refine ⟨hs.alike.trans (alike_update (fun _ ↦ by rfl) ..),
    hs.threads.write (fun _ ↦ ⟨rfl, rfl, rfl⟩) fun _ _ _ ↦ ⟨rfl, rfl⟩, hs.coalesced, ?_,
    hs.books.recount hl u, ?_, hs.total⟩
  · rw [extents_recount]
    exact hs.tiling
  · rw [extents_recount]
    exact hs.addressable

end Pool

end FramePool
