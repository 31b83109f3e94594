import FramePool.Proofs.Events
import FramePool.Proofs.Maximal
import FramePool.Proofs.Run

/-!
# What giving a block back changes

A block that comes back climbs: as long as its buddy is a free block of the same order, the buddy is
taken off its list, and what results is put in front of the last list. The blocks that it is on its
way are the blocks around its head, order by order (`Extent.around`), so the whole of the loop is
known from the order that it ends with (`Layout.Merges`, `Layout.exists_merges`).

That order is the one of the largest block that the freed block completes: what is left is
coalesced, and so the block that results is the hull of the freed one (`Layout.Coalesced.hull`).

Descriptors outside the hull keep all but their links. Their free flags say whether they are on a
list, and none of them was put on one or taken off; their orders are those of their lists, or were
not written (`Pool.Threads.unchained_eq`). A frame that is in no free block afterwards was on no
list before either, so its descriptor is the same, links and all (`Pool.Held.get?_of_merge`). With
that, `Reachable.free_post` says what a pool is left as.
-/

namespace FramePool

/-! ### The blocks around a frame -/

namespace Extent

variable {b : Extent} {f g o k : Nat}

/-- The aligned extent of an order that contains a frame. -/
def around (f o : Nat) : Extent := ⟨f / 2 ^ o * 2 ^ o, o⟩

theorem aligned_around (f o : Nat) : (around f o).Aligned := Nat.dvd_mul_left _ _

theorem mem_around (f o : Nat) : f ∈ around f o := by
  rw [mem_iff_div (aligned_around f o)]
  exact (Nat.mul_div_cancel _ (Nat.two_pow_pos o)).symm

/-- There is no other one. -/
theorem Aligned.eq_around (hb : b.Aligned) (hf : f ∈ b) : b = around f b.order :=
  eq_of_mem hb (aligned_around f b.order) rfl hf (mem_around f b.order)

/-- The parent of the extent of an order is that of the next order. -/
theorem parent_around (f o : Nat) : (around f o).parent = around f (o + 1) :=
  (aligned_around f o).parent.eq_around
    ((mem_parent_iff (aligned_around f o)).2 (Or.inl (mem_around f o)))

/-- The extents around a frame ascend. -/
theorem mem_around_of_le (hok : o ≤ k) (hg : g ∈ around f o) : g ∈ around f k :=
  mem_of_mem (aligned_around f o) (aligned_around f k) hok (mem_around f o) (mem_around f k) hg

/-- The buddy of the extent of an order lies in that of a larger one. -/
theorem buddy_head_mem_around (hok : o < k) : (around f o).buddy.head ∈ around f k := by
  have hparent : (around f o).buddy.head ∈ (around f o).parent :=
    (mem_parent_iff (aligned_around f o)).2 (Or.inr (head_mem _))
  rw [parent_around] at hparent
  exact mem_around_of_le hok hparent

end Extent

/-! ### The lists -/

namespace Layout

variable {L L' : Layout} {b : Extent} {f g j k o : Nat}

/-- What is left of a layout when the block of order `o` around a frame climbs up to order `k`. -/
structure Merges (L L' : Layout) (f o k : Nat) : Prop where
  /-- It does not descend. -/
  le : o ≤ k
  /-- The buddy of each order on the way was a block, and it is taken off its list. -/
  buddies : ∀ j, o ≤ j → j < k → (Extent.around f j).buddy.head ∈ L j ∧
    L' j = (L j).erase (Extent.around f j).buddy.head
  /-- The block that results stands in front. -/
  front : L' k = (Extent.around f k).head :: L k
  /-- The other lists stay. -/
  others : ∀ j, j < o ∨ k < j → L' j = L j

/-- Without a free buddy the block itself is put in front. -/
theorem merges_push (L : Layout) (f o : Nat) :
    L.Merges (L.push o (Extent.around f o).head) f o o where
  le := Nat.le_refl o
  buddies j hoj hjo := absurd hjo (Nat.not_lt.2 hoj)
  front := push_self ..
  others j hj := push_of_ne _ _ (by omega)

/-- One order more on the way. -/
theorem Merges.cons (hbuddy : (Extent.around f o).buddy.head ∈ L o)
    (h : (L.erase o (Extent.around f o).buddy.head).Merges L' f (o + 1) k) :
    L.Merges L' f o k := by
  have hok : o < k := h.le
  refine ⟨Nat.le_of_lt hok, fun j hoj hjk ↦ ?_, ?_, fun j hj ↦ ?_⟩
  · rcases Nat.eq_or_lt_of_le hoj with rfl | hlt
    · rw [h.others o (Or.inl (Nat.lt_succ_self o)), erase_self]
      exact ⟨hbuddy, rfl⟩
    · have hrest := h.buddies j hlt hjk
      rwa [erase_of_ne _ _ (by omega)] at hrest
  · rw [h.front, erase_of_ne _ _ (by omega)]
  · rw [h.others j (by omega), erase_of_ne _ _ (by omega)]

/-- **The loop** climbs from order to order; the induction is on the levels that are left. -/
theorem exists_merges (levels f o : Nat) (L : Layout) :
    ∃ k, (merge levels o (Extent.around f o).head L).1 = Extent.around f k ∧
      L.Merges (merge levels o (Extent.around f o).head L).2 f o k := by
  induction levels generalizing o L with
  | zero => exact ⟨o, rfl, merges_push L f o⟩
  | succ levels ih =>
    have hparent : min (Extent.around f o).head (Frame.buddy (Extent.around f o).head o) =
        (Extent.around f (o + 1)).head := congrArg Extent.head (Extent.parent_around f o)
    rw [merge]
    split
    · rename_i hbuddy
      obtain ⟨k, hblock, hmerges⟩ := ih (o + 1) (L.erase o (Extent.around f o).buddy.head)
      rw [hparent]
      exact ⟨k, hblock, hmerges.cons hbuddy⟩
    · exact ⟨o, rfl, merges_push L f o⟩

/-- **Putting back** a block. -/
theorem exists_merges_putBack (L : Layout) (hb : b.Aligned) :
    ∃ k, L.Merges (L.putBack b) b.head b.order k := by
  have hhead : b.head = (Extent.around b.head b.order).head :=
    congrArg Extent.head (hb.eq_around b.head_mem)
  obtain ⟨k, -, hmerges⟩ := exists_merges (topOrder - b.order) b.head b.order L
  rw [← hhead] at hmerges
  exact ⟨k, hmerges⟩

/-- A frame outside the block that results is on the lists that it was on. -/
theorem Merges.mem_iff (h : L.Merges L' f o k) (hg : g ∉ Extent.around f k) (j : Nat) :
    g ∈ L' j ↔ g ∈ L j := by
  rcases Nat.lt_trichotomy j k with hjk | rfl | hkj
  · rcases Nat.lt_or_ge j o with hjo | hoj
    · rw [h.others j (Or.inl hjo)]
    · have hne : g ≠ (Extent.around f j).buddy.head := fun heq ↦
        hg (heq ▸ Extent.buddy_head_mem_around hjk)
      rw [(h.buddies j hoj hjk).2, List.mem_erase_of_ne hne]
  · have hne : g ≠ (Extent.around f j).head := fun heq ↦ hg (heq ▸ Extent.head_mem _)
    rw [h.front, List.mem_cons, or_iff_right hne]
  · rw [h.others j (Or.inr hkj)]

end Layout

/-! ### The descriptors -/

/-- The descriptor without its links. -/
def Descriptor.unchained (d : Descriptor) : Descriptor := { d with prev := none, next := none }

/-- Descriptors with the same links that are otherwise the same. -/
theorem Descriptor.eq_of_unchained {d d' : Descriptor} (h : d'.unchained = d.unchained)
    (hprev : d'.prev = d.prev) (hnext : d'.next = d.next) : d' = d :=
  calc d' = { d'.unchained with prev := d'.prev, next := d'.next } := rfl
    _ = { d.unchained with prev := d.prev, next := d.next } := by rw [h, hprev, hnext]
    _ = d := rfl

namespace Pool

open FrameTable Loan

variable {C : Config} {P : Platform} {t : FrameTable} {p p' : Pool} {L L' : Layout}
  {ledger : List Loan} {b : Extent} {l : Loan} {f g h k o : Nat}

/-- **A frame that stays where it was**, on a list or on none, keeps all of its descriptor but the
links. -/
theorem Threads.unchained_eq (hp : p.Threads L) (hp' : p'.Threads L')
    (hre : p.table.Relabelled (fun f ↦ f = h ∨ ∃ o, f ∈ L o) p'.table) (hne : f ≠ h)
    (hmem : ∀ j, f ∈ L' j ↔ f ∈ L j) :
    (p'.table.get? f).map Descriptor.unchained = (p.table.get? f).map Descriptor.unchained := by
  rcases hd : p.table.get? f with - | d
  · have hnone := hre.stripped f
    rw [hd] at hnone
    rw [Option.map_eq_none_iff.1 hnone]
  · obtain ⟨d', hd', hreserved, halloc, hrefs, horder⟩ := hre.get? hd
    have hfree : d'.free = d.free := by
      have hiff : d'.free = false ↔ d.free = false := by
        rw [hp'.free_eq_false_iff hd', hp.free_eq_false_iff hd]
        simp only [hmem]
      exact Bool.eq_iff_iff.2 (by simpa using not_congr hiff)
    have hlabel : d'.order = d.order := by
      by_cases hlisted : ∃ j, f ∈ L j
      · obtain ⟨j, hj⟩ := hlisted
        exact (hp'.labelled j f ((hmem j).2 hj) d' hd').1.trans (hp.labelled j f hj d hd).1.symm
      · exact horder fun hS ↦ hS.elim hne hlisted
    rw [hd', Option.map_some, Option.map_some, Descriptor.unchained, Descriptor.unchained, hfree,
      hreserved, halloc, hlabel, hrefs]

/-- **Putting back** the block in hand: the pool afterwards, and what may have been written. -/
theorem Held.of_merge (hs : Held P t p L ledger b) (ho : b.order ≤ topOrder)
    (hmerge : (Pool.merge P p b.head).result = .ok (g, o, p')) :
    Sound P t p' (L.putBack b) ledger ∧
      p.table.Relabelled (fun f ↦ f = b.head ∨ ∃ o, f ∈ L o) p'.table := by
  have haddr := hs.addressable_of_merge ho hmerge
  obtain ⟨_, _, p₁, hmerge₁, hs'⟩ := hs.putBack haddr
  obtain ⟨_, _, p₂, hmerge₂, -, -, hre⟩ :=
    hs.threads.merge (hs.loose b.head_mem) hs.label ho haddr.2
  rw [hmerge, Except.ok.injEq, Prod.mk.injEq, Prod.mk.injEq] at hmerge₁ hmerge₂
  obtain ⟨-, -, rfl⟩ := hmerge₁
  obtain ⟨-, -, rfl⟩ := hmerge₂
  exact ⟨hs', hre⟩

/-- Outside the block that results, merging changes links at most. -/
theorem Held.unchained_of_merge (hs : Held P t p L ledger b) (ho : b.order ≤ topOrder)
    (hmerge : (Pool.merge P p b.head).result = .ok (g, o, p'))
    (hmerges : L.Merges (L.putBack b) b.head b.order k) (hf : f ∉ Extent.around b.head k) :
    (p'.table.get? f).map Descriptor.unchained = (p.table.get? f).map Descriptor.unchained := by
  obtain ⟨hs', hre⟩ := hs.of_merge ho hmerge
  have hne : f ≠ b.head := fun heq ↦ hf (heq ▸ Extent.mem_around _ _)
  exact hs.threads.unchained_eq hs'.threads hre hne (hmerges.mem_iff hf)

/-- The block that results is a block of the layout. -/
theorem Sound.around_mem_extents (hs' : Sound P t p' L' ledger) (hmerges : L.Merges L' f o k) :
    Extent.around f k ∈ L'.extents := by
  have hmem : (Extent.around f k).head ∈ L' k := hmerges.front ▸ List.mem_cons_self
  exact Layout.mem_extents.2 ⟨hs'.threads.lt_orderCount hmem, hmem⟩

/-- A frame of no block is on no list. -/
theorem Threads.not_mem_of_uncovered (hp : p.Threads L) (hf : ¬∃ c ∈ L.extents, f ∈ c) (o : Nat) :
    f ∉ L o := fun hmem ↦
  hf ⟨⟨f, o⟩, Layout.mem_extents.2 ⟨hp.lt_orderCount hmem, hmem⟩, Extent.head_mem _⟩

/-- **A frame that is in no free block afterwards** has the descriptor that it had. -/
theorem Held.get?_of_merge (hs : Held P t p L ledger b) (ho : b.order ≤ topOrder)
    (hmerge : (Pool.merge P p b.head).result = .ok (g, o, p'))
    (hf : ¬∃ c ∈ (L.putBack b).extents, f ∈ c) : p'.table.get? f = p.table.get? f := by
  have hs' := (hs.of_merge ho hmerge).1
  have haligned : b.Aligned := hs.apart.aligned b List.mem_cons_self
  obtain ⟨k, hmerges⟩ := L.exists_merges_putBack haligned
  have hout : f ∉ Extent.around b.head k := fun hmem ↦
    hf ⟨_, hs'.around_mem_extents hmerges, hmem⟩
  have hunlisted' := hs'.threads.not_mem_of_uncovered hf
  have hunlisted : ∀ j, f ∉ L j := fun j hj ↦ hunlisted' j ((hmerges.mem_iff hout j).2 hj)
  have hunchained := hs.unchained_of_merge ho hmerge hmerges hout
  rcases hd : p.table.get? f with - | d
  · rw [hd] at hunchained
    exact Option.map_eq_none_iff.1 hunchained
  · rw [hd, Option.map_some, Option.map_eq_some_iff] at hunchained
    obtain ⟨d', hd', hsame⟩ := hunchained
    -- On no list before and after, the frame has no links to change.
    obtain ⟨hprev, hnext⟩ :=
      hs.threads.unlinked f d hd ((hs.threads.free_eq_false_iff hd).2 hunlisted)
    obtain ⟨hprev', hnext'⟩ :=
      hs'.threads.unlinked f d' hd' ((hs'.threads.free_eq_false_iff hd').2 hunlisted')
    rw [hd', Descriptor.eq_of_unchained hsame (hprev'.trans hprev.symm) (hnext'.trans hnext.symm)]

/-! ### Giving a block back -/

/-- **What is left** of a pool when the block `b` is given back and merged up to the block `B`. -/
structure GivenBack (p p' : Pool) (b B : Extent) : Prop where
  /-- The lists are sequences as before. -/
  represents : ∀ j < orderCount, (p'.list j).Represents p'.table (p'.layout j)
  /-- The merged block stands in front of the list of its order. -/
  front : p'.layout B.order = B.head :: p.layout B.order
  /-- The list of each order that was passed lost one member, the buddy of the block of that order
  around the head. -/
  buddies : ∀ j, b.order ≤ j → j < B.order →
    (Extent.around b.head j).buddy.head ∈ p.layout j ∧
      p'.layout j = (p.layout j).erase (Extent.around b.head j).buddy.head
  /-- The other lists are the same. -/
  others : ∀ j, j < b.order ∨ B.order < j → p'.layout j = p.layout j
  /-- The head is flagged free, has the order of the merged block, and comes before what was first
  on the list. -/
  head : p'.table.get? B.head =
    some { free := true, order := B.order, next := (p.layout B.order).head? }
  /-- Outside the merged block no descriptor changes, but for its links. -/
  outside : ∀ f, f ∉ B →
    (p'.table.get? f).map Descriptor.unchained = (p.table.get? f).map Descriptor.unchained
  /-- The counter stays. -/
  total : p'.total = p.total

/-- The descriptor of the first block of a list. -/
theorem Sound.get?_first {fs : List Nat} (hs : Sound P t p L ledger) (hfs : L k = g :: fs) :
    p.table.get? g = some { free := true, order := k, next := fs.head? } := by
  have hg : g ∈ L k := hfs ▸ List.mem_cons_self
  have hk := hs.threads.lt_orderCount hg
  have hlinked := (hs.threads.represents k hk).linked
  rw [hfs] at hlinked
  obtain ⟨d, hd, hfree, hprev, hnext⟩ := hlinked.1
  obtain ⟨horder, halloc⟩ := hs.threads.labelled k g hg d hd
  have hrefs := (hs.books.idle g d hd fun l hl heq ↦ hs.unlisted hl k (heq ▸ hg)).2
  have hblock : (⟨g, k⟩ : Extent) ∈ L.extents := Layout.mem_extents.2 ⟨hk, hg⟩
  have hres := (hs.usable_of_mem (List.mem_append_left _ hblock) (Extent.head_mem _)).2
  rw [isReserved, hd, Option.any_some] at hres
  rw [hd, Option.some.injEq]
  calc d = ⟨d.free, d.reserved, d.allocated, d.order, d.refs, d.prev, d.next⟩ := rfl
    _ = { free := true, order := k, next := fs.head? } := by
      rw [hfree, hres, halloc, horder, hrefs, hprev, hnext]

/-- **A block that is given back** becomes part of its hull among the free frames, and the blocks
that are still out keep the descriptors of all their frames. -/
theorem Sound.givenBack (hs : Sound C.platform t p L ledger) (hl : l ∈ ledger) (hrefs : l.refs = 0)
    (h : (Pool.free C p ⟨l.head⟩).result = .ok p') :
    ∃ B, l.toExtent.Hull (fun f ↦ ∃ b ∈ L.extents, f ∈ b) B ∧ p.GivenBack p' l.toExtent B ∧
      ∀ c ∈ extents ledger, c ≠ l.toExtent → ∀ f ∈ c, p'.table.get? f = p.table.get? f := by
  obtain ⟨_, -, -, -, -, g, o, hmerge, -⟩ := free_eq_ok_iff.1 h
  have hblock := List.mem_append_right L.extents (mem_extents hl)
  have haligned := hs.tiling.aligned _ hblock
  have ho := (hs.addressable _ hblock).1
  have hheld := hs.reclaim hl hrefs
  have hs' := (hheld.of_merge ho hmerge).1
  obtain ⟨k, hmerges⟩ := L.exists_merges_putBack haligned
  have hmem := hs'.around_mem_extents hmerges
  have hlayout' := hs'.threads.layout_eq
  obtain rfl : p.layout = L := hs.threads.layout_eq
  -- The write that clears the flag goes to the head, which no other block contains.
  have hwrite : ∀ f, f ≠ l.head → (p.table.update l.head fun d ↦
      { d with allocated := false }).get? f = p.table.get? f := fun f hne ↦
    get?_update_of_ne _ _ hne.symm
  refine ⟨Extent.around l.head k, ?_, ⟨fun j hj ↦ hlayout' ▸ hs'.threads.represents j hj, ?_,
    fun j hoj hjk ↦ ?_, fun j hj ↦ ?_, hs'.get?_first hmerges.front, fun f hf ↦ ?_,
    hs'.total.trans hs.total.symm⟩, fun c hc hne f hf ↦ ?_⟩
  · refine hs'.coalesced.hull hs'.tiling_free (fun f ↦ (hs.covered_putBack_iff hl f).symm) hmem
      fun f hf ↦ ?_
    rw [haligned.eq_around l.head_mem] at hf
    exact Extent.mem_around_of_le hmerges.le hf
  · show p'.layout k = (Extent.around l.head k).head :: p.layout k
    rw [hlayout', hmerges.front]
  · rw [hlayout']
    exact hmerges.buddies j hoj hjk
  · rw [hlayout', hmerges.others j hj]
  · have hne : f ≠ l.head := fun heq ↦ hf (heq ▸ Extent.mem_around _ _)
    rw [hheld.unchained_of_merge ho hmerge hmerges hf, hwrite f hne]
  · have hapart := (hs.tiling.perm (hs.perm_settle hl))
    have hcmem : c ∈ extents (settle l.head ledger) :=
      (List.mem_cons.1 ((extents_settle hs.tiling_lent hl).mem_iff.1 hc)).resolve_left hne
    have hfne : f ≠ l.head := fun heq ↦
      hapart.not_mem_tail (List.mem_append_right _ hcmem) l.head_mem (heq ▸ hf)
    rw [hheld.get?_of_merge ho hmerge, hwrite f hfne]
    rintro ⟨d, hd, hfd⟩
    exact hs'.tiling.not_mem_of_append hd hfd hcmem hf

end Pool

/-- **After a block is given back.** In every reachable state let an outstanding block without
references be given back, and let this end without a fault. Then the largest block that contains it
and has otherwise only free frames is one free block, in front of the list of its order. The list of
each order that was passed has lost just the buddy, the other lists are the same sequences, outside
the merged block no more than links has changed, and nothing at all in the blocks that are still
outstanding. -/
theorem Reachable.free_post {C : Config} {t : FrameTable} {s : State} {l : Loan}
    (hs : Reachable C t s) (hl : l ∈ s.ledger) (hrefs : l.refs = 0) :
    ∃ B, (∀ c, l.toExtent.Hull s.Free c ↔ c = B) ∧ ∀ tracing m,
      ((s.machine.free C ⟨l.head⟩).run C.platform tracing).2 = .ok m →
        s.machine.pool.GivenBack m.pool l.toExtent B ∧ m.directMap = s.machine.directMap ∧
          ∀ b ∈ s.outstanding, b ≠ l.toExtent →
            ∀ f ∈ b, m.pool.table.get? f = s.machine.pool.table.get? f := by
  have hsound : Pool.Sound C.platform t s.machine.pool s.machine.pool.layout s.ledger := hs.sound
  obtain ⟨p, hfree, -⟩ := hsound.free hl hrefs
  obtain ⟨B, hhull, hgiven, hout⟩ := hsound.givenBack hl hrefs hfree
  refine ⟨B, fun c ↦ ⟨hhull.unique, fun heq ↦ heq ▸ hhull⟩, fun tracing m hrun ↦ ?_⟩
  obtain ⟨p', hfree', rfl⟩ := Machine.onPool_eq_ok_iff.1 (Traced.run_eq_ok_iff.1 hrun).1
  obtain rfl : p' = p := Except.ok.inj (hfree'.symm.trans hfree)
  exact ⟨hgiven, rfl, hout⟩

/-- A page is given back whose buddy is free. The next block up is not: it is still outstanding. -/
theorem Reachable.free_post_replayed :
    ∃ s m, Reachable ⟨.scaled, true⟩ (.ofCount 8) s ∧ s.ledger = [⟨⟨2, 1⟩, 0⟩, ⟨⟨0, 0⟩, 0⟩] ∧
      ((s.machine.free ⟨.scaled, true⟩ ⟨0⟩).run .scaled false).2 = .ok m ∧
      (⟨0, 0⟩ : Extent).Hull s.Free ⟨0, 1⟩ ∧ m.pool.layout 1 = 0 :: s.machine.pool.layout 1 ∧
      m.pool.layout 0 = (s.machine.pool.layout 0).erase 1 ∧
      m.pool.table.get? 3 = s.machine.pool.table.get? 3 := by
  obtain ⟨s, hs, hx⟩ := exists_reachable_of_replay (C := ⟨.scaled, true⟩)
    (f := fun s ↦ (s.ledger, (s.machine.free ⟨.scaled, true⟩ ⟨0⟩).result.map
      fun m ↦ m.pool.layout.extents))
    (x := ([⟨⟨2, 1⟩, 0⟩, ⟨⟨0, 0⟩, 0⟩], .ok [⟨0, 1⟩, ⟨4, 2⟩])) (.ofCount 8) none
    [.release 0 8, .allocOrder 0 {}, .allocOrder 1 {}] (by decide +kernel)
  obtain ⟨hledger, hanswer⟩ := Prod.mk.inj hx
  obtain ⟨m, hfree, hblocks⟩ := map_eq_ok_iff.1 hanswer
  have hl : (⟨⟨0, 0⟩, 0⟩ : Loan) ∈ s.ledger := by rw [hledger]; decide
  obtain ⟨B, hhull, hpost⟩ := Reachable.free_post hs hl rfl
  obtain ⟨hgiven, -, hout⟩ := hpost false m hfree
  have hB := (hhull B).2 rfl
  have hmem : B ∈ m.pool.layout.extents := Layout.mem_extents.2
    ⟨Nat.lt_succ_of_le hB.order_le, hgiven.front ▸ List.mem_cons_self⟩
  have hzero : 0 ∈ B := hB.contains 0 (by decide)
  obtain rfl : B = ⟨0, 1⟩ := by
    rw [hblocks] at hmem
    rcases List.mem_pair.1 hmem with rfl | rfl
    · rfl
    · exact absurd hzero (by decide)
  refine ⟨s, m, hs, hledger, hfree, hB, hgiven.front, (hgiven.buddies 0 (by decide) (by decide)).2,
    hout ⟨2, 1⟩ ?_ (by decide) 3 (by decide)⟩
  rw [State.outstanding, hledger]
  decide

end FramePool
