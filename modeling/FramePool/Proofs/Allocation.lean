import FramePool.Proofs.Events
import FramePool.Proofs.Run

/-!
# What handing out a block changes

The search and the halving loop together change very little, and what they change is known from the
state before: of the smallest sufficient order that has blocks, the first one is taken off, and each
order that was skipped gets one half of it (`Layout.takeOff_self`, `Layout.takeOff_of_lt`,
`Layout.takeOff_of_not_mem`). Nothing else happens to the lists.

Descriptors follow. Those of frames outside the block keep flags, order and references because only
frames of the block are relabelled, and they keep their links because these are determined by the
lists. One list lost its first block, so the block behind it has lost the one in front
(`Linked.get?_eq_of_prev`). That is the whole of `Pool.HandedOut`, and `Reachable.allocOrder_post`
says that a request that is answered with a block leaves the pool just so.
-/

namespace FramePool

/-! ### The lists -/

namespace Layout

variable {L : Layout} {f g j k o : Nat}

/-- Halving puts the upper half of each order on the list of the order. -/
theorem halve_apply (L : Layout) (h o levels j : Nat) :
    L.halve h o levels j =
      if o ≤ j ∧ j < o + levels then Frame.buddy h j :: L j else L j := by
  induction levels generalizing L with
  | zero => rw [halve, if_neg (by omega)]
  | succ levels ih =>
    rw [halve, ih]
    rcases eq_or_ne j (o + levels) with rfl | hne
    · rw [if_neg (by omega), if_pos (by omega), push_self]
    · rw [push_of_ne _ _ hne]
      have hiff : (o ≤ j ∧ j < o + levels) ↔ o ≤ j ∧ j < o + (levels + 1) := by omega
      simp only [hiff]

/-- **The list of the block** loses its first member. -/
theorem takeOff_self (h : L.Offers o k g) : L.takeOff g k o k = (L k).tail := by
  obtain ⟨fs, hfs⟩ := List.head?_eq_some_iff.1 h.head
  have hle := h.le
  rw [takeOff, halve_apply, if_neg (by omega), erase_self, hfs, List.erase_cons_head,
    List.tail_cons]

/-- **A list that was skipped** gets the upper half of its order. -/
theorem takeOff_of_lt (h : L.Offers o k g) (haligned : 2 ^ k ∣ g) (hoj : o ≤ j) (hjk : j < k) :
    L.takeOff g k o j = [g + 2 ^ j] := by
  rw [takeOff, halve_apply, if_pos (by omega), erase_of_ne _ _ (by omega), h.empty j hoj hjk,
    Frame.buddy_of_dvd (Nat.dvd_trans (Nat.pow_dvd_pow 2 hjk) haligned)]

/-- **The other lists** stay. -/
theorem takeOff_of_not_mem (h : L.Offers o k g) (hj : j < o ∨ k < j) :
    L.takeOff g k o j = L j := by
  have hle := h.le
  rw [takeOff, halve_apply, if_neg (by omega), erase_of_ne _ _ (by omega)]

/-- A frame outside the block is on the lists that it was on. -/
theorem mem_takeOff_iff (h : L.Offers o k g) (haligned : 2 ^ k ∣ g)
    (hf : f ∉ (⟨g, k⟩ : Extent)) (j : Nat) : f ∈ L.takeOff g k o j ↔ f ∈ L j := by
  have hfg : f ≠ g := fun heq ↦ hf (heq ▸ Extent.head_mem ⟨g, k⟩)
  rcases eq_or_ne j k with rfl | hjk
  · obtain ⟨fs, hfs⟩ := List.head?_eq_some_iff.1 h.head
    rw [takeOff_self h, hfs, List.tail_cons, List.mem_cons, or_iff_right hfg]
  · rcases Nat.lt_or_ge j o with hjo | hoj
    · rw [takeOff_of_not_mem h (Or.inl hjo)]
    · rcases Nat.lt_or_gt_of_ne hjk with hlt | hgt
      · rw [takeOff_of_lt h haligned hoj hlt, h.empty j hoj hlt, List.mem_singleton]
        have hpow : 2 ^ j < 2 ^ k := Nat.pow_lt_pow_right (by decide) hlt
        refine iff_of_false (fun heq ↦ hf ?_) List.not_mem_nil
        exact heq ▸ ⟨Nat.le_add_right _ _, Nat.add_lt_add_left hpow g⟩
      · rw [takeOff_of_not_mem h (Or.inr hgt)]

/-- Lists that are not all empty offer a block. -/
theorem exists_offers (hL : L.Bounded) (hne : ∃ j, o ≤ j ∧ L j ≠ []) :
    ∃ k g, L.Offers o k g := by
  obtain ⟨hok, hk⟩ := Nat.find_spec hne
  obtain ⟨g, fs, hfs⟩ := List.exists_cons_of_ne_nil hk
  refine ⟨Nat.find hne, g, hok, ?_, by rw [hfs]; rfl, fun j hoj hjk ↦ ?_⟩
  · exact Nat.lt_of_not_le fun hle ↦ hk (hL _ hle)
  · by_contra hj
    exact Nat.find_min hne hjk ⟨hoj, hj⟩

/-- Only one block is offered. -/
theorem Offers.unique {k' g' : Nat} (h : L.Offers o k g) (h' : L.Offers o k' g') :
    k' = k ∧ g' = g := by
  have hne : ∀ {k g : Nat}, L.Offers o k g → L k ≠ [] := fun h ↦ List.ne_nil_of_mem h.mem
  obtain rfl : k' = k := by
    rcases Nat.lt_trichotomy k' k with hlt | heq | hlt
    · exact absurd (h.empty k' h'.le hlt) (hne h')
    · exact heq
    · exact absurd (h'.empty k h.le hlt) (hne h)
  exact ⟨rfl, Option.some.inj (h'.head.symm.trans h.head)⟩

end Layout

/-! ### The descriptors -/

/-- **Where two tables link the same sequence** behind different frames, its members have the same
links, but for the first one's back link. -/
theorem FrameTable.Linked.get?_eq_of_prev {t t' : FrameTable} {prev prev' : Option Frame}
    {fs : List Frame} {f : Frame} {d d' : Descriptor} (h : t.Linked prev fs)
    (h' : t'.Linked prev' fs) (hnodup : fs.Nodup) (hf : f ∈ fs) (hd : t.get? f = some d)
    (hd' : t'.get? f = some d') :
    d'.free = d.free ∧ d'.prev = (if fs.head? = some f then prev' else d.prev) ∧
      d'.next = d.next := by
  obtain ⟨before, after, rfl⟩ := List.append_of_mem hf
  obtain ⟨e, he, hfree, hprev, hnext⟩ := h.get?_of_append
  obtain ⟨e', he', hfree', hprev', hnext'⟩ := h'.get?_of_append
  obtain rfl : e = d := Option.some.inj (he.symm.trans hd)
  obtain rfl : e' = d' := Option.some.inj (he'.symm.trans hd')
  refine ⟨hfree'.trans hfree.symm, ?_, hnext'.trans hnext.symm⟩
  rcases before with - | ⟨g, before⟩
  · rw [hprev', List.nil_append, List.head?_cons, if_pos rfl]
    rfl
  · have hne : g ≠ f := fun heq ↦
      (List.nodup_cons.1 hnodup).1 (heq ▸ List.mem_append_right _ List.mem_cons_self)
    rw [List.cons_append, List.head?_cons, if_neg fun heq ↦ hne (Option.some.inj heq), hprev',
      hprev, List.getLast?_cons]
    rcases before.getLast? with - | x
    · rfl
    · rfl

/-- Descriptors with the same flag and links that are otherwise the same. -/
theorem Descriptor.eq_of_unlinked {d d' : Descriptor} (h : d'.unlinked = d.unlinked)
    (hfree : d'.free = d.free) (hprev : d'.prev = d.prev) (hnext : d'.next = d.next) : d' = d :=
  calc d' = { d'.unlinked with free := d'.free, prev := d'.prev, next := d'.next } := rfl
    _ = { d.unlinked with free := d.free, prev := d.prev, next := d.next } := by
      rw [h, hfree, hprev, hnext]
    _ = d := rfl

namespace Pool

open FrameTable Loan

variable {P : Platform} {t : FrameTable} {p p' : Pool} {L : Layout} {ledger : List Loan}
  {f g k o : Nat}

/-- **Outside the block** that is taken off, the lists are linked as before, but for the block that
came behind it. -/
theorem Threads.links_takeOff {d d' : Descriptor} (hp : p.Threads L)
    (hp' : p'.Threads (L.takeOff g k o)) (hoffers : L.Offers o k g) (haligned : 2 ^ k ∣ g)
    (hf : f ∉ (⟨g, k⟩ : Extent)) (hd : p.table.get? f = some d) (hd' : p'.table.get? f = some d') :
    d'.free = d.free ∧ d'.prev = (if (L k).tail.head? = some f then none else d.prev) ∧
      d'.next = d.next := by
  obtain ⟨fs, hfs⟩ := List.head?_eq_some_iff.1 hoffers.head
  rcases Bool.eq_false_or_eq_true d.free with hfree | hfree
  · have hlisted := hp.listed f d hd hfree
    have ho := hp.lt_orderCount hlisted
    rcases eq_or_ne d.order k with hdk | hne
    · have hlinked := (hp.represents k hoffers.lt).linked
      have hlinked' := (hp'.represents k hoffers.lt).linked
      have hnodup := (hp.represents k hoffers.lt).nodup
      rw [hdk] at hlisted
      rw [hfs] at hlinked hnodup hlisted
      rw [Layout.takeOff_self hoffers, hfs] at hlinked'
      rw [hfs]
      refine hlinked.2.get?_eq_of_prev hlinked' (List.nodup_cons.1 hnodup).2 ?_ hd hd'
      refine (List.mem_cons.1 hlisted).resolve_left fun heq ↦ hf ?_
      exact heq ▸ Extent.head_mem ⟨g, k⟩
    · have hskip : d.order < o ∨ k < d.order := by
        by_contra hbetween
        have hempty := hoffers.empty d.order (by omega) (by omega)
        rw [hempty] at hlisted
        cases hlisted
      have hlinked' := (hp'.represents d.order ho).linked
      rw [Layout.takeOff_of_not_mem hoffers hskip] at hlinked'
      rw [if_neg fun hhead ↦ hne ?_]
      · exact (hp.represents d.order ho).linked.get?_eq hlinked' hlisted hd hd'
      · exact hp.eq_of_mem (List.mem_of_mem_tail (List.mem_of_mem_head? hhead)) hlisted
  · have hunlisted := (hp.free_eq_false_iff hd).1 hfree
    have hfree' := (hp'.free_eq_false_iff hd').2 fun j hj ↦
      hunlisted j ((Layout.mem_takeOff_iff hoffers haligned hf j).1 hj)
    obtain ⟨hprev, hnext⟩ := hp.unlinked f d hd hfree
    obtain ⟨hprev', hnext'⟩ := hp'.unlinked f d' hd' hfree'
    rw [hfree, hfree', hprev, hprev', hnext, hnext', ite_self]
    exact ⟨rfl, rfl, rfl⟩

/-- **Outside the block** that is taken off, one back link changes at most. -/
theorem Threads.get?_takeOff (hp : p.Threads L) (hp' : p'.Threads (L.takeOff g k o))
    (hoffers : L.Offers o k g) (haligned : 2 ^ k ∣ g)
    (hre : p.table.Relabelled (· ∈ (⟨g, k⟩ : Extent)) p'.table) (hf : f ∉ (⟨g, k⟩ : Extent)) :
    p'.table.get? f = (p.table.get? f).map fun d ↦
      if (L k).tail.head? = some f then { d with prev := none } else d := by
  have hunlinked := hre.unlinked f hf
  rcases hd : p.table.get? f with - | d
  · rw [hd] at hunlinked
    exact Option.map_eq_none_iff.1 hunlinked
  · rw [hd, Option.map_some, Option.map_eq_some_iff] at hunlinked
    obtain ⟨d', hd', hsame⟩ := hunlinked
    obtain ⟨hfree, hprev, hnext⟩ := hp.links_takeOff hp' hoffers haligned hf hd hd'
    rw [hd', Option.map_some, Option.some.injEq]
    split
    · rename_i hhead
      rw [if_pos hhead] at hprev
      exact Descriptor.eq_of_unlinked hsame hfree hprev hnext
    · rename_i hhead
      rw [if_neg hhead] at hprev
      exact Descriptor.eq_of_unlinked hsame hfree hprev hnext

/-- Taking a block off the lists changes one back link at most outside the block. -/
theorem Sound.get?_of_take (hs : Sound P t p L ledger) (hoffers : L.Offers o k g)
    (h : (Pool.take P p o).result = .ok (some g, p')) (hf : f ∉ (⟨g, k⟩ : Extent)) :
    p'.table.get? f = (p.table.get? f).map fun d ↦
      if (L k).tail.head? = some f then { d with prev := none } else d := by
  have haligned := hs.dvd_of_offers hoffers
  have hloose : ∀ f ∈ (⟨g, k⟩ : Extent), p.Loose (L.erase k g) f := fun f ↦
    loose_of_tiling (hs.threads.bounded.erase k g) hs.books hs.alike (hs.tiling_of_offers hoffers)
  obtain ⟨p'', htake, hp', -, -, hre⟩ := hs.threads.take (P := P) hoffers haligned hloose fun hok ↦
    hs.threads.lt_frameLimit_of_take hoffers hok h
  rw [h, Except.ok.injEq, Prod.mk.injEq] at htake
  obtain ⟨-, rfl⟩ := htake
  exact hs.threads.get?_takeOff hp' hoffers haligned hre hf

/-- The descriptor of a block that was just handed out. -/
theorem Sound.get?_lent (hs : Sound P t p L (⟨⟨g, o⟩, 0⟩ :: ledger)) :
    p.table.get? g = some { allocated := true, order := o } := by
  have hl : (⟨⟨g, o⟩, 0⟩ : Loan) ∈ (⟨⟨g, o⟩, 0⟩ :: ledger : List Loan) := List.mem_cons_self
  obtain ⟨d, hd, halloc, horder, hrefs⟩ := hs.books.lent _ hl
  have hfree : d.free = false := (hs.threads.free_eq_false_iff hd).2 (hs.unlisted hl)
  obtain ⟨hprev, hnext⟩ := hs.threads.unlinked g d hd hfree
  have hres := (hs.usable_of_mem (List.mem_append_right _ (mem_extents hl)) (Extent.head_mem _)).2
  rw [isReserved, hd, Option.any_some] at hres
  rw [hd, Option.some.injEq]
  calc d = ⟨d.free, d.reserved, d.allocated, d.order, d.refs, d.prev, d.next⟩ := rfl
    _ = { allocated := true, order := o } := by
      rw [hfree, hres, halloc, horder, hrefs, hprev, hnext]

/-- **What is left** of a pool when the block at `g`, the first one of order `k`, is halved down to
the order `o` and its lowest part is handed out. -/
structure HandedOut (p p' : Pool) (g k o : Nat) : Prop where
  /-- The lists are sequences as before. -/
  represents : ∀ j < orderCount, (p'.list j).Represents p'.table (p'.layout j)
  /-- The list of the block lost its first member and no other. -/
  tail : p'.layout k = (p.layout k).tail
  /-- Each order that was skipped has one block, the upper half of the next order. -/
  halves : ∀ j, o ≤ j → j < k → p'.layout j = [g + 2 ^ j]
  /-- The other lists are the same. -/
  others : ∀ j, j < o ∨ k < j → p'.layout j = p.layout j
  /-- The head is flagged allocated, has the order asked for, and nothing else. -/
  head : p'.table.get? g = some { allocated := true, order := o }
  /-- Outside the block, the back link of what is now the first block of the list is cut, and no
  descriptor changes otherwise. -/
  outside : ∀ f, f ∉ (⟨g, k⟩ : Extent) → p'.table.get? f = (p.table.get? f).map fun d ↦
    if (p'.layout k).head? = some f then { d with prev := none } else d
  /-- The counter stays. -/
  total : p'.total = p.total

end Pool

variable {C : Config} {t : FrameTable} {s : State}

/-- **A request that hands out a block** hands out the lowest part of the one that is offered and
does nothing else to the pool. -/
theorem Machine.handedOut_of_allocOrder {m m' : Machine} {L : Layout} {ledger : List Loan}
    {order : Nat} {flags : AllocFlags} {page : Page}
    (hs : Pool.Sound C.platform t m.pool L ledger)
    (h : (m.allocOrder C order flags).result = .ok (.ok page, m')) :
    ∃ k, L.Offers order k page.frame ∧ m.pool.HandedOut m'.pool page.frame k order := by
  obtain ⟨-, p, htake, hwrite, -, -⟩ := allocOrder_eq_ok_iff.1 h
  obtain ⟨k, hoffers, hs'⟩ := sound_of_allocOrder hs h
  have haligned := hs.dvd_of_offers hoffers
  obtain rfl : m.pool.layout = L := hs.threads.layout_eq
  have hlayout := hs'.threads.layout_eq
  obtain ⟨_, -, hheld, -⟩ := hs.of_take_eq_ok htake
  rw [Pool.write_eq_ok _ (hheld.loose (Extent.head_mem _)).lt_length, Except.ok.injEq] at hwrite
  refine ⟨k, hoffers, ⟨fun j hj ↦ hlayout ▸ hs'.threads.represents j hj, ?_, fun j hoj hjk ↦ ?_,
    fun j hj ↦ ?_, hs'.get?_lent, fun f hf ↦ ?_, hs'.total.trans hs.total.symm⟩⟩
  · rw [hlayout, Layout.takeOff_self hoffers]
  · rw [hlayout, Layout.takeOff_of_lt hoffers haligned hoj hjk]
  · rw [hlayout, Layout.takeOff_of_not_mem hoffers hj]
  · have hne : page.frame ≠ f := fun heq ↦ hf (heq ▸ Extent.head_mem ⟨page.frame, k⟩)
    rw [hlayout, Layout.takeOff_self hoffers, ← hwrite, FrameTable.get?_update_of_ne _ _ hne]
    exact hs.get?_of_take hoffers htake hf

/-- **After a request for a block.** In every reachable state in which some list of a sufficient
order is not empty, let `k` be the smallest such order and `g` the first block of its list. A
request that need not clear the block, and that ends without a fault, is answered with the page of
`g`. It has taken `g` off its list and left the upper half of each order that was skipped; the other
lists are the same sequences, and outside the block one back link changes at most. -/
theorem Reachable.allocOrder_post {order : Nat} {flags : AllocFlags} (hs : Reachable C t s)
    (hne : ∃ j, order ≤ j ∧ s.machine.pool.layout j ≠ []) (hzero : flags.zero = false) :
    ∃ k g, s.machine.pool.layout.Offers order k g ∧ ∀ tracing x m,
      ((s.machine.allocOrder C order flags).run C.platform tracing).2 = .ok (x, m) →
        x = .ok ⟨g⟩ ∧ s.machine.pool.HandedOut m.pool g k order ∧
          m.directMap = s.machine.directMap := by
  have hsound := hs.sound
  obtain ⟨k, g, hoffers⟩ := Layout.exists_offers hsound.threads.bounded hne
  refine ⟨k, g, hoffers, fun tracing x m hrun ↦ ?_⟩
  have hresult := (Traced.run_eq_ok_iff.1 hrun).1
  rcases x with e | page
  · obtain ⟨-, ⟨-, hle⟩ | ⟨-, -, hfit⟩⟩ := Machine.of_allocOrder_eq_error hsound hresult
    · exact absurd (Nat.lt_of_le_of_lt hoffers.le hoffers.lt) (Nat.not_lt.2 hle)
    · rw [hsound.threads.firstFit_eq_some hoffers] at hfit
      cases hfit
  · obtain ⟨k', hoffers', hhanded⟩ := Machine.handedOut_of_allocOrder hsound hresult
    obtain ⟨rfl, rfl⟩ := hoffers.unique hoffers'
    obtain ⟨-, -, -, -, hclear, -⟩ := Machine.allocOrder_eq_ok_iff.1 hresult
    rw [Machine.clear, hzero] at hclear
    exact ⟨rfl, hhanded, (Except.ok.inj hclear).symm⟩

/-- A page is taken out of the first of two blocks of four. -/
theorem Reachable.allocOrder_post_replayed :
    ∃ s m, Reachable ⟨.scaled, true⟩ (.ofCount 12) s ∧ s.freeBlocks = [⟨8, 2⟩, ⟨0, 2⟩] ∧
      ((s.machine.allocOrder ⟨.scaled, true⟩ 0 {}).run .scaled false).2 = .ok (.ok ⟨8⟩, m) ∧
      m.pool.layout 0 = [9] ∧ m.pool.layout 1 = [10] ∧
      m.pool.layout 2 = (s.machine.pool.layout 2).tail := by
  obtain ⟨s, hs, hx⟩ := exists_reachable_of_replay (C := ⟨.scaled, true⟩)
    (f := fun s ↦ (s.freeBlocks, (s.machine.allocOrder ⟨.scaled, true⟩ 0 {}).result.map (·.1)))
    (x := ([⟨8, 2⟩, ⟨0, 2⟩], .ok (.ok ⟨8⟩))) (.ofCount 12) none [.release 0 4, .release 8 4]
    (by decide +kernel)
  obtain ⟨hblocks, hanswer⟩ := Prod.mk.inj hx
  obtain ⟨⟨_, m⟩, halloc, rfl⟩ := map_eq_ok_iff.1 hanswer
  have hfirst : (⟨8, 2⟩ : Extent) ∈ s.freeBlocks := hblocks ▸ List.mem_cons_self
  obtain ⟨k, g, hoffers, hpost⟩ := Reachable.allocOrder_post hs
    ⟨2, Nat.zero_le 2, List.ne_nil_of_mem (Layout.mem_extents.1 hfirst).2⟩
    (show ({} : AllocFlags).zero = false from rfl)
  obtain ⟨hpage, hhanded, -⟩ := hpost false _ m halloc
  obtain rfl : 8 = g := congrArg Page.frame (Except.ok.inj hpage)
  have hmem : (⟨8, k⟩ : Extent) ∈ s.freeBlocks :=
    Layout.mem_extents.2 ⟨hoffers.lt, hoffers.mem⟩
  obtain rfl : k = 2 := by
    rw [hblocks] at hmem
    simpa using hmem
  exact ⟨s, m, hs, hblocks, halloc, hhanded.halves 0 (by decide) (by decide),
    hhanded.halves 1 (by decide) (by decide), hhanded.tail⟩

end FramePool
