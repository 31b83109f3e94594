import FramePool.Proofs.Allocation
import FramePool.Proofs.Maximal
import FramePool.Proofs.Progress
import Mathlib.Algebra.BigOperators.Intervals

/-!
# Draining a pool

Requests of one order, put until the first refusal, take a pool apart. How many of them succeed is
known from the counters beforehand: it is the number of blocks of that order that the free blocks
can be halved into (`Layout.parts`). A request lowers this number by one, whatever order its block
comes from, since what is left over stays on the lists (`Layout.parts_takeOff`); and it is refused
when the number is zero.

Which blocks are handed out is known as well. A request takes one aligned run of free frames of its
length away and leaves the others as they are (`Regroup.fits_iff`), and at the end there is none,
because the layout is coalesced (`Pool.Sound.not_fits_of_empty`). So each run is handed out, and no
run twice. Shorter blocks are never touched (`Pool.KeepsList`).

`Pool.Sound.exists_drain` puts these together, by induction on the requests that may be put.
-/

namespace FramePool

/-! ### How many blocks of an order there are -/

namespace Layout

variable {L : Layout} {g k o r : Nat}

/-- The number of blocks of order `r` that those of this order and of larger ones can be halved
into. -/
def parts (L : Layout) (r : Nat) : Nat :=
  ∑ j ∈ Finset.Ico r orderCount, (L j).length * 2 ^ (j - r)

theorem parts_push (hro : r ≤ o) (ho : o < orderCount) (L : Layout) (f : Nat) :
    (L.push o f).parts r = L.parts r + 2 ^ (o - r) := by
  -- Only the list of order `o` changes, so its summand is split off.
  have hmem : o ∈ Finset.Ico r orderCount := Finset.mem_Ico.2 ⟨hro, ho⟩
  have hrest : ∀ j ∈ (Finset.Ico r orderCount).erase o,
      (L.push o f j).length * 2 ^ (j - r) = (L j).length * 2 ^ (j - r) := fun j hj ↦ by
    rw [push_of_ne L f (Finset.ne_of_mem_erase hj)]
  rw [parts, parts, ← Finset.sum_erase_add _ _ hmem, ← Finset.sum_erase_add _ _ hmem,
    Finset.sum_congr rfl hrest, push_self, List.length_cons]
  ring

/-- **Halving** a block that is not on the lists adds the parts that it has, but for the lowest
one. -/
theorem parts_halve (h levels : Nat) (hle : r + levels ≤ orderCount) (L : Layout) :
    (L.halve h r levels).parts r + 1 = L.parts r + 2 ^ levels := by
  induction levels generalizing L with
  | zero => rfl
  | succ levels ih =>
    have hpush := parts_push (Nat.le_add_right r levels) (show r + levels < orderCount by omega) L
      (Frame.buddy h (r + levels))
    rw [Nat.add_sub_cancel_left] at hpush
    rw [halve, ih (by omega), hpush, pow_succ]
    ring

/-- **A request** uses up one part. -/
theorem parts_takeOff (h : L.Offers r k g) : (L.takeOff g k r).parts r + 1 = L.parts r := by
  have hle := h.le
  have hlt := h.lt
  have hhalve := parts_halve g (k - r) (Nat.add_sub_cancel' hle ▸ Nat.le_of_lt hlt) (L.erase k g)
  have hpush := parts_push hle hlt (L.erase k g) g
  rw [push_erase h.head] at hpush
  exact hhalve.trans hpush.symm

/-- Empty lists have no parts. -/
theorem parts_eq_zero (h : ∀ j, r ≤ j → L j = []) : L.parts r = 0 := by
  refine Finset.sum_eq_zero fun j hj ↦ ?_
  rw [h j (Finset.mem_Ico.1 hj).1, List.length_nil, Nat.zero_mul]

end Layout

/-! ### Which blocks of an order there are -/

/-- **Taking one block away** from those that are covered leaves the others of its order. -/
theorem Regroup.fits_iff {t : FrameTable} {bs cs : List Extent} {b c : Extent}
    (h : Regroup bs (b :: cs)) (ht : Tiling t bs) (hb : b.order ≤ topOrder)
    (horder : c.order = b.order) :
    c.Fits (fun f ↦ ∃ d ∈ bs, f ∈ d) ↔ c = b ∨ c.Fits (fun f ↦ ∃ d ∈ cs, f ∈ d) := by
  have haligned : b.Aligned := (h.tiling.1 ht).aligned b List.mem_cons_self
  constructor
  · intro hc
    by_cases heq : c = b
    · exact Or.inl heq
    · refine Or.inr ⟨hc.order_le, hc.aligned, fun f hf ↦ ?_⟩
      obtain ⟨d, hd, hfd⟩ := (h.covered_iff f).1 (hc.frames f hf)
      rcases List.mem_cons.1 hd with rfl | hd
      · -- Aligned blocks of one order that meet are the same.
        exact absurd (Extent.eq_of_mem hc.aligned haligned horder hf hfd) heq
      · exact ⟨d, hd, hfd⟩
  · rintro (rfl | hc)
    · exact ⟨hb, haligned, fun f hf ↦ (h.covered_iff f).2 ⟨c, List.mem_cons_self, hf⟩⟩
    · refine ⟨hc.order_le, hc.aligned, fun f hf ↦ (h.covered_iff f).2 ?_⟩
      obtain ⟨d, hd, hfd⟩ := hc.frames f hf
      exact ⟨d, List.mem_cons_of_mem b hd, hfd⟩

/-- A block that was taken away is not there any more. -/
theorem Tiling.not_fits {t : FrameTable} {cs : List Extent} {b : Extent} (ht : Tiling t (b :: cs)) :
    ¬b.Fits fun f ↦ ∃ d ∈ cs, f ∈ d := fun h ↦ by
  obtain ⟨d, hd, hmem⟩ := h.frames b.head b.head_mem
  exact ht.not_mem_tail hd b.head_mem hmem

namespace Pool

open FrameTable Loan

variable {C : Config} {P : Platform} {t : FrameTable} {p p' p'' : Pool} {L : Layout}
  {ledger : List Loan} {j r head : Nat}

/-- Where no list is sufficient, no such block is free. -/
theorem Sound.not_fits_of_empty (hs : Sound P t p L ledger) (hempty : ∀ j, r ≤ j → L j = []) :
    ¬(⟨head, r⟩ : Extent).Fits fun f ↦ ∃ b ∈ L.extents, f ∈ b := fun h ↦ by
  obtain ⟨c, hc, hle, -⟩ := hs.coalesced.exists_block hs.tiling_free h.aligned h.order_le
    fun f hf ↦ Extent.depth_pos_iff.2 (h.frames f hf)
  have hmem := (Layout.mem_extents.1 hc).2
  rw [hempty c.order hle] at hmem
  cases hmem

/-- The counters of a pool count the parts of its layout. -/
theorem Threads.parts_eq (hp : p.Threads L) (r : Nat) :
    ∑ j ∈ Finset.Ico r orderCount, p.freeCount j * 2 ^ (j - r) = L.parts r :=
  Finset.sum_congr rfl fun j hj ↦ by rw [hp.freeCount_eq (Finset.mem_Ico.1 hj).2]

/-! ### Lists that stay as they are -/

/-- The list of an order is the same, and so are the descriptors of its members. -/
structure KeepsList (p p' : Pool) (j : Nat) : Prop where
  /-- It starts with the same block and has the same length. -/
  list : p'.list j = p.list j
  /-- It is the same sequence. -/
  layout : p'.layout j = p.layout j
  /-- The blocks on it are linked as they were. -/
  members : ∀ f ∈ p.layout j, p'.table.get? f = p.table.get? f

theorem KeepsList.refl (p : Pool) (j : Nat) : p.KeepsList p j := ⟨rfl, rfl, fun _ _ ↦ rfl⟩

theorem KeepsList.trans (h : p.KeepsList p' j) (h' : p'.KeepsList p'' j) : p.KeepsList p'' j :=
  ⟨h'.list.trans h.list, h'.layout.trans h.layout, fun f hf ↦
    (h'.members f (h.layout ▸ hf)).trans (h.members f hf)⟩

end Pool

namespace Machine

open Pool

variable {C : Config} {t : FrameTable} {m m' m₁ : Machine} {L : Layout} {ledger : List Loan}
  {page : Page} {pages : List Page} {flags : AllocFlags} {j r : Nat}

/-- **A request** leaves the lists of smaller orders as they are. -/
theorem keepsList_of_allocOrder (hs : Sound C.platform t m.pool L ledger)
    (h : (m.allocOrder C r flags).result = .ok (.ok page, m')) (hj : j < r) :
    m.pool.KeepsList m'.pool j := by
  obtain ⟨k, hoffers, hhanded⟩ := handedOut_of_allocOrder hs h
  have hjk : j < k := Nat.lt_of_lt_of_le hj hoffers.le
  have hjo : j < orderCount := Nat.lt_trans hjk hoffers.lt
  have hlayout : m'.pool.layout j = m.pool.layout j := hhanded.others j (Or.inl hj)
  obtain rfl : m.pool.layout = L := hs.threads.layout_eq
  refine ⟨?_, hlayout, fun f hf ↦ ?_⟩
  · have hlist' := hhanded.represents j hjo
    rw [hlayout] at hlist'
    exact (hs.threads.represents j hjo).eq hlist'
  · -- What is written lies in the block that is taken, but for one back link on its list.
    have hblock : (⟨f, j⟩ : Extent) ∈ m.pool.layout.extents := Layout.mem_extents.2 ⟨hjo, hf⟩
    have htaken : (⟨page.frame, k⟩ : Extent) ∈ m.pool.layout.extents :=
      Layout.mem_extents.2 ⟨hoffers.lt, hoffers.mem⟩
    have hout : f ∉ (⟨page.frame, k⟩ : Extent) := fun hmem ↦ by
      have heq := hs.tiling_free.eq_of_mem hblock htaken (Extent.head_mem _) hmem
      exact hjk.ne (congrArg Extent.order heq)
    have hnot : (m'.pool.layout k).head? ≠ some f := fun hhead ↦ by
      rw [hhanded.tail] at hhead
      have hmem := List.mem_of_mem_tail (List.mem_of_mem_head? hhead)
      exact hjk.ne' (hs.threads.eq_of_mem hf hmem)
    rw [hhanded.outside f hout]
    simp only [if_neg hnot, Option.map_id']

/-- Flags that do not ask for a cleared block change nothing. -/
theorem allocOrder_eq_of_zero (C : Config) (m : Machine) (order : Nat)
    (hzero : flags.zero = false) : m.allocOrder C order flags = m.allocOrder C order {} := by
  simp only [allocOrder, clear, hzero, Bool.false_eq_true, if_false]

/-- **What is left** when blocks of an order were handed out as long as there were any. -/
structure Drained (m m' : Machine) (r : Nat) (pages : List Page) : Prop where
  /-- As many blocks were handed out as the free blocks can be halved into. -/
  length_eq : pages.length = ∑ j ∈ Finset.Ico r orderCount, m.pool.freeCount j * 2 ^ (j - r)
  /-- No block was handed out twice. -/
  nodup : pages.Nodup
  /-- They are the blocks of this order all of whose frames were free. -/
  blocks : ∀ head, (⟨head⟩ : Page) ∈ pages ↔
    (⟨head, r⟩ : Extent).Fits fun f ↦ ∃ b ∈ m.pool.layout.extents, f ∈ b
  /-- The lists of smaller orders stay. -/
  lists : ∀ j < r, m.pool.KeepsList m'.pool j
  /-- The bytes stay. -/
  directMap : m'.directMap = m.directMap

/-- A pool without a sufficient block is drained. -/
theorem drained_of_empty (hs : Sound C.platform t m.pool L ledger)
    (hempty : ∀ j, r ≤ j → L j = []) : m.Drained m r [] where
  length_eq := by rw [hs.threads.parts_eq, Layout.parts_eq_zero hempty, List.length_nil]
  nodup := List.nodup_nil
  blocks head := by
    rw [hs.threads.layout_eq]
    exact iff_of_false List.not_mem_nil (hs.not_fits_of_empty hempty)
  lists j _ := KeepsList.refl m.pool j
  directMap := rfl

/-- **One request more** in front. -/
theorem Drained.cons (hs : Sound C.platform t m.pool L ledger)
    (h : (m.allocOrder C r {}).result = .ok (.ok page, m₁)) (hd : m₁.Drained m' r pages) :
    m.Drained m' r (page :: pages) := by
  obtain ⟨k, hoffers, hs₁⟩ := sound_of_allocOrder hs h
  obtain ⟨-, -, -, -, hclear, -⟩ := allocOrder_eq_ok_iff.1 h
  have hregroup := hs.regroup_takeOff hoffers
  have ht := hregroup.tiling.1 hs.tiling_free
  have hr : r ≤ topOrder := Nat.le_trans hoffers.le (Nat.le_of_lt_succ hoffers.lt)
  have hblocks := hd.blocks
  rw [hs₁.threads.layout_eq] at hblocks
  refine ⟨?_, List.nodup_cons.2 ⟨fun hmem ↦ ht.not_fits ((hblocks page.frame).1 hmem), hd.nodup⟩,
    fun head ↦ ?_, fun j hj ↦ (keepsList_of_allocOrder hs h hj).trans (hd.lists j hj),
    hd.directMap.trans (Except.ok.inj hclear).symm⟩
  · rw [List.length_cons, hd.length_eq, hs₁.threads.parts_eq, hs.threads.parts_eq,
      Layout.parts_takeOff hoffers]
  · have hpage : (⟨head⟩ : Page) = page ↔ (⟨head, r⟩ : Extent) = ⟨page.frame, r⟩ := by
      rw [Extent.mk.injEq, and_iff_left rfl, ← Page.mk.injEq]
    rw [List.mem_cons, hblocks, hs.threads.layout_eq, hpage]
    exact (hregroup.fits_iff hs.tiling_free hr (show (⟨head, r⟩ : Extent).order = r from rfl)).symm

end Machine

/-- **Draining** ends with the first refusal, if more requests may be put than there are parts. The
induction is on the requests that may be put. -/
theorem Pool.Sound.exists_drain {C : Config} {t : FrameTable} {m : Machine} {L : Layout}
    {ledger : List Loan} {r limit : Nat} (hs : Pool.Sound C.platform t m.pool L ledger)
    (hfits : t.length ≤ C.platform.frameLimit) (hr : r < orderCount) (hlimit : L.parts r < limit) :
    ∃ pages m', (m.drain C r limit).result = .ok (pages, some .outOfMemory, m') ∧
      m.Drained m' r pages := by
  induction limit generalizing m L ledger with
  | zero => exact absurd hlimit (Nat.not_lt_zero _)
  | succ limit ih =>
    rw [Machine.drain, Traced.result_bind]
    have hzero : ({} : AllocFlags).zero = false := rfl
    obtain ⟨⟨x, m₁⟩, halloc⟩ := hs.exists_allocOrder hfits r hzero
    rcases x with e | page
    · obtain ⟨rfl, ⟨-, hle⟩ | ⟨rfl, -, hfit⟩⟩ := Machine.of_allocOrder_eq_error hs halloc
      · exact absurd hr (Nat.not_lt.2 hle)
      · rw [halloc, ok_bind]
        exact ⟨[], m₁, rfl,
          Machine.drained_of_empty hs (hs.threads.firstFit_eq_none_iff.1 hfit)⟩
    · obtain ⟨k, hoffers, hs₁⟩ := Machine.sound_of_allocOrder hs halloc
      have hparts := Layout.parts_takeOff hoffers
      obtain ⟨pages, m', hdrain, hd⟩ := ih hs₁ (by omega)
      refine ⟨page :: pages, m', ?_, hd.cons hs halloc⟩
      rw [halloc, ok_bind, Traced.result_bind, hdrain, ok_bind, Traced.result_pure]

/-- **Draining a pool.** Let the table fit into the physical address space, take a reachable state
and an order that there is, and put requests of that order which need not clear the block until one
is refused. This happens after just as many blocks as the free blocks of this order and of larger
ones can be halved into, for want of memory, and with an observer as without one. The blocks that
were handed out are the aligned runs of that length whose frames were all free, each of them once,
and the lists of smaller orders are the same, with the same blocks linked in the same way. -/
theorem Reachable.drained {C : Config} {t : FrameTable} {s : State} {order : Nat}
    (hs : Reachable C t s)
    (hfits : t.length * C.platform.pageSize ≤ C.platform.physicalLimit)
    (ho : order < orderCount) :
    (∀ m flags, flags.zero = false →
      Machine.allocOrder C m order flags = Machine.allocOrder C m order {}) ∧
    ∀ limit tracing,
      ∑ j ∈ Finset.Ico order orderCount, s.machine.pool.freeCount j * 2 ^ (j - order) < limit →
        ∃ pages m, ((s.machine.drain C order limit).run C.platform tracing).2 =
            .ok (pages, some .outOfMemory, m) ∧
          s.machine.Drained m order pages := by
  have hsound : Pool.Sound C.platform t s.machine.pool s.machine.pool.layout s.ledger := hs.sound
  have hlimit := FrameTable.length_le_frameLimit hfits
  have hlength : s.machine.pool.table.length ≤ C.platform.frameLimit :=
    hsound.alike.length_eq ▸ hlimit
  refine ⟨fun m flags ↦ Machine.allocOrder_eq_of_zero C m order, fun limit tracing hparts ↦ ?_⟩
  rw [hsound.threads.parts_eq] at hparts
  rw [(Machine.legible_drain hlength order limit C.selfCheck).run_eq tracing]
  exact hsound.exists_drain hlimit ho hparts

/-- Seven frames are free: a page, two pages and four. There are three blocks of two in them, and
the page stays. -/
theorem Reachable.drained_replayed :
    ∃ s pages m, Reachable ⟨.scaled, true⟩ (.ofCount 8) s ∧
      s.freeBlocks = [⟨1, 0⟩, ⟨2, 1⟩, ⟨4, 2⟩] ∧
      ((s.machine.drain ⟨.scaled, true⟩ 1 9).run .scaled true).2 =
        .ok (pages, some .outOfMemory, m) ∧
      pages.length = 3 ∧ ⟨6⟩ ∈ pages ∧ m.pool.layout 0 = s.machine.pool.layout 0 := by
  obtain ⟨s, hs, hx⟩ := exists_reachable_of_replay (C := ⟨.scaled, true⟩)
    (f := fun s ↦ (s.freeBlocks,
      ∑ j ∈ Finset.Ico 1 orderCount, s.machine.pool.freeCount j * 2 ^ (j - 1)))
    (x := ([⟨1, 0⟩, ⟨2, 1⟩, ⟨4, 2⟩], 3)) (.ofCount 8) none [.release 0 8, .allocPage {}]
    (by decide +kernel)
  obtain ⟨hblocks, hparts⟩ := Prod.mk.inj hx
  obtain ⟨-, hdrain⟩ := Reachable.drained hs (by decide) (show 1 < orderCount by decide)
  obtain ⟨pages, m, hrun, hd⟩ := hdrain 9 true (by rw [hparts]; decide)
  refine ⟨s, pages, m, hs, hblocks, hrun, hd.length_eq.trans hparts, (hd.blocks 6).2 ?_,
    (hd.lists 0 (by decide)).layout⟩
  refine ⟨by decide, by decide, fun f hf ↦ ?_⟩
  show ∃ b ∈ s.freeBlocks, f ∈ b
  rw [hblocks]
  exact ⟨⟨4, 2⟩, by decide, Nat.le_trans (by decide) hf.1, Nat.lt_of_lt_of_le hf.2 (by decide)⟩

end FramePool
