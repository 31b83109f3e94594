import FramePool.Proofs.Conservation
import FramePool.Proofs.Events

/-!
# Progress: no false alarms

The operations of a pool check a good deal: that a frame is on a list before it is taken off and on
none before it is put on one, that a block is larger than what it is halved to, that counters do not
fall below zero, that addresses fit. In a reachable state none of these checks can fail. What is
left are refusals that the caller has to answer for.

Where the whole table fits into the physical address space, this is all there is: a request for a
block that need not be cleared, a range of usable frames that belong to no block, a block that is
given back without references and a reference that is taken or given back all end without a fault
(`Reachable.no_false_alarms`). They do so with an observer, too, since each event is legible.
-/

namespace FramePool

variable {C : Config} {P : Platform} {t : FrameTable} {s : State}

/-- The computation ends without a fault, whether there is an observer or not. -/
def Traced.Answers {α : Type} (P : Platform) (x : Traced α) : Prop :=
  ∀ tracing, ∃ a, (x.run P tracing).2 = .ok a

theorem Traced.Legible.answers {α : Type} {x : Traced α} (h : x.Legible P)
    (hx : ∃ a, x.result = .ok a) : x.Answers P := fun _ ↦ by
  obtain ⟨a, ha⟩ := hx
  exact ⟨a, Traced.run_eq_ok_iff.2 ⟨ha, fun _ ↦ h⟩⟩

/-- A table that fits into the physical address space has no more frames than there are
addresses. -/
theorem FrameTable.length_le_frameLimit
    (h : t.length * P.pageSize ≤ P.physicalLimit) : t.length ≤ P.frameLimit := by
  rw [← P.frameLimit_mul_pageSize] at h
  exact Nat.le_of_mul_le_mul_right h P.pageSize_pos

/-- **A request for a block** that need not be cleared is answered, with a block or with a
refusal. -/
theorem Pool.Sound.exists_allocOrder {m : Machine} {L : Layout} {ledger : List Loan}
    (hs : Pool.Sound C.platform t m.pool L ledger) (hfits : t.length ≤ C.platform.frameLimit)
    (order : Nat) {flags : AllocFlags} (hzero : flags.zero = false) :
    ∃ r, (m.allocOrder C order flags).result = .ok r := by
  have hclear : ∀ page, Machine.clear C.platform m.directMap page order flags = .ok m.directMap :=
    fun page ↦ by rw [Machine.clear, hzero]; rfl
  rcases Nat.lt_or_ge order orderCount with ho | ho
  · rcases hfit : m.pool.firstFit order with - | k
    · exact ⟨_, Machine.allocOrder_of_firstFit_eq_none flags ho hfit⟩
    · obtain ⟨g, hoffers⟩ := hs.threads.exists_offers hfit
      have hg : g < t.length := by
        rw [← hs.alike.length_eq]
        obtain ⟨d, hd, -⟩ := hs.threads.get? hoffers.mem
        exact FrameTable.lt_of_get? hd
      obtain ⟨m', halloc⟩ := Machine.exists_allocOrder hs hoffers
        (fun _ ↦ Nat.lt_of_lt_of_le hg hfits) (hclear ⟨g⟩)
      exact ⟨_, halloc⟩
  · exact ⟨_, congrArg Traced.result (Machine.allocOrder_of_le C m flags ho)⟩

/-- The page of an address is found exactly when the table has its frame. -/
theorem Pool.pageAt_eq_some_iff {p : Pool} {a : PhysicalAddress P} {page : Page} :
    p.pageAt a = some page ↔ a.frame < p.table.length ∧ page = ⟨a.frame⟩ := by
  rw [pageAt, Option.map_eq_some_iff, ← FrameTable.get?_isSome, Option.isSome_iff_exists]
  constructor
  · rintro ⟨d, hd, rfl⟩
    exact ⟨⟨d, hd⟩, rfl⟩
  · rintro ⟨⟨d, hd⟩, rfl⟩
    exact ⟨d, hd, rfl⟩

/-- **No false alarms.** Let the table fit into the physical address space. Then in every reachable
state, with an observer or without one, a request for a block that need not be cleared is answered,
and a range of usable frames of the table is accepted that are in no free block and in no
outstanding one. An outstanding block can be given back if it has no references, a reference to it
can be given back if it has one, and another can be taken if it has fewer than can be counted. The
page of an address is found if the table has its frame, the checker finds nothing wrong, and there
is no more free memory than can be addressed. -/
theorem Reachable.no_false_alarms (h : Reachable C t s)
    (hfits : t.length * C.platform.pageSize ≤ C.platform.physicalLimit) :
    (∀ (order : Nat) (flags : AllocFlags), flags.zero = false →
      (s.machine.allocOrder C order flags).Answers C.platform) ∧
    (∀ first count, first + count ≤ t.length →
      (∀ f, first ≤ f → f < first + count → t.isReserved f = false ∧
        ∀ b ∈ s.freeBlocks ++ s.outstanding, f ∉ b) →
      (s.machine.pool.releaseRange C first count).Answers C.platform) ∧
    (∀ l ∈ s.ledger,
      (l.refs = 0 → (s.machine.pool.free C ⟨l.head⟩).Answers C.platform) ∧
      (l.refs + 1 < Descriptor.refLimit → ∃ p, s.machine.pool.incref ⟨l.head⟩ = .ok p) ∧
      (0 < l.refs → (s.machine.pool.decref C ⟨l.head⟩).Answers C.platform)) ∧
    (∀ (a : PhysicalAddress C.platform) (page : Page),
      s.machine.pool.pageAt a = some page ↔ a.frame < t.length ∧ page = ⟨a.frame⟩) ∧
    s.machine.pool.check C.platform = .ok () ∧
    s.machine.pool.freePages * C.platform.pageSize ≤ C.platform.physicalLimit := by
  have hs : Pool.Sound C.platform t s.machine.pool s.machine.pool.layout s.ledger := h.sound
  have hlimit := FrameTable.length_le_frameLimit hfits
  have hlength : s.machine.pool.table.length = t.length := hs.alike.length_eq
  have hlegible : ∀ l ∈ s.ledger, l.head < C.platform.frameLimit := fun l hl ↦ by
    have hmem := List.mem_append_right s.machine.pool.layout.extents (Loan.mem_extents hl)
    exact Nat.lt_of_lt_of_le (hs.tiling.usable_of_mem hmem l.head_mem).1 hlimit
  refine ⟨fun order flags hzero ↦ ?_, fun first count hlen hrange ↦ ?_, fun l hl ↦
    ⟨fun hrefs ↦ ?_, fun hrefs ↦ ?_, fun hrefs ↦ ?_⟩, fun a page ↦ ?_, hs.check, ?_⟩
  · exact (Machine.legible_allocOrder (hlength ▸ hlimit) order flags C.selfCheck).answers
      (hs.exists_allocOrder hlimit order hzero)
  · refine (Pool.legible_releaseRange _ first count C.selfCheck).answers
      (hs.exists_releaseRange hlimit hlen (fun f hle hlt ↦ ?_) fun f hle hlt ↦ (hrange f hle hlt).1)
    exact Extent.depth_eq_zero_iff.2 (hrange f hle hlt).2
  · obtain ⟨p, hfree, -⟩ := hs.free hl hrefs
    exact (Pool.legible_free _ (hlegible l hl) C.selfCheck).answers ⟨p, hfree⟩
  · obtain ⟨p, hincref, -⟩ := hs.incref hl hrefs
    exact ⟨p, hincref⟩
  · obtain ⟨p, hdecref, -⟩ := hs.decref hl hrefs
    exact (Pool.legible_decref _ (hlegible l hl) C.selfCheck).answers ⟨p, hdecref⟩
  · rw [Pool.pageAt_eq_some_iff, hlength]
  · have hle := Nat.le_trans hs.freePages_le t.usableCount_le_length
    exact Nat.le_trans (Nat.mul_le_mul_right _ hle) hfits

/-- Eight of twelve frames are handed over and a block of two of them is handed out. It can be given
back, the other four can be handed over, and a block of eight is refused without a fault. -/
theorem Reachable.no_false_alarms_replayed :
    ∃ s, Reachable ⟨.scaled, true⟩ (.ofCount 12) s ∧
      (s.machine.allocOrder ⟨.scaled, true⟩ 3 {}).Answers .scaled ∧
      (s.machine.pool.releaseRange ⟨.scaled, true⟩ 8 4).Answers .scaled ∧
      (s.machine.pool.free ⟨.scaled, true⟩ ⟨0⟩).Answers .scaled := by
  obtain ⟨s, hs, hx⟩ := exists_reachable_of_replay (C := ⟨.scaled, true⟩)
    (f := fun s ↦ (s.freeBlocks, s.ledger)) (x := ([⟨2, 1⟩, ⟨4, 2⟩], [⟨⟨0, 1⟩, 0⟩]))
    (.ofCount 12) none [.release 0 8, .allocOrder 1 {}] (by decide +kernel)
  obtain ⟨hblocks, hledger⟩ := Prod.mk.inj hx
  obtain ⟨halloc, hrelease, hlent, -⟩ := Reachable.no_false_alarms hs (by decide)
  refine ⟨s, hs, halloc 3 {} rfl, hrelease 8 4 (by decide) fun f hle hlt ↦ ⟨?_, fun b hb ↦ ?_⟩,
    (hlent ⟨⟨0, 1⟩, 0⟩ (hledger ▸ List.mem_singleton_self _)).1 rfl⟩
  · obtain rfl | rfl | rfl | rfl : f = 8 ∨ f = 9 ∨ f = 10 ∨ f = 11 := by omega
    all_goals decide
  · have hend : ∀ b ∈ s.freeBlocks ++ s.outstanding, b.head + 2 ^ b.order ≤ 8 := by
      rw [hblocks, State.outstanding, hledger]
      decide
    exact fun hf ↦ Nat.not_lt.2 (Nat.le_trans (hend b hb) hle) hf.2

end FramePool
