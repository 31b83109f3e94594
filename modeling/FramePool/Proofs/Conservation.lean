import FramePool.Proofs.Run
import Mathlib.Algebra.BigOperators.Group.List.Basic

/-!
# Conservation: every usable frame is accounted for

A pool counts blocks, not frames, and it says nothing about the frames inside a block. The counters
are right because nothing is lost or doubled when blocks are halved and merged: the frames that the
blocks of a run cover are just those that were handed over (`Run.covered_iff`), and as no two blocks
share a frame, the lengths of the blocks add up to the number of those frames
(`Tiling.sum_eq_card`).

So the usable frames fall into those that are free, those of the outstanding blocks and those that
were never handed over, and the counters say how many there are of each
(`Run.conserves`).
-/

namespace FramePool

/-! ### What the counters count -/

namespace Pool

variable {p : Pool} {L : Layout} {o : Nat}

/-- **The counter of an order** counts the free blocks of that order; there are none where there is
no such order. -/
theorem Threads.freeCount_eq_countP (h : p.Threads L) (o : Nat) :
    p.freeCount o = L.extents.countP (·.order = o) := by
  have hlist : ∀ o', ((L o').map (Extent.mk · o')).countP (fun b ↦ decide (b.order = o)) =
      if o' = o then (L o').length else 0 := fun o' ↦ by
    rw [List.countP_map]
    split
    · rename_i heq
      exact List.countP_eq_length.2 fun _ _ ↦ decide_eq_true heq
    · rename_i hne
      exact List.countP_eq_zero.2 fun _ _ ↦ by simpa using hne
  rw [Layout.extents, List.countP_flatMap]
  simp only [Function.comp_def, hlist]
  rw [List.sum_map_eq_nsmul_single o _ fun o' hne _ ↦ if_neg hne, if_pos rfl,
    List.nodup_range.count]
  rcases Nat.lt_or_ge o orderCount with ho | ho
  · rw [h.freeCount_eq ho, if_pos (List.mem_range.2 ho), one_nsmul]
  · rw [if_neg fun hmem ↦ Nat.not_lt.2 ho (List.mem_range.1 hmem), zero_nsmul, freeCount,
      list_of_le ho]

/-- **The counter of free frames** adds up the lengths of the free blocks. -/
theorem Threads.freePages_eq (h : p.Threads L) :
    p.freePages = (L.extents.map fun b ↦ 2 ^ b.order).sum := by
  rw [← Extent.length_frames, Layout.extents, List.flatMap_assoc, List.length_flatMap]
  refine congrArg List.sum (List.map_congr_left fun o ho ↦ ?_)
  rw [h.freeCount_eq (List.mem_range.1 ho), Extent.length_frames, List.map_map]
  show (L o).length * 2 ^ o = ((L o).map fun _ ↦ 2 ^ o).sum
  rw [List.map_const', List.sum_replicate_nat]

/-- There are no more free frames than usable ones. -/
theorem Sound.freePages_le {P : Platform} {t : FrameTable} {ledger : List Loan}
    (hs : Sound P t p L ledger) : p.freePages ≤ t.usableCount := by
  rw [hs.threads.freePages_eq]
  exact hs.tiling_free.sum_le_usableCount

/-- A snapshot has the count of each order. -/
theorem stats_blocks (p : Pool) (o : Nat) : p.stats.blocks o = p.freeCount o := by
  rw [Stats.blocks, stats, freeCount, list, Vector.getElem?_map]
  cases p.lists[o]? <;> rfl

/-- **A snapshot** has as many free frames as the pool that it is of. -/
theorem stats_freePages (p : Pool) : p.stats.freePages = p.freePages := by
  refine congrArg List.sum (List.ext_getElem (by simp) fun o ho _ ↦ ?_)
  have ho : o < orderCount := by simpa using ho
  simp [stats, freeCount, list_eq_getElem ho]

end Pool

/-! ### The frames of a run -/

/-- The frames that the requests of a log hand over. -/
def Log.handedOver (log : List (Request × Answer)) : List Nat :=
  (log.map (·.1)).flatMap Request.handedOver

/-- The usable frames of a table that no request of a log hands over. -/
def FrameTable.withheld (t : FrameTable) (log : List (Request × Answer)) : Finset Nat :=
  t.usableFrames \ (Log.handedOver log).toFinset

/-- How many frames the outstanding blocks have together. -/
def State.lentPages (s : State) : Nat := (s.outstanding.map fun b ↦ 2 ^ b.order).sum

section Run

variable {C : Config} {t : FrameTable} {s s' : State} {r : Request} {a : Answer}
  {log : List (Request × Answer)}

/-- **A step** covers the frames that it is handed, and otherwise those that were covered. -/
theorem State.Sound.covered_iff_of_step (hs : s.Sound C.platform t) (hadmissible : r.Admissible s)
    (h : (step C s r).result = .ok (a, s')) (f : Nat) :
    (∃ b ∈ s'.freeBlocks ++ s'.outstanding, f ∈ b) ↔
      f ∈ r.handedOver ∨ ∃ b ∈ s.freeBlocks ++ s.outstanding, f ∈ b := by
  obtain ⟨m', hrun, rfl⟩ := step_eq_ok_iff.1 h
  obtain ⟨L', hs', hcovered⟩ := Pool.Sound.run hs hadmissible.depth_eq_zero hrun
  show (∃ b ∈ m'.pool.layout.extents ++ Loan.extents (r.record C.platform a s.ledger), f ∈ b) ↔ _
  rw [hs'.threads.layout_eq]
  exact hcovered f

/-- **The frames that a run covers** are those that it is handed and those that were covered before,
by induction on the requests. -/
theorem Run.covered_iff (h : Run C s log s') (hs : s.Sound C.platform t) (f : Nat) :
    (∃ b ∈ s'.freeBlocks ++ s'.outstanding, f ∈ b) ↔
      f ∈ Log.handedOver log ∨ ∃ b ∈ s.freeBlocks ++ s.outstanding, f ∈ b := by
  induction h with
  | nil s => exact (or_iff_right List.not_mem_nil).symm
  | cons hadmissible hstep _ ih =>
    rw [ih (hs.of_step hadmissible hstep), hs.covered_iff_of_step hadmissible hstep, Log.handedOver,
      Log.handedOver, List.map_cons, List.flatMap_cons, List.mem_append, or_left_comm, or_assoc]

/-- At the start there is no block. -/
theorem Run.mem_frameSet_iff (ht : t.Fresh) {direct : Option DirectMap}
    (h : Run C (State.start t direct) log s) (f : Nat) :
    f ∈ Extent.frameSet (s.freeBlocks ++ s.outstanding) ↔ f ∈ Log.handedOver log := by
  have hs : (State.start t direct).Sound C.platform t := State.sound_start C.platform direct ht
  rw [Extent.mem_frameSet, h.covered_iff hs, State.freeBlocks_start direct ht]
  simp [State.outstanding, State.start, Loan.extents]

/-- **Conservation.** After a run from a fresh table, the counter of free frames is the number of
frames that lie in a free block. With the frames of the outstanding blocks and those that were never
handed over, they are all the usable frames of the table. So the difference that counts the frames
in no free block is not cut off at zero, and once everything was handed over it counts those of the
outstanding blocks. A snapshot has the free blocks of each order, and the same counters. -/
theorem Run.conserves (ht : t.Initial C.platform) {direct : Option DirectMap}
    (h : Run C (State.start t direct) log s) :
    s.machine.pool.freePages = (Extent.frameSet s.freeBlocks).card ∧
    s.machine.pool.freePages + s.lentPages + (t.withheld log).card = s.machine.pool.total ∧
    s.machine.pool.allocatedPages + s.machine.pool.freePages = s.machine.pool.total ∧
    (t.withheld log = ∅ → s.machine.pool.allocatedPages = s.lentPages) ∧
    (∀ o, s.machine.pool.stats.blocks o = s.freeBlocks.countP (·.order = o)) ∧
    s.machine.pool.stats.freePages = s.machine.pool.freePages ∧
    s.machine.pool.stats.freeKib C.platform = s.machine.pool.freeKib C.platform ∧
    s.machine.pool.stats.allocatedPages = s.machine.pool.allocatedPages := by
  have hs : s.Sound C.platform t := h.sound (State.sound_start C.platform direct ht.fresh)
  have htiling : Tiling t (s.freeBlocks ++ s.outstanding) := hs.tiling
  have hfree : s.machine.pool.freePages = (s.freeBlocks.map fun b ↦ 2 ^ b.order).sum :=
    hs.threads.freePages_eq
  have hcovered : Extent.frameSet (s.freeBlocks ++ s.outstanding) =
      (Log.handedOver log).toFinset := by
    ext f
    rw [h.mem_frameSet_iff ht.fresh, List.mem_toFinset]
  -- The blocks cover what was handed over; the other usable frames are withheld.
  have hsum : s.machine.pool.freePages + s.lentPages + (t.withheld log).card =
      s.machine.pool.total := by
    rw [hs.total, ← FrameTable.card_usableFrames, hfree, State.lentPages, ← List.sum_append_nat,
      ← List.map_append, htiling.sum_eq_card, FrameTable.withheld, ← hcovered, Nat.add_comm]
    exact Finset.card_sdiff_add_card_eq_card htiling.frameSet_subset
  have hstats := s.machine.pool.stats_freePages
  refine ⟨?_, hsum, ?_, fun hnone ↦ ?_, fun o ↦ ?_, hstats, ?_, ?_⟩
  · exact hfree.trans hs.tiling_free.sum_eq_card
  · rw [Pool.allocatedPages]
    omega
  · rw [hnone, Finset.card_empty] at hsum
    rw [Pool.allocatedPages]
    omega
  · rw [Pool.stats_blocks]
    exact hs.threads.freeCount_eq_countP o
  · rw [Stats.freeKib, Stats.freeBytes, hstats, Pool.freeKib]
  · rw [Stats.allocatedPages, hstats]
    rfl

/-- Everything is handed over, then a block of two and one of four are taken and the first comes
back. -/
theorem Run.conserves_replayed :
    ∃ log s, Run ⟨.x86_64, false⟩ (State.start (.ofCount 8) none) log s ∧
      (FrameTable.ofCount 8).withheld log = ∅ ∧ s.lentPages = 4 ∧
      s.machine.pool.allocatedPages = 4 := by
  obtain ⟨s, hreplay, hlent⟩ : ∃ s, replay ⟨.x86_64, false⟩ (State.start (.ofCount 8) none)
      [.release 0 5, .allocOrder 1 {}, .release 5 3, .allocOrder 2 {}, .free ⟨0⟩] = some s ∧
        s.lentPages = 4 :=
    Option.map_eq_some_iff.1 (by decide +kernel : (replay ⟨.x86_64, false⟩ _ _).map _ = some 4)
  obtain ⟨log, hlog, hrun⟩ := exists_run_of_replay hreplay
  have hnone : (FrameTable.ofCount 8).withheld log = ∅ := by
    rw [FrameTable.withheld, Log.handedOver, hlog]
    decide
  obtain ⟨-, -, -, hallocated, -⟩ := Run.conserves (.ofCount 8) hrun
  exact ⟨log, s, hrun, hnone, hlent, (hallocated hnone).trans hlent⟩

end Run

end FramePool
