import FramePool.Proofs.Run

/-!
# Exclusivity: no frame belongs to two blocks

What the callers of a pool rely on: a block that was handed out is theirs alone until they give it
back. It shares no frame with another block that is outstanding and none with a free one, it
consists of usable frames of the table, and the table has its order all the while
(`Reachable.blocks_exclusive`). All of it is read off the invariant of reachable states.
-/

namespace FramePool

variable {C : Config} {P : Platform} {t : FrameTable} {s : State} {l : Loan} {f : Nat}

/-- A frame of an outstanding block is in no free block and in no other outstanding one. -/
theorem State.Sound.exclusive (hs : s.Sound P t) (hl : l ∈ s.ledger) (hf : f ∈ l.toExtent) :
    ¬s.Free f ∧ ∀ b ∈ s.outstanding, f ∈ b → b = l.toExtent := by
  have ht : Tiling t (s.freeBlocks ++ s.outstanding) := hs.tiling
  refine ⟨fun ⟨b, hb, hfb⟩ ↦ ht.not_mem_of_append hb hfb (Loan.mem_extents hl) hf,
    fun b hb hfb ↦ ?_⟩
  exact hs.tiling_lent.eq_of_mem hb (Loan.mem_extents hl) hfb hf

/-- The table of a pool keeps its frames, and the same of them reserved. -/
theorem Reachable.alike (h : Reachable C t s) : t.Alike s.machine.pool.table := h.sound.alike

/-- **Exclusivity.** In every reachable state the outstanding blocks and the free blocks share no
frame, each of them is aligned and consists of usable frames of the table, and the order of an
outstanding block is the one it was handed out with. -/
theorem Reachable.blocks_exclusive (h : Reachable C t s) :
    (s.outstanding ++ s.freeBlocks).Pairwise Extent.Apart ∧
      (∀ b ∈ s.outstanding ++ s.freeBlocks, 2 ^ b.order ∣ b.head ∧
        b.head + 2 ^ b.order ≤ s.machine.pool.table.length ∧
        ∀ f ∈ b, s.machine.pool.table.isReserved f = false) ∧
      ∀ b ∈ s.outstanding, s.machine.pool.orderOf ⟨b.head⟩ = .ok b.order := by
  have hs := h.sound
  have hswap : (s.freeBlocks ++ s.outstanding).Perm (s.outstanding ++ s.freeBlocks) :=
    List.perm_append_comm
  have ht : Tiling t (s.outstanding ++ s.freeBlocks) := hs.tiling.perm hswap
  refine ⟨ht.pairwise, fun b hb ↦ ⟨ht.aligned b hb, ?_, fun f hf ↦ ?_⟩, fun b hb ↦ ?_⟩
  · rw [h.alike.length_eq]
    exact ht.le_length hb
  · exact (hs.usable_of_mem (hswap.mem_iff.2 hb) hf).2
  · obtain ⟨l, hl, rfl⟩ := List.mem_map.1 hb
    exact hs.orderOf hl

/-- Three blocks are handed out between two ranges that are handed over, and the first of them is
given back. The order is noted of what is left. -/
theorem Reachable.blocks_exclusive_replayed :
    ∃ s, Reachable ⟨.scaled, true⟩ (.ofCount 8) s ∧ s.outstanding = [⟨6, 0⟩, ⟨4, 0⟩] ∧
      (s.outstanding ++ s.freeBlocks).Pairwise Extent.Apart ∧
      s.machine.pool.orderOf ⟨6⟩ = .ok 0 := by
  obtain ⟨s, hs, hout⟩ := exists_reachable_of_replay (C := ⟨.scaled, true⟩)
    (f := State.outstanding) (x := [⟨6, 0⟩, ⟨4, 0⟩]) (.ofCount 8) none
    [.release 0 5, .allocOrder 1 {}, .allocRef {}, .release 6 2, .allocPage {}, .free ⟨0⟩]
    (by decide +kernel)
  have hblocks := Reachable.blocks_exclusive hs
  exact ⟨s, hs, hout, hblocks.1, hblocks.2.2 ⟨6, 0⟩ (hout ▸ List.mem_cons_self)⟩

end FramePool
