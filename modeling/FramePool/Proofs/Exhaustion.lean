import FramePool.Proofs.Run

/-!
# Exhaustion: when a request is refused

A pool only looks at which lists are empty. That this is the same as looking at the frames is the
point of merging: as free blocks are never left unmerged, an aligned run of free frames lies in one
free block (`Coalesced.exists_block`), so the lists from its order up cannot all be empty.

Hence **a request is refused exactly when it cannot be met** (`Reachable.refused_iff`), and a
refusal changes nothing.
-/

namespace FramePool

variable {C : Config} {P : Platform} {t : FrameTable} {s : State} {p : Pool} {L : Layout}
  {ledger : List Loan} {order : Nat}

/-- **No list is sufficient** exactly when no aligned run of the length asked for is free. -/
theorem Pool.Sound.firstFit_eq_none_iff (hs : Pool.Sound P t p L ledger) (ho : order < orderCount) :
    p.firstFit order = none ↔ ¬∃ b : Extent, b.order = order ∧ b.Aligned ∧
      b.head + 2 ^ order ≤ t.length ∧ ∀ f ∈ b, ∃ c ∈ L.extents, f ∈ c := by
  have ht := hs.tiling_free
  rw [hs.threads.firstFit_eq_none_iff]
  constructor
  · rintro hempty ⟨b, rfl, hb, -, hfree⟩
    obtain ⟨c, hc, hle, -⟩ := hs.coalesced.exists_block ht hb (Nat.le_of_lt_succ ho) fun f hf ↦
      Extent.depth_pos_iff.2 (hfree f hf)
    have hmem := (Layout.mem_extents.1 hc).2
    rw [hempty c.order hle] at hmem
    cases hmem
  · intro hnone k hle
    by_contra hne
    obtain ⟨h, fs, hk⟩ := List.exists_cons_of_ne_nil hne
    have hmem : h ∈ L k := hk ▸ List.mem_cons_self
    have hc : (⟨h, k⟩ : Extent) ∈ L.extents :=
      Layout.mem_extents.2 ⟨hs.threads.lt_orderCount hmem, hmem⟩
    -- The lowest part of the block is such a run.
    have hpow : 2 ^ order ≤ 2 ^ k := Nat.pow_le_pow_right (by decide) hle
    have hend : h + 2 ^ k ≤ t.length := ht.le_length hc
    refine hnone ⟨⟨h, order⟩, rfl, ?_, Nat.le_trans (Nat.add_le_add_left hpow h) hend,
      fun f hf ↦ ⟨⟨h, k⟩, hc, ?_⟩⟩
    · exact Nat.dvd_trans (Nat.pow_dvd_pow 2 hle) (ht.aligned _ hc)
    · exact Extent.mem_iff.2 ⟨hf.1, Nat.lt_of_lt_of_le hf.2 (Nat.add_le_add_left hpow h)⟩

/-- **Exact exhaustion.** In every reachable state a request of an order that there is runs out of
memory exactly when no aligned run of that many frames of the table is free; a request of any other
order is refused as too large; and whatever is refused, the machine stays as it is. -/
theorem Reachable.refused_iff (h : Reachable C t s) (order : Nat) (flags : AllocFlags) :
    (order < orderCount →
      ((∃ m, (s.machine.allocOrder C order flags).result = .ok (.error .outOfMemory, m)) ↔
        ¬∃ head, 2 ^ order ∣ head ∧ head + 2 ^ order ≤ s.machine.pool.table.length ∧
          ∀ f, head ≤ f → f < head + 2 ^ order → s.Free f)) ∧
    (orderCount ≤ order →
      s.machine.allocOrder C order flags = pure (.error .orderTooLarge, s.machine)) ∧
    ∀ e m, (s.machine.allocOrder C order flags).result = .ok (.error e, m) → m = s.machine := by
  have hs : s.Sound C.platform t := h.sound
  refine ⟨fun ho ↦ ?_, Machine.allocOrder_of_le C s.machine flags, fun e m hm ↦
    (Machine.of_allocOrder_eq_error hs hm).1⟩
  have hfit := hs.firstFit_eq_none_iff ho
  have hrun : (∃ b : Extent, b.order = order ∧ b.Aligned ∧ b.head + 2 ^ order ≤ t.length ∧
      ∀ f ∈ b, ∃ c ∈ s.machine.pool.layout.extents, f ∈ c) ↔
      ∃ head, 2 ^ order ∣ head ∧ head + 2 ^ order ≤ s.machine.pool.table.length ∧
        ∀ f, head ≤ f → f < head + 2 ^ order → s.Free f := by
    rw [hs.alike.length_eq]
    constructor
    · rintro ⟨⟨head, o⟩, rfl, hb, hend, hfree⟩
      exact ⟨head, hb, hend, fun f hle hlt ↦ hfree f ⟨hle, hlt⟩⟩
    · rintro ⟨head, hb, hend, hfree⟩
      exact ⟨⟨head, order⟩, rfl, hb, hend, fun f hf ↦ hfree f hf.1 hf.2⟩
  rw [← hrun, ← hfit]
  constructor
  · rintro ⟨m, hm⟩
    obtain ⟨-, ⟨he, -⟩ | ⟨-, -, hnone⟩⟩ := Machine.of_allocOrder_eq_error hs hm
    · cases he
    · exact hnone
  · intro hnone
    exact ⟨s.machine, Machine.allocOrder_of_firstFit_eq_none flags ho hnone⟩

/-- Two frames are free, but they are no aligned run, so there is no block of two. -/
theorem Reachable.refused_iff_replayed :
    ∃ s, Reachable ⟨.scaled, true⟩ (.ofCount 4) s ∧ s.freeBlocks = [⟨2, 0⟩, ⟨1, 0⟩] ∧
      ∃ m, (s.machine.allocOrder ⟨.scaled, true⟩ 1 {}).result = .ok (.error .outOfMemory, m) := by
  obtain ⟨s, hs, hblocks⟩ := exists_reachable_of_replay (C := ⟨.scaled, true⟩)
    (f := State.freeBlocks) (x := [⟨2, 0⟩, ⟨1, 0⟩]) (.ofCount 4) none
    [.release 1 1, .release 2 1] (by decide +kernel)
  have hfree : ∀ f, s.Free f → f = 2 ∨ f = 1 := fun f hf ↦ by
    simp only [State.Free, hblocks, List.mem_cons, List.not_mem_nil, or_false, exists_eq_or_imp,
      exists_eq_left, Extent.mem_iff, Nat.pow_zero] at hf
    omega
  refine ⟨s, hs, hblocks, ((Reachable.refused_iff hs 1 {}).1 (by decide)).2 ?_⟩
  rintro ⟨head, hdvd, -, hrun⟩
  have h₀ := hfree head (hrun head (Nat.le_refl _) (by omega))
  have h₁ := hfree (head + 1) (hrun (head + 1) (by omega) (by omega))
  omega

end FramePool
