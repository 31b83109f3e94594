import FramePool.Proofs.Run

/-!
# Confluence: the free frames determine the free blocks

A coalesced layout is determined by the frames that its blocks cover (`Coalesced.mem_iff`), so two
sound states with the same free frames have the same free blocks, whatever requests led to them and
in whatever order their lists are (`State.Sound.sameBlocks`).

That leaves the question which frames are free after a run. Giving back blocks frees their frames
and no others (`State.Sound.free_after_free`), handing over ranges the frames of the ranges
(`Run.free_after_release`); neither depends on the order. Blocks that are outstanding and not
referenced can be given back in any order, without a fault (`State.Sound.exists_run_free`).
-/

namespace FramePool

/-- The same free blocks of each order, though their lists may be in another order. -/
def State.SameBlocks (s s' : State) : Prop :=
  ∀ o, (∀ f, f ∈ s.machine.pool.layout o ↔ f ∈ s'.machine.pool.layout o) ∧
    s.machine.pool.freeCount o = s'.machine.pool.freeCount o

section

variable {C : Config} {P P' : Platform} {t t' : FrameTable} {s s' s'' : State} {a : Answer}
  {log : List (Request × Answer)}

/-! ### Uniqueness -/

/-- **The free frames determine the free blocks.** -/
theorem State.Sound.sameBlocks (hs : s.Sound P t) (hs' : s'.Sound P' t')
    (hfree : ∀ f, s.Free f ↔ s'.Free f) : s.SameBlocks s' := by
  have ht : Tiling t s.freeBlocks := hs.tiling_free
  have ht' : Tiling t' s'.freeBlocks := hs'.tiling_free
  have hdepth : ∀ f, 0 < Extent.depth s.freeBlocks f ↔ 0 < Extent.depth s'.freeBlocks f :=
    fun f ↦ by rw [Extent.depth_pos_iff, Extent.depth_pos_iff]; exact hfree f
  have hblocks : ∀ b : Extent, b.Aligned → b.order ≤ topOrder →
      (b ∈ s.freeBlocks ↔ b ∈ s'.freeBlocks) := fun b hb ho ↦ by
    rw [State.freeBlocks, State.freeBlocks, hs.coalesced.mem_iff ht hb ho,
      hs'.coalesced.mem_iff ht' hb ho]
    simp only [State.freeBlocks] at hdepth
    simp only [hdepth]
  intro o
  rcases Nat.lt_or_ge o orderCount with ho | ho
  · have hmem : ∀ f, f ∈ s.machine.pool.layout o ↔ f ∈ s'.machine.pool.layout o := fun f ↦ by
      have hiff : ∀ b : Extent, b.order = o → (b ∈ s.freeBlocks ↔ b ∈ s'.freeBlocks) := by
        rintro b rfl
        constructor
        · intro hb
          exact (hblocks b (ht.aligned b hb) (Nat.le_of_lt_succ ho)).1 hb
        · intro hb
          exact (hblocks b (ht'.aligned b hb) (Nat.le_of_lt_succ ho)).2 hb
      have hf := hiff ⟨f, o⟩ rfl
      simp only [State.freeBlocks, Layout.mem_extents, ho, true_and] at hf
      exact hf
    refine ⟨hmem, ?_⟩
    have hnodup := (hs.threads.represents o ho).nodup
    have hnodup' := (hs'.threads.represents o ho).nodup
    rw [hs.threads.freeCount_eq ho, hs'.threads.freeCount_eq ho]
    exact ((List.perm_ext_iff_of_nodup hnodup hnodup').2 hmem).length_eq
  · refine ⟨fun f ↦ ?_, ?_⟩
    · rw [hs.threads.bounded o ho, hs'.threads.bounded o ho]
    · show (s.machine.pool.list o).len = (s'.machine.pool.list o).len
      rw [Pool.list_of_le ho, Pool.list_of_le ho]

/-! ### Giving blocks back -/

/-- **Giving back** an outstanding block without references is answered, frees its frames and takes
it out of the ledger. -/
theorem State.Sound.exists_step_free {l : Loan} (hs : s.Sound C.platform t) (hl : l ∈ s.ledger)
    (hrefs : l.refs = 0) :
    ∃ s', (step C s (.free ⟨l.head⟩)).result = .ok (.done, s') ∧ s'.Sound C.platform t ∧
      s'.ledger = Loan.settle l.head s.ledger ∧ ∀ f, s'.Free f ↔ f ∈ l.toExtent ∨ s.Free f := by
  obtain ⟨p', hfree, hs'⟩ := Pool.Sound.free (C := C) hs hl hrefs
  have hstep : (step C s (.free ⟨l.head⟩)).result =
      .ok (.done, ⟨⟨p', s.machine.directMap⟩, Loan.settle l.head s.ledger⟩) :=
    step_eq_ok_iff.2 ⟨_, Machine.done_onPool hfree, rfl⟩
  refine ⟨_, hstep, State.sound_of_layout hs', rfl, fun f ↦ ?_⟩
  show (∃ b ∈ p'.layout.extents, f ∈ b) ↔ _
  rw [hs'.threads.layout_eq]
  exact Pool.Sound.covered_putBack_iff hs hl f

/-- The requests that give back the blocks at some frames, with their answers. -/
def freeing (fs : List Frame) : List (Request × Answer) := fs.map fun f ↦ (.free ⟨f⟩, .done)

/-- **Blocks can be given back in any order**: those of a list of outstanding blocks without
references, one after the other. The frames that are free afterwards are those before and those of
the blocks. -/
theorem State.Sound.exists_run_free {ls : List Loan} (hs : s.Sound C.platform t) (hnodup : ls.Nodup)
    (hls : ∀ l ∈ ls, l ∈ s.ledger ∧ l.refs = 0) :
    ∃ s', Run C s (freeing (ls.map (·.head))) s' ∧ s'.Sound C.platform t ∧
      ∀ f, s'.Free f ↔ (∃ l ∈ ls, f ∈ l.toExtent) ∨ s.Free f := by
  induction ls generalizing s with
  | nil => exact ⟨s, .nil s, hs, fun f ↦ by simp⟩
  | cons l ls ih =>
    obtain ⟨hl, hls⟩ := List.forall_mem_cons.1 hls
    obtain ⟨hnotmem, hnodup⟩ := List.nodup_cons.1 hnodup
    obtain ⟨s₁, hstep, hs₁, hledger, hfree₁⟩ := hs.exists_step_free hl.1 hl.2
    have ht := hs.tiling_lent
    obtain ⟨s₂, hrun, hs₂, hfree₂⟩ := ih hs₁ hnodup fun k hk ↦ by
      refine ⟨?_, (hls k hk).2⟩
      rw [hledger, Loan.mem_settle]
      refine ⟨(hls k hk).1, fun hhead ↦ hnotmem ?_⟩
      exact Loan.eq_of_head ht hl.1 (hls k hk).1 hhead ▸ hk
    refine ⟨s₂, .cons (Request.admissible_of_nil rfl) hstep hrun, hs₂, fun f ↦ ?_⟩
    rw [hfree₂, hfree₁]
    simp only [List.mem_cons, or_and_right, exists_or, exists_eq_left]
    exact or_left_comm.trans or_assoc.symm

/-! ### Handing over ranges -/

/-- The requests that hand over some ranges, with their answers. -/
def releasing (ranges : List (Frame × Nat)) : List (Request × Answer) :=
  ranges.map fun range ↦ (.release range.1 range.2, .done)

/-- Handing over a range frees its frames and no others. -/
theorem State.Sound.free_after_release {first count : Nat} (hs : s.Sound C.platform t)
    (hadmissible : (Request.release first count).Admissible s)
    (h : (step C s (.release first count)).result = .ok (a, s')) (f : Nat) :
    s'.Free f ↔ (first ≤ f ∧ f < first + count) ∨ s.Free f := by
  obtain ⟨m', hrun, rfl⟩ := step_eq_ok_iff.1 h
  obtain ⟨p, hrelease, -, rfl⟩ := Machine.of_done_onPool hrun
  obtain ⟨L', hs', hfree⟩ := Pool.Sound.releaseRange (C := C) hs (fun g hle hlt ↦
    hadmissible.depth_eq_zero g (List.mem_range'_1.2 ⟨hle, hlt⟩)) hrelease
  show (∃ b ∈ p.layout.extents, f ∈ b) ↔ _
  rw [hs'.threads.layout_eq]
  exact hfree f

/-- **Handing over ranges** frees the frames of the ranges and no others, by induction on the
ranges. -/
theorem Run.free_after_release {ranges : List (Frame × Nat)} (hs : s.Sound C.platform t)
    (h : Run C s (releasing ranges) s') (f : Nat) :
    s'.Free f ↔ (∃ range ∈ ranges, range.1 ≤ f ∧ f < range.1 + range.2) ∨ s.Free f := by
  induction ranges generalizing s with
  | nil =>
    cases h
    simp
  | cons range ranges ih =>
    cases h with
    | cons hadmissible hstep hrun =>
      rw [ih (hs.of_step hadmissible hstep) hrun, hs.free_after_release hadmissible hstep]
      simp only [List.mem_cons, or_and_right, exists_or, exists_eq_left]
      exact or_left_comm.trans or_assoc.symm

end

/-! ### Confluence -/

/-- **Confluence.** Reachable states with the same free frames have the same free blocks of each
order, and as many of them. Hence it does not matter in which order outstanding blocks without
references are given back, which always succeeds, nor into which ranges the frames that are handed
over are divided and in which order the ranges come. -/
theorem Reachable.confluent {C C' : Config} {t t' : FrameTable} {s s' : State}
    (h : Reachable C t s) (h' : Reachable C' t' s') :
    ((∀ f, s.Free f ↔ s'.Free f) → s.SameBlocks s') ∧
    (∀ ls ls' : List Loan, ls.Perm ls' → ls.Nodup → (∀ l ∈ ls, l ∈ s.ledger ∧ l.refs = 0) →
      ∃ s₁ s₂, Run C s (freeing (ls.map (·.head))) s₁ ∧ Run C s (freeing (ls'.map (·.head))) s₂ ∧
        s₁.SameBlocks s₂) ∧
    ∀ (ranges ranges' : List (Frame × Nat)) (s₁ s₂ : State),
      (∀ f, (∃ range ∈ ranges, range.1 ≤ f ∧ f < range.1 + range.2) ↔
        ∃ range ∈ ranges', range.1 ≤ f ∧ f < range.1 + range.2) →
      Run C s (releasing ranges) s₁ → Run C s (releasing ranges') s₂ → s₁.SameBlocks s₂ := by
  refine ⟨h.sound.sameBlocks h'.sound, fun ls ls' hperm hnodup hls ↦ ?_,
    fun ranges ranges' s₁ s₂ hsame hrun₁ hrun₂ ↦ ?_⟩
  · obtain ⟨s₁, hrun₁, hs₁, hfree₁⟩ := h.sound.exists_run_free hnodup hls
    obtain ⟨s₂, hrun₂, hs₂, hfree₂⟩ := h.sound.exists_run_free (hperm.nodup_iff.1 hnodup)
      fun l hl ↦ hls l (hperm.mem_iff.2 hl)
    refine ⟨s₁, s₂, hrun₁, hrun₂, hs₁.sameBlocks hs₂ fun f ↦ ?_⟩
    rw [hfree₁, hfree₂]
    simp only [hperm.mem_iff]
  · refine (h.run hrun₁).sound.sameBlocks (h.run hrun₂).sound fun f ↦ ?_
    rw [hrun₁.free_after_release h.sound, hrun₂.free_after_release h.sound, hsame f]

/-- Of four frames the lower two are handed out, or only the upper two are handed over; and the two
blocks that were handed out can be given back in either order. -/
theorem Reachable.confluent_replayed :
    ∃ s s', Reachable ⟨.scaled, true⟩ (.ofCount 4) s ∧ Reachable ⟨.scaled, false⟩ (.ofCount 4) s' ∧
      s.SameBlocks s' ∧
      ∃ s₁ s₂, Run ⟨.scaled, true⟩ s (freeing [0, 1]) s₁ ∧
        Run ⟨.scaled, true⟩ s (freeing [1, 0]) s₂ ∧ s₁.SameBlocks s₂ := by
  obtain ⟨s, hs, hx⟩ := exists_reachable_of_replay (C := ⟨.scaled, true⟩)
    (f := fun s ↦ (s.freeBlocks, s.ledger)) (x := ([⟨2, 1⟩], [⟨⟨1, 0⟩, 0⟩, ⟨⟨0, 0⟩, 0⟩]))
    (.ofCount 4) none [.release 0 4, .allocOrder 0 {}, .allocOrder 0 {}] (by decide +kernel)
  obtain ⟨s', hs', hx'⟩ := exists_reachable_of_replay (C := ⟨.scaled, false⟩)
    (f := State.freeBlocks) (x := [⟨2, 1⟩]) (.ofCount 4) none [.release 3 1, .release 2 1]
    (by decide +kernel)
  obtain ⟨hblocks, hledger⟩ := Prod.mk.inj hx
  obtain ⟨hunique, hfreeing, -⟩ := Reachable.confluent hs hs'
  refine ⟨s, s', hs, hs', hunique fun f ↦ ?_, ?_⟩
  · show (∃ b ∈ s.freeBlocks, f ∈ b) ↔ ∃ b ∈ s'.freeBlocks, f ∈ b
    rw [hblocks, hx']
  · exact hfreeing [⟨⟨0, 0⟩, 0⟩, ⟨⟨1, 0⟩, 0⟩] [⟨⟨1, 0⟩, 0⟩, ⟨⟨0, 0⟩, 0⟩] (.swap ..) (by decide)
      (by rw [hledger]; decide)

end FramePool
