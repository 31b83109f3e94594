import FramePool.Proofs.Confluence
import FramePool.Proofs.Maximal
import FramePool.Proofs.Progress
import FramePool.Proofs.UsableRuns

/-!
# Booting: from a boot map to a pool

A pool over the table of a boot map is handed the runs of usable frames of the table, one after the
other. They share no frame, so each of them is accepted in its turn, and the frames that are free in
the end are those of the runs (`State.Sound.run_release`). These are the usable frames of the
table.

How the runs are cut into blocks, and which blocks are merged on the way, leaves no trace: free
blocks are never left unmerged, so they are the largest ones that fit into the free frames
(`Layout.Coalesced.mem_iff_maximal`). Hence **a pool that is booted has every usable frame free, in
maximal blocks** (`Pool.ofBootMap_free`).
-/

namespace FramePool

variable {C : Config} {P : Platform} {t : FrameTable} {p : Pool} {L : Layout} {ledger : List Loan}
  {b : Extent} {S : Nat → Prop}

/-! ### Handing over runs -/

section Boot

open FrameTable

/-- The first of some runs whose frames are in no block may be handed over. -/
theorem Request.admissible_of_covers {s : State} {first count : Nat} {runs : List (Frame × Nat)}
    (hnone : ∀ f, Covers ((first, count) :: runs) f →
      ¬∃ b ∈ s.freeBlocks ++ s.outstanding, f ∈ b) :
    (Request.release first count).Admissible s := fun f hf b hb hfb ↦
  hnone f (covers_cons.2 (Or.inl (List.mem_range'_1.1 hf))) ⟨b, hb, hfb⟩

/-- The runs that are left lie above the one that was handed over, so their frames are in no block
yet. -/
theorem State.Sound.not_covered_of_release {s s' : State} {a : Answer} {first count : Nat}
    {runs : List (Frame × Nat)} (hs : s.Sound C.platform t)
    (hgap : ∀ run ∈ runs, first + count < run.1)
    (hnone : ∀ f, Covers ((first, count) :: runs) f →
      ¬∃ b ∈ s.freeBlocks ++ s.outstanding, f ∈ b)
    (hstep : (step C s (.release first count)).result = .ok (a, s')) :
    ∀ f, Covers runs f → ¬∃ b ∈ s'.freeBlocks ++ s'.outstanding, f ∈ b := by
  intro f hf
  rw [hs.covered_iff_of_step (Request.admissible_of_covers hnone) hstep]
  refine not_or_intro (fun hover ↦ ?_) (hnone f (covers_cons.2 (Or.inr hf)))
  obtain ⟨run, hmem, hle, -⟩ := hf
  have hlt : first + count < run.1 := hgap run hmem
  exact Nat.lt_irrefl f (Nat.lt_trans (List.mem_range'_1.1 hover).2 (Nat.lt_of_lt_of_le hlt hle))

/-- **Handing over runs** that ascend and whose frames are in no block is a run of the machine. -/
theorem State.Sound.run_release {s : State} {runs : List (Frame × Nat)} (hs : s.Sound C.platform t)
    (hgaps : runs.Pairwise fun a b ↦ a.1 + a.2 < b.1)
    (hnone : ∀ f, Covers runs f → ¬∃ b ∈ s.freeBlocks ++ s.outstanding, f ∈ b)
    (h : (Pool.releaseRanges C runs s.machine.pool).result = .ok p) :
    Run C s (releasing runs) ⟨⟨p, s.machine.directMap⟩, s.ledger⟩ := by
  induction runs generalizing s with
  | nil =>
    obtain rfl := Except.ok.inj h
    exact .nil s
  | cons run runs ih =>
    obtain ⟨hgap, hgaps⟩ := List.pairwise_cons.1 hgaps
    have hadmissible := Request.admissible_of_covers hnone
    rw [Pool.releaseRanges, Traced.result_bind] at h
    obtain ⟨p₁, hrelease, hrest⟩ := bind_eq_ok_iff.1 h
    have hstep : (step C s (.release run.1 run.2)).result =
        .ok (.done, ⟨⟨p₁, s.machine.directMap⟩, s.ledger⟩) :=
      step_eq_ok_iff.2 ⟨_, Machine.done_onPool hrelease, rfl⟩
    exact .cons hadmissible hstep (ih (hs.of_step hadmissible hstep) hgaps
      (hs.not_covered_of_release hgap hnone hstep) hrest)

/-- Handing over such runs of usable frames succeeds, if all of the table has addresses. -/
theorem State.Sound.exists_releaseRanges {s : State} {runs : List (Frame × Nat)}
    (hs : s.Sound C.platform t) (hfits : t.length ≤ C.platform.frameLimit)
    (hpos : ∀ run ∈ runs, 0 < run.2) (hgaps : runs.Pairwise fun a b ↦ a.1 + a.2 < b.1)
    (husable : ∀ f, Covers runs f → f < t.length ∧ t.isReserved f = false)
    (hnone : ∀ f, Covers runs f → ¬∃ b ∈ s.freeBlocks ++ s.outstanding, f ∈ b) :
    ∃ p, (Pool.releaseRanges C runs s.machine.pool).result = .ok p := by
  induction runs generalizing s with
  | nil => exact ⟨s.machine.pool, rfl⟩
  | cons run runs ih =>
    obtain ⟨(first : Nat), (count : Nat)⟩ := run
    obtain ⟨hcount, hpos⟩ := List.forall_mem_cons.1 hpos
    obtain ⟨hgap, hgaps⟩ := List.pairwise_cons.1 hgaps
    have hrun : ∀ f : Nat, first ≤ f → f < first + count → f < t.length ∧ t.isReserved f = false :=
      fun f hle hlt ↦ husable f (covers_cons.2 (Or.inl ⟨hle, hlt⟩))
    have hadmissible := Request.admissible_of_covers hnone
    have hlen : first + count ≤ t.length := by
      have hlast := (hrun (first + (count - 1)) (Nat.le_add_right _ _)
        (Nat.add_lt_add_left (Nat.sub_one_lt_of_lt hcount) first)).1
      have hcount : 0 < count := hcount
      omega
    obtain ⟨p₁, hrelease⟩ := Pool.Sound.exists_releaseRange hs hfits hlen
      (fun f hle hlt ↦ hadmissible.depth_eq_zero f (List.mem_range'_1.2 ⟨hle, hlt⟩))
      fun f hle hlt ↦ (hrun f hle hlt).2
    have hstep : (step C s (.release first count)).result =
        .ok (.done, ⟨⟨p₁, s.machine.directMap⟩, s.ledger⟩) :=
      step_eq_ok_iff.2 ⟨_, Machine.done_onPool hrelease, rfl⟩
    obtain ⟨p, hrest⟩ := ih (hs.of_step hadmissible hstep) hpos hgaps
      (fun f hf ↦ husable f (covers_cons.2 (Or.inr hf)))
      (hs.not_covered_of_release hgap hnone hstep)
    exact ⟨p, by rw [Pool.releaseRanges, Traced.result_bind, hrelease, ok_bind, hrest]⟩

/-- Booting shows no address. -/
theorem Pool.legible_ofBootMap (P : Platform) (selfCheck : Bool) (map : List Region) :
    (Pool.ofBootMap ⟨P, selfCheck⟩ map).Legible P :=
  (within_ofBootMap (fun _ _ _ ↦ Event.forall_shown_of_nil rfl)
    (fun _ _ ↦ Event.forall_shown_of_nil rfl) fun _ _ _ _ ↦ Event.forall_shown_of_nil rfl).legible

/-! ### Booting -/

/-- Handing over the runs of a fresh table is a run of the machine over it. -/
theorem Pool.run_releaseRanges (ht : t.Fresh)
    (h : (releaseRanges C t.usableRuns (ofTable t)).result = .ok p) :
    Run C (State.start t none) (releasing t.usableRuns) ⟨⟨p, none⟩, []⟩ :=
  (State.sound_start C.platform none ht).run_release (ascending_usableRuns t).gaps
    (fun f _ ↦ State.not_covered_start none ht f) h

/-- **A pool that is booted is reachable**: a boot map whose table fits into the physical address
space yields a pool, with an observer or without one, and what its requests were are the runs of the
table. -/
theorem Pool.exists_ofBootMap {map : List Region}
    (ht : (FrameTable.ofBootMap C.platform map).result = .ok t)
    (hfits : t.length * C.platform.pageSize ≤ C.platform.physicalLimit) :
    ∃ p, (∀ tracing, ((Pool.ofBootMap C map).run C.platform tracing).2 = .ok p) ∧
      Run C (State.start t none) (releasing t.usableRuns) ⟨⟨p, none⟩, []⟩ := by
  have hfresh : t.Fresh := (FrameTable.Initial.ofBootMap ht).fresh
  have hascending := ascending_usableRuns t
  obtain ⟨p, hrelease⟩ := (State.sound_start C.platform none hfresh).exists_releaseRanges
    (length_le_frameLimit hfits) hascending.pos hascending.gaps (fun f ↦ covers_usableRuns_iff.1)
    fun f _ ↦ State.not_covered_start none hfresh f
  have hrelease : (releaseRanges C t.usableRuns (ofTable t)).result = .ok p := hrelease
  refine ⟨p, fun tracing ↦ Traced.run_eq_ok_iff.2 ⟨?_, fun _ ↦
    legible_ofBootMap C.platform C.selfCheck map⟩, run_releaseRanges hfresh hrelease⟩
  simp only [Pool.ofBootMap, Traced.result_bind, ht, ok_bind, hrelease, Traced.result_emit,
    Traced.result_pure]

/-- **Booting.** Let a boot map describe a table that fits into the physical address space. Then a
pool over it is booted without a fault, with an observer or without one. Its free frames are the
frames of the table that are not reserved, and its free blocks are the maximal blocks of such
frames. It counts all of them free and none allocated, and the checker finds nothing wrong. -/
theorem Pool.ofBootMap_free {map : List Region}
    (ht : (FrameTable.ofBootMap C.platform map).result = .ok t)
    (hfits : t.length * C.platform.pageSize ≤ C.platform.physicalLimit) :
    ∃ p, (∀ tracing, ((Pool.ofBootMap C map).run C.platform tracing).2 = .ok p) ∧
      (∀ f, (∃ b ∈ p.layout.extents, f ∈ b) ↔ f < t.length ∧ t.isReserved f = false) ∧
      (∀ b, b ∈ p.layout.extents ↔ b.Maximal fun f ↦ f < t.length ∧ t.isReserved f = false) ∧
      p.freePages = p.total ∧ p.allocatedPages = 0 ∧ p.check C.platform = .ok () := by
  obtain ⟨p, hboot, hrun⟩ := Pool.exists_ofBootMap ht hfits
  have hfresh : t.Fresh := (FrameTable.Initial.ofBootMap ht).fresh
  have hstart := State.sound_start C.platform none hfresh
  have hs : Pool.Sound C.platform t p p.layout [] := hrun.sound hstart
  have hfree : ∀ f, (∃ b ∈ p.layout.extents, f ∈ b) ↔ f < t.length ∧ t.isReserved f = false :=
    fun f ↦ by
      rw [← covers_usableRuns_iff]
      refine (hrun.free_after_release hstart f).trans (or_iff_left fun ⟨b, hb, hf⟩ ↦ ?_)
      exact State.not_covered_start none hfresh f ⟨b, List.mem_append_left _ hb, hf⟩
  have hfreePages : p.freePages = p.total := by
    have hset : Extent.frameSet p.layout.extents = t.usableFrames := by
      ext f
      rw [Extent.mem_frameSet, FrameTable.mem_usableFrames, hfree]
    rw [hs.threads.freePages_eq, hs.tiling_free.sum_eq_card, hset, FrameTable.card_usableFrames,
      hs.total]
  refine ⟨p, hboot, hfree, fun b ↦ ?_, hfreePages, ?_, hs.check⟩
  · exact hs.coalesced.mem_iff_maximal hs.tiling_free fun f ↦ (hfree f).symm
  · rw [allocatedPages, hfreePages, Nat.sub_self]

/-- Nine frames of free memory, the last of them cut short, with a device in the fourth. -/
theorem Pool.ofBootMap_free_booted :
    ∃ t p, (FrameTable.ofBootMap .scaled [⟨0, 140, .free⟩, ⟨50, 4, .reserved⟩]).result = .ok t ∧
      (∀ tracing, ((Pool.ofBootMap ⟨.scaled, true⟩ [⟨0, 140, .free⟩, ⟨50, 4, .reserved⟩]).run
        .scaled tracing).2 = .ok p) ∧
      (∃ b ∈ p.layout.extents, 2 ∈ b) ∧ (¬∃ b ∈ p.layout.extents, 3 ∈ b) ∧
      p.freePages = p.total := by
  obtain ⟨t, ht, hx⟩ : ∃ t,
      (FrameTable.ofBootMap .scaled [⟨0, 140, .free⟩, ⟨50, 4, .reserved⟩]).result = .ok t ∧
      (t.length = 8 ∧ t.isReserved 2 = false ∧ t.isReserved 3 = true) := ⟨_, rfl, by decide⟩
  obtain ⟨hlength, h₂, h₃⟩ := hx
  obtain ⟨p, hboot, hfree, -, hpages, -⟩ :=
    Pool.ofBootMap_free (C := ⟨.scaled, true⟩) ht (by rw [hlength]; decide)
  refine ⟨t, p, ht, hboot, (hfree 2).2 ⟨by omega, h₂⟩, fun hmem ↦ ?_, hpages⟩
  rw [((hfree 3).1 hmem).2] at h₃
  cases h₃

end Boot

end FramePool
