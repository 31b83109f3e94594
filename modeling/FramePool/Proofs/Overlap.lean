import FramePool.Proofs.Events
import FramePool.Proofs.Run

/-!
# A pool that checks itself lets no frame be handed over twice

A caller that hands over frames of a free block breaks the pool, and not where it can be seen at
once: the range is cut into blocks, a block may lie inside a free one without its head being
flagged, and the blocks may merge with the very blocks that they overlap. No such step can hide the
overlap.

What is left of the invariant in the corrupt states in between is that the lists and the table agree
(`Pool.Threads`). That does not mention frames, and it is all that merging needs, so handing over a
block keeps it (`Threads.releaseBlock`) and what it does to the blocks is a regrouping: **each frame
is covered as often as before, and those of the range once more** (`Threads.depth_of_releaseRange`).
A frame of a free block is then covered twice, and what the checker accepts covers none twice.
-/

namespace FramePool

namespace Pool

open FrameTable

variable {C : Config} {P : Platform} {p p' : Pool} {L : Layout} {b : Extent}

/-- **Handing over a block**, wherever it lies, leaves lists and table in agreement. -/
theorem Threads.releaseBlock (hp : p.Threads L) (ho : b.order ≤ topOrder)
    (h : (Pool.releaseBlock P p b.head b.order).result = .ok p') : p'.Threads (L.putBack b) := by
  obtain ⟨-, d, hd, hfree, halloc, g, k, hmerge⟩ := releaseBlock_eq_ok_iff.1 h
  have hloose : p.Loose L b.head := ⟨(hp.free_eq_false_iff hd).1 hfree, d, hd, halloc⟩
  obtain ⟨p₁, hset, hp₁, -, hlabel, hre⟩ := hp.setOrder_loose hloose b.order
  rw [Pool.setOrder, write_eq_ok _ hloose.lt_length, Except.ok.injEq] at hset
  rw [hset] at hmerge
  obtain ⟨_, _, p₂, hmerge₂, hp₂, -⟩ := hp₁.merge (hloose.relabelled hre hloose.unlisted) hlabel ho
    (lt_frameLimit_of_merge hlabel hmerge)
  rw [hmerge, Except.ok.injEq, Prod.mk.injEq, Prod.mk.injEq] at hmerge₂
  obtain ⟨-, -, rfl⟩ := hmerge₂
  exact hp₂

/-- **Handing over blocks**, wherever they lie, regroups them with those on the lists. The induction
is on the blocks. -/
theorem Threads.releaseBlocks {blocks : List (Frame × Nat)} (hp : p.Threads L)
    (hblocks : ∀ b ∈ carved blocks, b.Aligned ∧ b.order ≤ topOrder)
    (h : (Pool.releaseBlocks P blocks p).result = .ok p') :
    ∃ L', p'.Threads L' ∧ Regroup (carved blocks ++ L.extents) L'.extents := by
  induction blocks generalizing p L with
  | nil =>
    obtain rfl : p = p' := Except.ok.inj h
    exact ⟨L, hp, .refl _⟩
  | cons b blocks ih =>
    obtain ⟨head, order⟩ := b
    obtain ⟨⟨hb, ho⟩, hblocks⟩ := List.forall_mem_cons.1 hblocks
    rw [Pool.releaseBlocks, Traced.result_bind] at h
    obtain ⟨p₁, hblock, h⟩ := bind_eq_ok_iff.1 h
    obtain ⟨L', hp', hregroup⟩ := ih (hp.releaseBlock (b := ⟨head, order⟩) ho hblock) hblocks h
    have hput : Regroup (⟨head, order⟩ :: L.extents) (L.putBack ⟨head, order⟩).extents :=
      Layout.regroup_putBack L hb ho
    have hmiddle : (carved ((head, order) :: blocks) ++ L.extents).Perm
        (carved blocks ++ (⟨head, order⟩ :: L.extents)) := List.perm_middle.symm
    exact ⟨L', hp', .trans (.perm hmiddle) ((hput.append_left _).trans hregroup)⟩

/-- **No merge hides a frame**: each is covered as often as before, and those of the range once
more. -/
theorem Threads.releaseBlocks_carve {first count : Nat} (hp : p.Threads L)
    (h : (Pool.releaseBlocks P (carve first count) p).result = .ok p') :
    ∃ L', p'.Threads L' ∧ ∀ f, Extent.depth L'.extents f =
      (if first ≤ f ∧ f < first + count then 1 else 0) + Extent.depth L.extents f := by
  obtain ⟨L', hp', hregroup⟩ := hp.releaseBlocks (fun b hb ↦ mem_carved hb) h
  refine ⟨L', hp', fun f ↦ ?_⟩
  rw [← hregroup.depth_eq, Extent.depth_append]
  exact congrArg (· + _) (depth_carved count first count le_rfl f)

/-- **What a pool that checks itself takes** was covered by no block. -/
theorem Threads.depth_of_releaseRange {first count f : Nat} (hp : p.Threads L)
    (hcheck : C.selfCheck = true) (h : (Pool.releaseRange C p first count).result = .ok p')
    (hf : first ≤ f ∧ f < first + count) : Extent.depth L.extents f = 0 := by
  obtain ⟨-, -, hblocks, hverify⟩ := releaseRange_eq_ok_iff.1 h
  obtain ⟨L', hp', hdepth⟩ := hp.releaseBlocks_carve hblocks
  rw [verify, if_pos hcheck] at hverify
  have hle : Extent.depth p'.layout.extents f ≤ 1 := (of_check hverify).1.tiling.depth_le f
  rw [hp'.layout_eq, hdepth f, if_pos hf] at hle
  omega

end Pool

/-- **Overlaps are detected.** In every reachable state of a pool that checks itself, handing over a
range that has a frame in common with a free block ends with a fault, whichever frame of the block
it is and whether there is an observer or not. -/
theorem Reachable.overlap_detected {C : Config} {t : FrameTable} {s : State}
    (hs : Reachable C t s) (hcheck : C.selfCheck = true) {first count f : Nat}
    (hf : first ≤ f ∧ f < first + count) (hfree : s.Free f) (tracing : Bool) :
    ∃ fault, ((s.machine.releaseRange C first count).run C.platform tracing).2 = .error fault := by
  rcases hrun : ((s.machine.releaseRange C first count).run C.platform tracing).2 with fault | m
  · exact ⟨fault, rfl⟩
  · obtain ⟨p, hrelease, -⟩ := Machine.onPool_eq_ok_iff.1 (Traced.run_eq_ok_iff.1 hrun).1
    have hzero := hs.sound.threads.depth_of_releaseRange hcheck hrelease hf
    exact absurd hfree fun ⟨b, hb, hfb⟩ ↦ Extent.depth_eq_zero_iff.1 hzero b hb hfb

/-- The range overlaps a free block of two frames in the upper one. Its first frame becomes a block
of its own; the other two merge with the block. -/
theorem Reachable.overlap_detected_replayed :
    ∃ s, Reachable ⟨.scaled, true⟩ (.ofCount 8) s ∧ s.freeBlocks = [⟨0, 1⟩] ∧
      ∃ fault, ((s.machine.releaseRange ⟨.scaled, true⟩ 1 3).run .scaled false).2 =
        .error fault := by
  obtain ⟨s, hs, hfree⟩ := exists_reachable_of_replay (C := ⟨.scaled, true⟩)
    (f := State.freeBlocks) (x := [⟨0, 1⟩]) (.ofCount 8) none
    [.release 0 2, .release 4 1, .allocPage {}] (by decide +kernel)
  exact ⟨s, hs, hfree, Reachable.overlap_detected hs rfl (f := 1) (by decide)
    ⟨⟨0, 1⟩, by rw [hfree]; exact List.mem_cons_self, by decide⟩ false⟩

end FramePool
