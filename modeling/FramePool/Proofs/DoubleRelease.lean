import FramePool.Proofs.Handover
import FramePool.Proofs.Overlap

/-!
# What a pool that does not check itself makes of free memory

A free block is flagged on its head and nowhere else. So when a block is handed over, the flag of
its own head is all that is looked at. If that is the head of a free block the block is refused; any
other frame of a free block is taken for one that was never handed over, and from then on it is in
two free blocks.

That nothing else stops such a hand-over takes an argument, since it goes on in a pool that is
already broken. The lists and the table still agree (`Pool.Threads`), and that is enough for the
loop. The heads on the lists afterwards are the merged block's, which starts no higher than the
block that was handed over, and some of those before (`Layout.mem_of_mem_putBack`). Hence a frame
further on that headed no free block still heads none, and its turn comes without a fault
(`Pool.Threads.exists_releaseBlocks`).

`Reachable.double_release` says how far the check goes: it finds just those ranges that start with
the head of a free block. A range that starts further on is never refused on account of its start,
and if no block starts in it, the free part of it is in two free blocks afterwards.
-/

namespace FramePool

/-- A frame behind a block that is put back is on the lists that it was on, if any. -/
theorem Layout.mem_of_mem_putBack {L : Layout} {b : Extent} {g o : Nat}
    (hg : g ∈ L.putBack b o) (hlt : b.head < g) : g ∈ L o := by
  refine (mem_merge hg).resolve_left fun heq ↦ ?_
  obtain ⟨hle, -⟩ := merge_fst_le (topOrder - b.order) b.order b.head L
  rw [← heq] at hle
  exact Nat.not_lt.2 hle hlt

namespace Pool

open FrameTable Loan

variable {C : Config} {P : Platform} {t : FrameTable} {p p' : Pool} {L : Layout}
  {ledger : List Loan} {b : Extent} {f g k first count : Nat} {fault : Fault}

/-! ### Blocks -/

/-- **A block of usable frames whose head is loose** is taken, wherever it lies. -/
theorem Threads.exists_releaseBlock (hp : p.Threads L) (hb : b.Addressable P)
    (husable : ∀ f ∈ b, p.table.isReserved f = false) (hloose : p.Loose L b.head) :
    ∃ p', (Pool.releaseBlock P p b.head b.order).result = .ok p' ∧ p'.Threads (L.putBack b) ∧
      p.table.Relabelled (fun f ↦ f = b.head ∨ ∃ o, f ∈ L o) p'.table := by
  obtain ⟨d, hd, halloc⟩ := hloose.unallocated
  have hfree : d.free = false := (hp.free_eq_false_iff hd).2 hloose.unlisted
  obtain ⟨p₁, hset, hp₁, -, hlabel, hre₁⟩ := hp.setOrder_loose hloose b.order
  rw [Pool.setOrder, write_eq_ok _ hloose.lt_length, Except.ok.injEq] at hset
  obtain ⟨g, k, p₂, hmerge, hp₂, -, hre₂⟩ :=
    hp₁.merge (hloose.relabelled hre₁ hloose.unlisted) hlabel hb.1 hb.2
  refine ⟨p₂, ?_, hp₂, (hre₁.mono fun _ ↦ Or.inl).trans hre₂⟩
  rw [← hset] at hmerge
  exact releaseBlock_eq_ok_iff.2
    ⟨fun f hle hlt ↦ husable f ⟨hle, hlt⟩, d, hd, hfree, halloc, g, k, hmerge⟩

/-- **What a block is refused for**: a reserved frame in it, or its head. -/
theorem Threads.of_releaseBlock_eq_error (hp : p.Threads L) (hb : b.Addressable P)
    (hlt : b.head < p.table.length)
    (h : (Pool.releaseBlock P p b.head b.order).result = .error fault) :
    (∃ g ∈ b, fault = .releaseReserved g) ∨ (fault = .releaseFree b.head ∧ ∃ o, b.head ∈ L o) ∨
      fault = .releaseAllocated b.head := by
  obtain ⟨d, hd⟩ := Option.isSome_iff_exists.1 (get?_isSome.2 hlt)
  rcases hrequire : requireUsable p.table b.head (2 ^ b.order) with fault' | u
  · obtain ⟨g, rfl, hle, hlt, -⟩ := requireUsable_eq_error_iff.1 hrequire
    rw [Pool.releaseBlock, Traced.result_bind, Traced.result_liftM, hrequire, error_bind,
      Except.error.injEq] at h
    exact Or.inl ⟨g, ⟨hle, hlt⟩, h.symm⟩
  · by_cases hlisted : ∃ o, b.head ∈ L o
    · have hfree : ¬d.free = false := fun hfree ↦
        hlisted.elim ((hp.free_eq_false_iff hd).1 hfree)
      simp only [Pool.releaseBlock, Traced.result_bind, Traced.result_liftM, hrequire, ok_bind,
        read_eq_ok_iff.2 hd, require_of_neg hfree, error_bind, Except.error.injEq] at h
      exact Or.inr (Or.inl ⟨h.symm, hlisted⟩)
    · have hunlisted : ∀ o, b.head ∉ L o := not_exists.1 hlisted
      have hfree : d.free = false := (hp.free_eq_false_iff hd).2 hunlisted
      rcases halloc : d.allocated with - | -
      · obtain ⟨p', hrelease, -⟩ := hp.exists_releaseBlock hb
          (fun f hf ↦ requireUsable_eq_ok_iff.1 hrequire f hf.1 hf.2) ⟨hunlisted, d, hd, halloc⟩
        rw [h] at hrelease
        cases hrelease
      · have hkept : ¬d.allocated = false := by simp [halloc]
        simp only [Pool.releaseBlock, Traced.result_bind, Traced.result_liftM, hrequire, ok_bind,
          read_eq_ok_iff.2 hd, require_of_pos hfree, require_of_neg hkept, error_bind,
          Except.error.injEq] at h
        exact Or.inr (Or.inr h.symm)

/-- **A block that starts with the head of a free block** is refused, and for that unless a frame of
it is reserved. -/
theorem Threads.releaseBlock_listed (hp : p.Threads L) (hf : f ∈ L k) (o : Nat) :
    ∃ fault, (Pool.releaseBlock P p f o).result = .error fault ∧
      ((∀ g, f ≤ g → g < f + 2 ^ o → p.table.isReserved g = false) → fault = .releaseFree f) := by
  obtain ⟨d, hd, hfree, -⟩ := hp.get? hf
  have hflag : ¬d.free = false := by simp [hfree]
  rw [Pool.releaseBlock, Traced.result_bind, Traced.result_liftM]
  rcases hrequire : requireUsable p.table f (2 ^ o) with fault | u
  · refine ⟨fault, rfl, fun husable ↦ ?_⟩
    have hok : requireUsable p.table f (2 ^ o) = .ok () := requireUsable_eq_ok_iff.2 husable
    rw [hok] at hrequire
    cases hrequire
  · refine ⟨.releaseFree f, ?_, fun _ ↦ rfl⟩
    simp only [Traced.result_bind, Traced.result_liftM, ok_bind, read_eq_ok_iff.2 hd,
      require_of_neg hflag, error_bind]

/-! ### Ranges -/

/-- The block in front of a range in the physical address space has an address. -/
theorem addressable_front (hcount : 0 < count) (hfits : first + count ≤ P.frameLimit) :
    (⟨first, fittingOrder first count⟩ : Extent).Addressable P :=
  ⟨(fittingOrder_spec hcount).1, fun _ ↦ Nat.lt_of_lt_of_le (Nat.lt_add_of_pos_right hcount) hfits⟩

/-- **A range of loose frames** is taken, whatever blocks they lie in. The induction is on the
frames that are left; what carries it is that they stay loose. -/
theorem Threads.exists_releaseBlocks (hp : p.Threads L) (hfits : first + count ≤ P.frameLimit)
    (husable : ∀ f, first ≤ f → f < first + count → p.table.isReserved f = false)
    (hloose : ∀ f, first ≤ f → f < first + count → p.Loose L f) :
    ∃ p', (Pool.releaseBlocks P (carve first count) p).result = .ok p' := by
  induction count using Nat.strong_induction_on generalizing first p L with
  | _ count ih =>
    rcases Nat.eq_zero_or_pos count with rfl | hcount
    · exact ⟨p, rfl⟩
    · obtain ⟨-, -, hfit⟩ := fittingOrder_spec (f := first) hcount
      have hpos := Nat.two_pow_pos (fittingOrder first count)
      obtain ⟨p₁, hblock, hp₁, hre⟩ := hp.exists_releaseBlock (addressable_front hcount hfits)
        (fun f hf ↦ husable f hf.1 (Nat.lt_of_lt_of_le hf.2 (Nat.add_le_add_left hfit first)))
        (hloose first (Nat.le_refl first) (by omega))
      rw [releaseBlocks_carve_of_pos hcount, hblock, ok_bind]
      refine ih _ (by omega) hp₁ (by omega) (fun f hle hlt ↦ ?_) fun f hle hlt ↦ ?_
      · rw [hre.isReserved_eq]
        exact husable f (by omega) (by omega)
      · -- Merging lists one new head at most, and it is not behind the block.
        have hf := hloose f (by omega) (by omega)
        have hbehind : first < f := by omega
        exact hf.relabelled hre fun o hmem ↦
          hf.unlisted o (Layout.mem_of_mem_putBack hmem hbehind)

/-- **A range is not refused for a frame** before it, nor for its first frame if that heads no free
block. -/
theorem Threads.releaseBlocks_ne_releaseFree (hp : p.Threads L)
    (hfits : first + count ≤ P.frameLimit) (hlen : first + count ≤ p.table.length)
    (hg : g ≤ first) (hunlisted : g = first → ∀ o, first ∉ L o) :
    (Pool.releaseBlocks P (carve first count) p).result ≠ .error (.releaseFree g) := by
  induction count using Nat.strong_induction_on generalizing first p L with
  | _ count ih =>
    rcases Nat.eq_zero_or_pos count with rfl | hcount
    · exact fun h ↦ by cases h
    · have hpos := Nat.two_pow_pos (fittingOrder first count)
      obtain ⟨-, -, hfit⟩ := fittingOrder_spec (f := first) hcount
      have haddr := addressable_front hcount hfits
      rw [releaseBlocks_carve_of_pos hcount]
      -- Only the block in front can start with the frame. The others start behind it.
      rcases hblock : (Pool.releaseBlock P p first (fittingOrder first count)).result with
        fault | p₁
      · rw [error_bind, ne_eq, Except.error.injEq]
        rintro rfl
        have hlt : first < p.table.length := by omega
        obtain ⟨_, -, h⟩ | ⟨h, o, hmem⟩ | h := hp.of_releaseBlock_eq_error haddr hlt hblock
        · cases h
        · exact hunlisted (Fault.releaseFree.inj h) o hmem
        · cases h
      · have hp₁ := hp.releaseBlock haddr.1 hblock
        have hlength : p₁.table.length = p.table.length :=
          (within_releaseBlock (S := fun _ ↦ True) (fun _ _ _ ↦ trivial) p _ _).answers p₁ hblock
        rw [ok_bind]
        exact ih _ (by omega) hp₁ (by omega) (by omega) (by omega) (by omega)

/-- A frame of a free block is on no list unless it is the head. -/
theorem Sound.not_mem_of_ne_head (hs : Sound P t p L ledger) (hb : b ∈ L.extents) (hf : f ∈ b)
    (hne : f ≠ b.head) (o : Nat) : f ∉ L o := fun hmem ↦ by
  have hblock : (⟨f, o⟩ : Extent) ∈ L.extents :=
    Layout.mem_extents.2 ⟨hs.threads.lt_orderCount hmem, hmem⟩
  exact hne (congrArg Extent.head (hs.tiling_free.eq_of_mem hblock hb (Extent.head_mem _) hf))

/-- A frame of the table that heads no block is loose. -/
theorem Sound.loose_of_head_ne (hs : Sound P t p L ledger) (hlt : f < t.length)
    (hf : ∀ b ∈ L.extents ++ extents ledger, b.head ≠ f) : p.Loose L f := by
  refine ⟨fun o hmem ↦ ?_, ?_⟩
  · have hblock : (⟨f, o⟩ : Extent) ∈ L.extents :=
      Layout.mem_extents.2 ⟨hs.threads.lt_orderCount hmem, hmem⟩
    exact hf _ (List.mem_append_left _ hblock) rfl
  · obtain ⟨d, hd⟩ := Option.isSome_iff_exists.1 (get?_isSome.2 (hs.alike.length_eq ▸ hlt))
    refine ⟨d, hd, (hs.books.idle f d hd fun l hl ↦ ?_).1⟩
    exact hf _ (List.mem_append_right _ (mem_extents hl))

/-- Where a pool does not check itself, handing over a range of the table is handing over its
blocks. -/
theorem releaseRange_eq (hcheck : C.selfCheck = false) (hword : first + count < Word.limit)
    (hlen : first + count ≤ p.table.length) :
    (Pool.releaseRange C p first count).result =
      (Pool.releaseBlocks C.platform (carve first count) p).result := by
  have hverify : ∀ p : Pool, p.verify C = .ok () := fun p ↦ by
    rw [verify, if_neg (by simp [hcheck])]
  rw [releaseRange_of_le hword hlen]
  rcases (Pool.releaseBlocks C.platform (carve first count) p).result with fault | p'
  · rfl
  · rw [ok_bind, hverify p']
    rfl

/-- **A range in which no block starts** is taken, and each of its frames is then in one more free
block than before. -/
theorem Sound.releaseRange_of_head_ne (hs : Sound C.platform t p L ledger)
    (hcheck : C.selfCheck = false) (hfits : first + count ≤ C.platform.frameLimit)
    (hlen : first + count ≤ t.length)
    (hrange : ∀ f, first ≤ f → f < first + count → t.isReserved f = false ∧
      ∀ b ∈ L.extents ++ extents ledger, b.head ≠ f) :
    ∃ p', (Pool.releaseRange C p first count).result = .ok p' ∧
      ∀ f, first ≤ f → f < first + count →
        Extent.depth p'.layout.extents f = 1 + Extent.depth L.extents f := by
  obtain ⟨p', hblocks⟩ := hs.threads.exists_releaseBlocks hfits
    (fun f hle hlt ↦ (hs.alike.isReserved_eq f).trans (hrange f hle hlt).1)
    fun f hle hlt ↦ hs.loose_of_head_ne (Nat.lt_of_lt_of_le hlt hlen) (hrange f hle hlt).2
  obtain ⟨L', hp', hdepth⟩ := hs.threads.releaseBlocks_carve hblocks
  refine ⟨p', ?_, fun f hle hlt ↦ ?_⟩
  · rw [releaseRange_eq hcheck (Nat.lt_of_le_of_lt hfits C.platform.frameLimit_lt)
      (hs.alike.length_eq ▸ hlen), hblocks]
  · rw [hp'.layout_eq, hdepth f, if_pos ⟨hle, hlt⟩]

/-- **A range that starts with the head of a free block** is refused. -/
theorem Sound.releaseRange_head (hs : Sound C.platform t p L ledger) (hb : b ∈ L.extents)
    (hcount : 0 < count) (hlen : b.head + count ≤ t.length) :
    ∃ fault, (Pool.releaseRange C p b.head count).result = .error fault ∧
      (b.head + count < Word.limit →
        (∀ f, b.head ≤ f → f < b.head + count → t.isReserved f = false) →
          fault = .releaseFree b.head) := by
  rcases Nat.lt_or_ge (b.head + count) Word.limit with hword | hword
  · obtain ⟨-, -, hfit⟩ := fittingOrder_spec (f := b.head) hcount
    obtain ⟨fault, hblock, hfree⟩ := hs.threads.releaseBlock_listed (P := C.platform)
      (Layout.mem_extents.1 hb).2 (fittingOrder b.head count)
    refine ⟨fault, ?_, fun _ husable ↦ hfree fun g hle hlt ↦ ?_⟩
    · rw [releaseRange_of_le hword (hs.alike.length_eq ▸ hlen), releaseBlocks_carve_of_pos hcount,
        hblock, error_bind, error_bind]
    · rw [hs.alike.isReserved_eq]
      exact husable g hle (by omega)
  · exact ⟨.addOverflow, releaseRange_of_limit_le hword, fun hlt ↦ absurd hlt (Nat.not_lt.2 hword)⟩

end Pool

/-- **How far double releases are found out.** Take a reachable state of a pool that does not check
itself, and a range of the table whose first frame lies in a free block. If the range starts with
the head of the block it is refused, and if all its frames are usable the fault names the head.
Otherwise, where the frames of the range have addresses, it is never refused on account of its first
frame; and if its frames are usable and none of them is the head of a block, it is taken. Each frame
of the range is then in one more free block than before, and the first one is in two. -/
theorem Reachable.double_release {C : Config} {t : FrameTable} {s : State} {b : Extent}
    {first count : Nat} (hs : Reachable C t s) (hcheck : C.selfCheck = false)
    (hb : b ∈ s.freeBlocks) (hfirst : first ∈ b) (hcount : 0 < count)
    (hlen : first + count ≤ t.length) (tracing : Bool) :
    (first = b.head →
      ∃ fault, ((s.machine.releaseRange C first count).run C.platform tracing).2 = .error fault ∧
        (first + count < Word.limit →
          (∀ f, first ≤ f → f < first + count → t.isReserved f = false) →
            fault = .releaseFree first)) ∧
    (first ≠ b.head → first + count ≤ C.platform.frameLimit →
      ((s.machine.releaseRange C first count).run C.platform tracing).2 ≠
          .error (.releaseFree first) ∧
        ((∀ f, first ≤ f → f < first + count → t.isReserved f = false ∧
            ∀ c ∈ s.freeBlocks ++ s.outstanding, c.head ≠ f) →
          ∃ m, ((s.machine.releaseRange C first count).run C.platform tracing).2 = .ok m ∧
            Extent.depth m.pool.layout.extents first = 2 ∧
            ∀ f, first ≤ f → f < first + count →
              Extent.depth m.pool.layout.extents f = 1 + Extent.depth s.freeBlocks f)) := by
  have hsound : Pool.Sound C.platform t s.machine.pool s.machine.pool.layout s.ledger := hs.sound
  rw [(s.machine.legible_releaseRange first count).run_eq tracing]
  refine ⟨?_, fun hne hfits ↦ ⟨?_, fun hrange ↦ ?_⟩⟩
  · rintro rfl
    obtain ⟨fault, hrelease, hfree⟩ := hsound.releaseRange_head hb hcount hlen
    exact ⟨fault, Machine.onPool_eq_error_iff.2 hrelease, hfree⟩
  · have hend : first + count ≤ s.machine.pool.table.length := hsound.alike.length_eq ▸ hlen
    show (s.machine.releaseRange C first count).result ≠ _
    rw [Machine.releaseRange, ne_eq, Machine.onPool_eq_error_iff, Pool.releaseRange_eq hcheck
      (Nat.lt_of_le_of_lt hfits C.platform.frameLimit_lt) hend]
    exact hsound.threads.releaseBlocks_ne_releaseFree hfits hend (Nat.le_refl first)
      fun _ ↦ hsound.not_mem_of_ne_head hb hfirst hne
  · obtain ⟨p, hrelease, hdepth⟩ := hsound.releaseRange_of_head_ne hcheck hfits hlen hrange
    have hone : Extent.depth s.freeBlocks first = 1 :=
      Nat.le_antisymm (hsound.tiling_free.depth_le first) (Extent.depth_pos hb hfirst)
    refine ⟨⟨p, s.machine.directMap⟩, Machine.onPool_eq_ok_iff.2 ⟨p, hrelease, rfl⟩, ?_, hdepth⟩
    exact (hdepth first (Nat.le_refl first) (Nat.lt_add_of_pos_right hcount)).trans
      (congrArg (1 + ·) hone)

/-- Of a free block of four frames the first cannot be handed over again. The others can. -/
theorem Reachable.double_release_replayed :
    ∃ s, Reachable ⟨.scaled, false⟩ (.ofCount 4) s ∧ s.freeBlocks = [⟨0, 2⟩] ∧
      ((s.machine.releaseRange ⟨.scaled, false⟩ 0 1).run .scaled false).2 =
        .error (.releaseFree 0) ∧
      ∃ m, ((s.machine.releaseRange ⟨.scaled, false⟩ 1 3).run .scaled false).2 = .ok m ∧
        Extent.depth m.pool.layout.extents 1 = 2 := by
  obtain ⟨s, hs, hx⟩ := exists_reachable_of_replay (C := ⟨.scaled, false⟩)
    (f := fun s ↦ (s.freeBlocks, s.outstanding)) (x := ([⟨0, 2⟩], [])) (.ofCount 4) none
    [.release 0 4] (by decide +kernel)
  obtain ⟨hblocks, hout⟩ := Prod.mk.inj hx
  have hb : (⟨0, 2⟩ : Extent) ∈ s.freeBlocks := by rw [hblocks]; decide
  obtain ⟨hhead, -⟩ := Reachable.double_release hs rfl hb (show 0 ∈ _ by decide)
    (show 0 < 1 by decide) (by decide) false
  obtain ⟨-, hinterior⟩ := Reachable.double_release hs rfl hb (show 1 ∈ _ by decide)
    (show 0 < 3 by decide) (by decide) false
  obtain ⟨fault, hrefused, hfree⟩ := hhead rfl
  rw [hfree (by decide) fun f _ _ ↦ FrameTable.isReserved_ofCount 4 f] at hrefused
  obtain ⟨-, htaken⟩ := hinterior (by decide) (by decide)
  obtain ⟨m, hm, hdepth, -⟩ := htaken fun f hle _ ↦ ⟨FrameTable.isReserved_ofCount 4 f, by
    rw [hblocks, hout, List.append_nil, List.forall_mem_singleton]
    exact (Nat.lt_of_lt_of_le Nat.zero_lt_one hle).ne⟩
  exact ⟨s, hs, hblocks, hrefused, m, hm, hdepth⟩

/-- **A free frame is taken** for the second time: a range may start in a free block without a
fault. -/
theorem exists_double_release :
    ∃ s, Reachable ⟨.scaled, false⟩ (.ofCount 4) s ∧ s.Free 1 ∧
      ∃ m, ((s.machine.releaseRange ⟨.scaled, false⟩ 1 1).run .scaled false).2 = .ok m ∧
        m.pool.layout.extents = [⟨1, 0⟩, ⟨0, 2⟩] := by
  obtain ⟨s, hs, hx⟩ := exists_reachable_of_replay (C := ⟨.scaled, false⟩)
    (f := fun s ↦ (s.freeBlocks, (s.machine.releaseRange ⟨.scaled, false⟩ 1 1).result.map
      fun m ↦ m.pool.layout.extents))
    (x := ([⟨0, 2⟩], .ok [⟨1, 0⟩, ⟨0, 2⟩])) (.ofCount 4) none [.release 0 4] (by decide +kernel)
  obtain ⟨hblocks, hanswer⟩ := Prod.mk.inj hx
  obtain ⟨m, hrelease, hlayout⟩ := map_eq_ok_iff.1 hanswer
  have hb : (⟨0, 2⟩ : Extent) ∈ s.freeBlocks := by rw [hblocks]; decide
  exact ⟨s, hs, ⟨⟨0, 2⟩, hb, by decide⟩, m, hrelease, hlayout⟩

end FramePool
