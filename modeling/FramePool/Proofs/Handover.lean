import FramePool.Proofs.Merging
import FramePool.Proofs.Progress

/-!
# Handing over a range: when it is refused and what it leaves

A range is handed over block by block, in a loop that has no bound of its own (`Pool.Handover`). It
ends because each block has a frame at least, and it is what handing over the blocks of `carve` is
(`Pool.handover_iff`).

In a sound pool whose table has addresses there is little that can go wrong with a range of frames
that are in no block. It may end past the table, which is seen before the loop. Inside the table
only a reserved frame can stop the loop; as it goes from the first frame on, it stops at the block
with the first one (`Pool.Sound.releaseBlocks_reserved`). So the faults are known beforehand
(`Pool.Refusal`, `Pool.Sound.releaseRange_eq_error_iff`).

What is left otherwise rests on two facts. The ledger is the same, and it determines allocated flags
and references. The frames of an outstanding block are in no free block at any time of the loop, so
none of their descriptors is written (`Pool.Sound.get?_of_releaseBlocks`).
-/

namespace FramePool

namespace Pool

open FrameTable Loan

variable {C : Config} {P : Platform} {t : FrameTable} {p p' : Pool} {L : Layout}
  {ledger : List Loan} {b c : Extent} {f g first count : Nat} {fault : Fault}

/-! ### The loop -/

/-- **The loop** that hands over a range: the largest block that fits in front, as long as frames
are left. -/
inductive Handover (P : Platform) : (f count : Nat) → Pool → Except Fault Pool → Prop
  /-- No frame is left. -/
  | done (f : Nat) (p : Pool) : Handover P f 0 p (.ok p)
  /-- The block is refused. -/
  | refused {f count : Nat} {p : Pool} {fault : Fault} : 0 < count →
    (releaseBlock P p f (fittingOrder f count)).result = .error fault →
    Handover P f count p (.error fault)
  /-- The block is taken, and the loop goes on behind it. -/
  | next {f count : Nat} {p p' : Pool} {r : Except Fault Pool} : 0 < count →
    (releaseBlock P p f (fittingOrder f count)).result = .ok p' →
    Handover P (f + 2 ^ fittingOrder f count) (count - 2 ^ fittingOrder f count) p' r →
    Handover P f count p r

/-- One round of the loop. -/
theorem releaseBlocks_carve_of_pos (hcount : 0 < count) (p : Pool) :
    (releaseBlocks P (carve f count) p).result =
      (releaseBlock P p f (fittingOrder f count)).result >>= fun p' ↦
        (releaseBlocks P (carve (f + 2 ^ fittingOrder f count)
          (count - 2 ^ fittingOrder f count)) p').result := by
  rw [carve_of_pos hcount, releaseBlocks, Traced.result_bind]

/-- **The loop ends**, and in one way only: with the blocks that the range is cut into. -/
theorem handover_iff {r : Except Fault Pool} :
    Handover P f count p r ↔ r = (releaseBlocks P (carve f count) p).result := by
  constructor
  · intro h
    induction h with
    | done f p => rfl
    | refused hcount hblock => rw [releaseBlocks_carve_of_pos hcount, hblock, error_bind]
    | next hcount hblock _ ih => rw [releaseBlocks_carve_of_pos hcount, hblock, ok_bind, ih]
  · rintro rfl
    induction count using Nat.strong_induction_on generalizing f p with
    | _ count ih =>
      rcases Nat.eq_zero_or_pos count with rfl | hcount
      · exact .done f p
      · have hpos := Nat.two_pow_pos (fittingOrder f count)
        rw [releaseBlocks_carve_of_pos hcount]
        rcases hblock : (releaseBlock P p f (fittingOrder f count)).result with fault | p'
        · exact .refused hcount hblock
        · exact .next hcount hblock (ih _ (by omega))

/-! ### What is refused -/

/-- A block with a reserved frame is refused. -/
theorem Sound.releaseBlock_reserved (hs : Sound P t p L ledger) {o : Nat} (hle : f ≤ g)
    (hlt : g < f + 2 ^ o) (hg : t.isReserved g = true)
    (hleast : ∀ h, f ≤ h → h < g → t.isReserved h = false) :
    (Pool.releaseBlock P p f o).result = .error (.releaseReserved g) := by
  have hrequire : requireUsable p.table f (2 ^ o) = .error (.releaseReserved g) :=
    requireUsable_eq_error_iff.2 ⟨g, rfl, hle, hlt, (hs.alike.isReserved_eq g).trans hg,
      fun h hle hlt ↦ (hs.alike.isReserved_eq h).trans (hleast h hle hlt)⟩
  rw [Pool.releaseBlock, Traced.result_bind, Traced.result_liftM, hrequire, error_bind]

/-- **The first reserved frame** stops the loop, if the frames are in no block. The induction is on
the number of frames that are left; the blocks before that frame are taken. -/
theorem Sound.releaseBlocks_reserved (hs : Sound P t p L ledger)
    (hfits : t.length ≤ P.frameLimit) (hlen : first + count ≤ t.length)
    (hfree : ∀ f, first ≤ f → f < first + count →
      Extent.depth (L.extents ++ extents ledger) f = 0)
    (hle : first ≤ g) (hlt : g < first + count) (hg : t.isReserved g = true)
    (hleast : ∀ f, first ≤ f → f < g → t.isReserved f = false) :
    (Pool.releaseBlocks P (carve first count) p).result = .error (.releaseReserved g) := by
  induction count using Nat.strong_induction_on generalizing first p L with
  | _ count ih =>
    have hcount : 0 < count := by omega
    have hfirst : first < P.frameLimit := by omega
    obtain ⟨htop, hdvd, hfit⟩ := fittingOrder_spec (f := first) hcount
    have hpos := Nat.two_pow_pos (fittingOrder first count)
    rw [releaseBlocks_carve_of_pos hcount]
    -- The block in front has the frame in it, or it ends before it and is taken.
    rcases Nat.lt_or_ge g (first + 2 ^ fittingOrder first count) with hblock | hblock
    · rw [hs.releaseBlock_reserved hle hblock hg hleast, error_bind]
    · have hb : (⟨first, fittingOrder first count⟩ : Extent).Aligned := hdvd
      have haddr : (⟨first, fittingOrder first count⟩ : Extent).Addressable P :=
        ⟨htop, fun _ ↦ hfirst⟩
      obtain ⟨p', hrelease, hs'⟩ := hs.exists_releaseBlock hb haddr
        (fun f hf ↦ hfree f hf.1 (Nat.lt_trans (Nat.lt_of_lt_of_le hf.2 hblock) hlt))
        fun f hf ↦ ⟨Nat.lt_of_lt_of_le (Nat.lt_trans (Nat.lt_of_lt_of_le hf.2 hblock) hlt) hlen,
          hleast f hf.1 (Nat.lt_of_lt_of_le hf.2 hblock)⟩
      rw [hrelease, ok_bind]
      refine ih _ (by omega) hs' (by omega) (fun f hle hlt ↦ ?_) hblock (by omega)
        fun f hle ↦ hleast f (by omega)
      have hout : f ∉ (⟨first, fittingOrder first count⟩ : Extent) :=
        fun hf ↦ Nat.not_lt.2 hle hf.2
      rw [Extent.depth_append, depth_putBack L hb htop, if_neg hout, Nat.add_zero,
        ← Extent.depth_append]
      exact hfree f (by omega) (by omega)

/-- **What a range is refused with**: its end is no word, or lies outside the table, or some frame
is reserved and this is the first one. -/
inductive Refusal (t : FrameTable) (first count : Nat) : Fault → Prop
  | overflow : Word.limit ≤ first + count → Refusal t first count .addOverflow
  | pastTable : first + count < Word.limit → t.length < first + count →
    Refusal t first count (.releasePastTable first (first + count) t.length)
  | reserved {g : Nat} : first + count < Word.limit → first + count ≤ t.length → first ≤ g →
    g < first + count → t.isReserved g = true →
    (∀ f, first ≤ f → f < g → t.isReserved f = false) →
    Refusal t first count (.releaseReserved g)

theorem exists_refusal_iff : (∃ fault, Refusal t first count fault) ↔
    Word.limit ≤ first + count ∨ t.length < first + count ∨
      ∃ f, first ≤ f ∧ f < first + count ∧ t.isReserved f = true := by
  constructor
  · rintro ⟨fault, h⟩
    rcases h with hword | ⟨-, hlen⟩ | ⟨-, -, hle, hlt, hg, -⟩
    · exact Or.inl hword
    · exact Or.inr (Or.inl hlen)
    · exact Or.inr (Or.inr ⟨_, hle, hlt, hg⟩)
  · intro h
    rcases Nat.lt_or_ge (first + count) Word.limit with hword | hword
    · rcases Nat.lt_or_ge t.length (first + count) with hlen | hlen
      · exact ⟨_, .pastTable hword hlen⟩
      · have hreserved := (h.resolve_left (Nat.not_le.2 hword)).resolve_left (Nat.not_lt.2 hlen)
        obtain ⟨hle, hlt, hg⟩ := Nat.find_spec hreserved
        refine ⟨_, .reserved hword hlen hle hlt hg fun f hf hfg ↦ ?_⟩
        have hmin := Nat.find_min hreserved hfg
        exact Bool.eq_false_iff.2 fun hres ↦ hmin ⟨hf, Nat.lt_trans hfg hlt, hres⟩
    · exact ⟨_, .overflow hword⟩

/-- **Refusals are exact**, if the frames are in no block and all of the table has addresses. -/
theorem Sound.releaseRange_eq_error_iff (hs : Sound C.platform t p L ledger)
    (hfits : t.length ≤ C.platform.frameLimit)
    (hfree : ∀ f, first ≤ f → f < first + count →
      Extent.depth (L.extents ++ extents ledger) f = 0) :
    (Pool.releaseRange C p first count).result = .error fault ↔ Refusal t first count fault := by
  have hrefused : ∀ fault, Refusal t first count fault →
      (Pool.releaseRange C p first count).result = .error fault := by
    intro fault h
    rcases h with hword | ⟨hword, hlen⟩ | ⟨hword, hlen, hle, hlt, hg, hleast⟩
    · exact releaseRange_of_limit_le hword
    · rw [Pool.releaseRange, Traced.result_bind, Traced.result_liftM,
        Word.add_eq_ok_iff.2 ⟨hword, rfl⟩, ok_bind, Traced.result_bind, Traced.result_liftM,
        hs.alike.length_eq, require_of_neg (Nat.not_le.2 hlen), error_bind]
    · rw [releaseRange_of_le hword (hs.alike.length_eq ▸ hlen),
        hs.releaseBlocks_reserved hfits hlen hfree hle hlt hg hleast, error_bind]
  refine ⟨fun h ↦ ?_, hrefused fault⟩
  by_cases hrefusal : ∃ fault, Refusal t first count fault
  · obtain ⟨fault', hrefusal⟩ := hrefusal
    obtain rfl : fault = fault' := Except.error.inj (h.symm.trans (hrefused fault' hrefusal))
    exact hrefusal
  · rw [exists_refusal_iff] at hrefusal
    simp only [not_or, not_exists, not_and, Nat.not_lt, Bool.not_eq_true] at hrefusal
    obtain ⟨-, hlen, husable⟩ := hrefusal
    obtain ⟨p', hrelease⟩ := hs.exists_releaseRange hfits hlen hfree husable
    rw [h] at hrelease
    cases hrelease

/-! ### What is left -/

/-- **A frame that is in no free block** once a block is handed over has the descriptor that it
had. -/
theorem Sound.get?_of_releaseBlock (hs : Sound P t p L ledger) (hb : b.Aligned)
    (ho : b.order ≤ topOrder) (hfree : ∀ f ∈ b, Extent.depth (L.extents ++ extents ledger) f = 0)
    (hlen : ∀ f ∈ b, f < t.length)
    (h : (Pool.releaseBlock P p b.head b.order).result = .ok p')
    (hf : ¬∃ c ∈ (L.putBack b).extents, f ∈ c) : p'.table.get? f = p.table.get? f := by
  have husable := (hs.of_releaseBlock_eq_ok hb ho hfree hlen h).1
  obtain ⟨-, _, -, -, -, g, o, hmerge⟩ := releaseBlock_eq_ok_iff.1 h
  -- The head, whose order was written, is in a free block now.
  have hne : b.head ≠ f := fun heq ↦ hf (((Layout.regroup_putBack L hb ho).covered_iff f).1
    ⟨b, List.mem_cons_self, heq ▸ b.head_mem⟩)
  rw [(hs.pickUp hb hfree husable).get?_of_merge ho hmerge hf]
  exact get?_update_of_ne _ _ hne

/-- **Outstanding blocks** keep all their descriptors while blocks are handed over. The induction is
on the blocks. -/
theorem Sound.get?_of_releaseBlocks (hs : Sound P t p L ledger) {blocks : List (Frame × Nat)}
    (hblocks : ∀ b ∈ carved blocks, b.Aligned ∧ b.order ≤ topOrder)
    (hapart : ∀ f, Extent.depth (carved blocks ++ (L.extents ++ extents ledger)) f ≤ 1)
    (hlen : ∀ b ∈ carved blocks, ∀ f ∈ b, f < t.length)
    (h : (Pool.releaseBlocks P blocks p).result = .ok p') (hc : c ∈ extents ledger) (hf : f ∈ c) :
    p'.table.get? f = p.table.get? f := by
  induction blocks generalizing p L with
  | nil =>
    obtain rfl : p = p' := Except.ok.inj h
    rfl
  | cons b blocks ih =>
    obtain ⟨head, order⟩ := b
    have hcons : carved ((head, order) :: blocks) = ⟨head, order⟩ :: carved blocks := rfl
    rw [hcons] at hblocks hapart hlen
    obtain ⟨⟨hb, ho⟩, hblocks⟩ := List.forall_mem_cons.1 hblocks
    obtain ⟨hblen, hlen⟩ := List.forall_mem_cons.1 hlen
    obtain ⟨hfree, hapart⟩ := depth_putBack_le hb ho hapart
    rw [Pool.releaseBlocks, Traced.result_bind] at h
    obtain ⟨p₁, hblock, h⟩ := bind_eq_ok_iff.1 h
    have hs₁ := hs.releaseBlock hb ho hfree hblen hblock
    -- Free blocks and outstanding ones stay apart, so the frame is never written to.
    have hout : ¬∃ d ∈ (L.putBack ⟨head, order⟩).extents, f ∈ d := by
      rintro ⟨d, hd, hfd⟩
      exact hs₁.tiling.not_mem_of_append hd hfd hc hf
    exact (ih hs₁ hblocks hapart hlen h).trans
      (hs.get?_of_releaseBlock hb ho hfree hblen hblock hout)

/-- **The same ledger** over the same table: flags and references say the same. -/
theorem Sound.stripped_eq {L' : Layout} (hs : Sound P t p L ledger) (hs' : Sound P t p' L' ledger)
    (f : Nat) : (p'.table.get? f).map Descriptor.stripped =
      (p.table.get? f).map Descriptor.stripped := by
  have hlength : p'.table.length = p.table.length :=
    hs'.alike.length_eq.trans hs.alike.length_eq.symm
  have hreserved : p'.table.isReserved f = p.table.isReserved f :=
    (hs'.alike.isReserved_eq f).trans (hs.alike.isReserved_eq f).symm
  have hsome : (p'.table.get? f).isSome = (p.table.get? f).isSome := by
    rw [Bool.eq_iff_iff, get?_isSome, get?_isSome, hlength]
  rcases hd : p.table.get? f with - | d
  · have hd' : p'.table.get? f = none := by simpa [hd] using hsome
    rw [hd']
  · rw [hd] at hsome
    obtain ⟨d', hd'⟩ := Option.isSome_iff_exists.1 hsome
    obtain ⟨halloc, hrefs⟩ := hs.books.get?_eq hs'.books hd hd'
    rw [isReserved, isReserved, hd, hd', Option.any_some, Option.any_some] at hreserved
    rw [hd', Option.map_some, Option.map_some, Option.some.injEq]
    simp only [Descriptor.stripped, Descriptor.unlinked, halloc, hrefs, hreserved]

/-- **What is left** of a pool when a range is handed over. -/
structure HandedOver (p p' : Pool) (first count : Nat) : Prop where
  /-- The frames of the range have become free, and no others. -/
  free : ∀ f, (∃ b ∈ p'.layout.extents, f ∈ b) ↔
    (first ≤ f ∧ f < first + count) ∨ ∃ b ∈ p.layout.extents, f ∈ b
  /-- No two free blocks of an order are buddies. -/
  coalesced : p'.layout.Coalesced
  /-- Reserved and allocated flags and references stay. -/
  stripped : ∀ f, (p'.table.get? f).map Descriptor.stripped =
    (p.table.get? f).map Descriptor.stripped
  /-- The counter stays. -/
  total : p'.total = p.total

/-- **Handing over a range** whose frames are in no block. -/
theorem Sound.handedOver (hs : Sound C.platform t p L ledger)
    (hfree : ∀ f, first ≤ f → f < first + count →
      Extent.depth (L.extents ++ extents ledger) f = 0)
    (h : (Pool.releaseRange C p first count).result = .ok p') :
    p.HandedOver p' first count ∧
      ∀ c ∈ extents ledger, ∀ f ∈ c, p'.table.get? f = p.table.get? f := by
  obtain ⟨L', hs', hcovered⟩ := hs.releaseRange hfree h
  refine ⟨⟨?_, ?_, hs.stripped_eq hs', hs'.total.trans hs.total.symm⟩, fun c hc f hf ↦ ?_⟩
  · rw [hs.threads.layout_eq, hs'.threads.layout_eq]
    exact hcovered
  · rw [hs'.threads.layout_eq]
    exact hs'.coalesced
  · obtain ⟨-, hend, hblocks, -⟩ := releaseRange_eq_ok_iff.1 h
    rw [hs.alike.length_eq] at hend
    exact hs.get?_of_releaseBlocks (fun b hb ↦ mem_carved hb) (hs.depth_carve_le hfree)
      (fun b hb f hf ↦ Nat.lt_of_lt_of_le (mem_carve_iff.1 ⟨b, hb, hf⟩).2 hend) hblocks hc hf

end Pool

namespace Machine

variable {C : Config}

/-- Handing over a range shows no address. -/
theorem legible_releaseRange (m : Machine) (first count : Nat) :
    (m.releaseRange C first count).Legible C.platform :=
  (within_onPool (Pool.within_releaseRange (fun _ _ _ ↦ Event.forall_shown_of_nil rfl) m.pool
    first count)).legible

end Machine

/-- **After a range is handed over.** Let the table fit into the physical address space, and take a
reachable state and a range none of whose frames is in a free or an outstanding block. The loop that
hands it over ends. With an observer or without one the range is refused exactly when its end is no
word or lies outside the table or some frame of it is reserved, and each of these has its fault.
Otherwise the free frames are those before and those of the range, and no two of the free blocks are
buddies. Allocated flags and references are the same for all frames, and the descriptors of the
outstanding blocks do not change at all. -/
theorem Reachable.releaseRange_post {C : Config} {t : FrameTable} {s : State}
    (hs : Reachable C t s)
    (hfits : t.length * C.platform.pageSize ≤ C.platform.physicalLimit) {first count : Nat}
    (hadmissible : (Request.release first count).Admissible s) :
    (∀ r, Pool.Handover C.platform first count s.machine.pool r ↔
      r = (Pool.releaseBlocks C.platform (Pool.carve first count) s.machine.pool).result) ∧
    ∀ tracing,
      ((∃ fault, ((s.machine.releaseRange C first count).run C.platform tracing).2 =
          .error fault) ↔
        Word.limit ≤ first + count ∨ t.length < first + count ∨
          ∃ f, first ≤ f ∧ f < first + count ∧ t.isReserved f = true) ∧
      (∀ fault, ((s.machine.releaseRange C first count).run C.platform tracing).2 =
        .error fault ↔ Pool.Refusal t first count fault) ∧
      ∀ m, ((s.machine.releaseRange C first count).run C.platform tracing).2 = .ok m →
        s.machine.pool.HandedOver m.pool first count ∧ m.directMap = s.machine.directMap ∧
          ∀ b ∈ s.outstanding, ∀ f ∈ b, m.pool.table.get? f = s.machine.pool.table.get? f := by
  have hsound : Pool.Sound C.platform t s.machine.pool s.machine.pool.layout s.ledger := hs.sound
  have hfree : ∀ f, first ≤ f → f < first + count →
      Extent.depth (s.machine.pool.layout.extents ++ Loan.extents s.ledger) f = 0 :=
    fun f hle hlt ↦ hadmissible.depth_eq_zero f (List.mem_range'_1.2 ⟨hle, hlt⟩)
  refine ⟨fun r ↦ Pool.handover_iff, fun tracing ↦ ?_⟩
  rw [(s.machine.legible_releaseRange first count).run_eq tracing]
  have hrefused : ∀ fault, (s.machine.releaseRange C first count).result = .error fault ↔
      Pool.Refusal t first count fault := fun fault ↦
    Machine.onPool_eq_error_iff.trans
      (hsound.releaseRange_eq_error_iff (FrameTable.length_le_frameLimit hfits) hfree)
  refine ⟨?_, hrefused, fun m hm ↦ ?_⟩
  · rw [← Pool.exists_refusal_iff]
    exact exists_congr hrefused
  · obtain ⟨p, hrelease, rfl⟩ := Machine.onPool_eq_ok_iff.1 hm
    obtain ⟨hleft, hout⟩ := hsound.handedOver hfree hrelease
    exact ⟨hleft, rfl, hout⟩

/-- Behind two outstanding frames and two free ones six more are handed over. Nine of them would end
outside the table. -/
theorem Reachable.releaseRange_post_replayed :
    ∃ s m, Reachable ⟨.scaled, true⟩ (.ofCount 12) s ∧ s.freeBlocks = [⟨2, 1⟩] ∧
      s.outstanding = [⟨0, 1⟩] ∧
      ((s.machine.releaseRange ⟨.scaled, true⟩ 4 6).run .scaled true).2 = .ok m ∧
      s.machine.pool.HandedOver m.pool 4 6 ∧
      m.pool.table.get? 0 = s.machine.pool.table.get? 0 ∧
      ((s.machine.releaseRange ⟨.scaled, true⟩ 4 9).run .scaled true).2 =
        .error (.releasePastTable 4 13 12) := by
  obtain ⟨s, hs, hx⟩ := exists_reachable_of_replay (C := ⟨.scaled, true⟩)
    (f := fun s ↦ (s.freeBlocks, s.outstanding)) (x := ([⟨2, 1⟩], [⟨0, 1⟩])) (.ofCount 12) none
    [.release 0 4, .allocOrder 1 {}] (by decide +kernel)
  obtain ⟨hblocks, hout⟩ := Prod.mk.inj hx
  have hadmissible : ∀ count ≤ 9, (Request.release 4 count).Admissible s := by
    show ∀ count ≤ 9, ∀ f ∈ List.range' 4 count, ∀ b ∈ s.freeBlocks ++ s.outstanding, f ∉ b
    rw [hblocks, hout]
    decide
  obtain ⟨-, hpost⟩ := Reachable.releaseRange_post hs (by decide) (hadmissible 6 (by decide))
  obtain ⟨-, hpost'⟩ := Reachable.releaseRange_post hs (by decide) (hadmissible 9 (by decide))
  obtain ⟨hrefused, -, hleft⟩ := hpost true
  rcases hrun : ((s.machine.releaseRange ⟨.scaled, true⟩ 4 6).run .scaled true).2 with fault | m
  · rcases hrefused.1 ⟨fault, hrun⟩ with hword | hlen | ⟨f, -, -, hreserved⟩
    · exact absurd hword (by decide)
    · exact absurd hlen (by decide)
    · rw [FrameTable.isReserved_ofCount] at hreserved
      cases hreserved
  · obtain ⟨hhanded, -, hsame⟩ := hleft m hrun
    have hlent : (⟨0, 1⟩ : Extent) ∈ s.outstanding := by rw [hout]; decide
    exact ⟨s, m, hs, hblocks, hout, hrun, hhanded, hsame ⟨0, 1⟩ hlent 0 (by decide),
      ((hpost' true).2.1 _).2 (.pastTable (by decide) (by decide))⟩

end FramePool
