import FramePool.Proofs.Clearing

/-!
# Addresses of blocks

Nothing keeps a table from having more frames than there are physical addresses, so a frame may have
none. A block below the top order that has no address is never accepted: when it is handed over its
buddy has to be computed, and that takes the address of its head. A block of the top order has no
buddy, and it is not looked at.

The frames with addresses are a multiple of the largest block, so no block straddles the last
address (`Extent.end_le_frameLimit`). Hence **what is handed out can be addressed, unless it is a
block of the top order beyond the last address** (`Reachable.addressable_iff`), and such a block is
handed out like any other (`exists_run_block`, `exists_run_beyond`).
-/

namespace FramePool

variable {C : Config} {P : Platform} {t : FrameTable} {s s' : State} {r : Request} {a : Answer}
  {b : Extent} {f : Frame}

/-! ### Blocks and the last address -/

/-- A page has an address when its frame is one of those that have. -/
theorem Page.exists_address_iff {page : Page} :
    (∃ x, page.address P = .ok x) ↔ page.frame < P.frameLimit := by
  rw [← Frame.mul_pageSize_lt_iff]
  constructor
  · rintro ⟨x, hx⟩
    have hstart : page.frame * P.pageSize = x.value := Frame.start_eq_ok_iff.1 hx
    rw [hstart]
    exact x.value_lt
  · intro hlt
    exact ⟨_, Frame.start_of_lt hlt⟩

/-- The frames that have addresses are whole blocks. -/
theorem Platform.two_pow_dvd_frameLimit (P : Platform) {o : Nat} (ho : o ≤ topOrder) :
    2 ^ o ∣ P.frameLimit := by
  have htop := P.topBlock_le
  exact Nat.pow_dvd_pow 2 (by omega)

/-- **A block does not straddle the last address.** -/
theorem Extent.end_le_frameLimit (hb : b.Aligned) (ho : b.order ≤ topOrder)
    (hhead : b.head < P.frameLimit) : b.head + 2 ^ b.order ≤ P.frameLimit := by
  obtain ⟨k, hk⟩ := hb
  obtain ⟨n, hn⟩ := P.two_pow_dvd_frameLimit ho
  rw [hk, hn, Nat.mul_lt_mul_left (Nat.two_pow_pos _)] at hhead
  rw [hk, hn, ← Nat.mul_succ]
  exact Nat.mul_le_mul_left _ hhead

/-- The bytes of a block have addresses if the head has. -/
theorem Extent.lt_physicalLimit_of_hasByte {i : Nat} (hb : b.Aligned) (ho : b.order ≤ topOrder)
    (hhead : b.head < P.frameLimit) (hi : b.HasByte P i) : i < P.physicalLimit := by
  have hend := Extent.end_le_frameLimit hb ho hhead
  rw [← P.frameLimit_mul_pageSize]
  rw [HasByte, ← Nat.add_mul] at hi
  exact Nat.lt_of_lt_of_le hi.2 (Nat.mul_le_mul_right _ hend)

/-! ### What is handed out -/

/-- **A block that is handed out can be addressed**, with all of its bytes, unless it is of the top
order and starts beyond the last address. In a table that fits into the physical address space each
block can be addressed. -/
theorem Reachable.addressable_iff (h : Reachable C t s) (hadmissible : r.Admissible s)
    (hstep : (step C s r).result = .ok (a, s')) (hlent : r.lent C.platform a = some b) :
    ((∃ x, Page.address C.platform ⟨b.head⟩ = .ok x) ∧
        (∀ i, b.HasByte C.platform i → i < C.platform.physicalLimit) ↔
      ¬(b.order = topOrder ∧ C.platform.frameLimit ≤ b.head)) ∧
    (t.length * C.platform.pageSize ≤ C.platform.physicalLimit →
      b.head < C.platform.frameLimit) := by
  have hs' := h.sound.of_step hadmissible hstep
  obtain ⟨m', -, rfl⟩ := step_eq_ok_iff.1 hstep
  have hb : b ∈ Loan.extents (r.record C.platform a s.ledger) := by
    rw [Request.record_of_lent hlent]
    exact List.mem_cons_self
  have haligned : b.Aligned := hs'.tiling_lent.aligned b hb
  obtain ⟨ho, haddr⟩ := hs'.addressable b (List.mem_append_right _ hb)
  refine ⟨?_, fun hfits ↦ ?_⟩
  · rw [Page.exists_address_iff]
    constructor
    · rintro ⟨hhead, -⟩ ⟨-, hbeyond⟩
      exact Nat.not_lt.2 hbeyond hhead
    · intro hnot
      have hhead : b.head < C.platform.frameLimit := by
        rcases Nat.eq_or_lt_of_le ho with htop | hlt
        · exact Nat.lt_of_not_le fun hbeyond ↦ hnot ⟨htop, hbeyond⟩
        · exact haddr hlt
      exact ⟨hhead, fun i hi ↦ Extent.lt_physicalLimit_of_hasByte haligned ho hhead hi⟩
  · exact Nat.lt_of_lt_of_le (hs'.tiling_lent.usable_of_mem hb b.head_mem).1
      (FrameTable.length_le_frameLimit hfits)

/-- Of eight frames that are all handed over, a block of four is handed out. -/
theorem Reachable.addressable_iff_replayed :
    ∃ s s', Reachable ⟨.scaled, true⟩ (.ofCount 8) s ∧
      (step ⟨.scaled, true⟩ s (.allocOrder 2 {})).result = .ok (.page ⟨0⟩, s') ∧
      (∃ x, Page.address .scaled ⟨0⟩ = .ok x) ∧
      ∀ i, Extent.HasByte .scaled ⟨0, 2⟩ i → i < Platform.scaled.physicalLimit := by
  obtain ⟨s', hreplay⟩ : ∃ s', replay ⟨.scaled, true⟩ (State.start (.ofCount 8) none)
      [.release 0 8, .allocOrder 2 {}] = some s' := Option.isSome_iff_exists.1 (by decide +kernel)
  have hlog : transcript ⟨.scaled, true⟩ (State.start (.ofCount 8) none)
      [.release 0 8, .allocOrder 2 {}] =
      [(.release 0 8, .done), (.allocOrder 2 {}, .page ⟨0⟩)] := by
    decide +kernel
  have hrun := (run_of_replay hreplay).2
  rw [hlog] at hrun
  cases hrun with
  | cons hadmissible hrelease hrest =>
    cases hrest with
    | cons hadmissible' halloc hnil =>
      have h : Reachable ⟨.scaled, true⟩ (.ofCount 8) _ :=
        ⟨.ofCount 8, none, _, .cons hadmissible hrelease (.nil _)⟩
      have haddress := (Reachable.addressable_iff h hadmissible' halloc rfl).1.2
        fun hbeyond ↦ absurd hbeyond.1 (by decide)
      exact ⟨_, _, h, halloc, haddress⟩

/-! ### A block beyond the last address -/

/-- **A block that has an address or is of the top order** is accepted by an empty pool and handed
out again. -/
theorem exists_run_block (C : Config) (count : Nat) (hb : b.Aligned)
    (haddr : b.Addressable C.platform) (hcount : b.head + 2 ^ b.order ≤ count)
    (hword : b.head + 2 ^ b.order < Word.limit) :
    ∃ s, Run C (State.start (.ofCount count) none)
      [(.release b.head (2 ^ b.order), .done), (.allocOrder b.order {}, .page ⟨b.head⟩)] s := by
  have hfresh := (FrameTable.Initial.ofCount (P := C.platform) count).fresh
  have husable : ∀ f ∈ b, f < (FrameTable.ofCount count).length ∧
      (FrameTable.ofCount count).isReserved f = false := fun f hf ↦ by
    rw [FrameTable.length_ofCount]
    exact ⟨Nat.lt_of_lt_of_le hf.2 hcount, FrameTable.isReserved_ofCount count f⟩
  obtain ⟨p, hrelease, hs⟩ := (Pool.sound_ofTable C.platform hfresh).exists_releaseRange_block hb
    haddr hword (fun _ _ ↦ rfl) husable
  rw [Layout.putBack_nil] at hs
  have hoffers : (Layout.push (fun _ ↦ []) b.order b.head).Offers b.order b.order b.head := by
    refine ⟨Nat.le_refl _, Nat.lt_succ_of_le haddr.1, ?_, fun j hle hlt ↦ ?_⟩
    · rw [Layout.push_self, List.head?_cons]
    · exact absurd hlt (Nat.not_lt.2 hle)
  obtain ⟨m, halloc⟩ : ∃ m, (Machine.allocOrder C ⟨p, none⟩ b.order {}).result =
      .ok (.ok ⟨b.head⟩, m) :=
    Machine.exists_allocOrder hs hoffers (fun hlt ↦ absurd hlt (Nat.lt_irrefl _)) rfl
  have hstep : (step C (State.start (.ofCount count) none)
      (.release b.head (2 ^ b.order))).result = .ok (.done, ⟨⟨p, none⟩, []⟩) :=
    step_eq_ok_iff.2 ⟨_, Machine.done_onPool hrelease, rfl⟩
  have hstep' : (step C ⟨⟨p, none⟩, []⟩ (.allocOrder b.order {})).result =
      .ok (.page ⟨b.head⟩, ⟨m, [⟨b, 0⟩]⟩) :=
    step_eq_ok_iff.2 ⟨m, Traced.map_eq_ok_iff.2 ⟨(.ok ⟨b.head⟩, m), halloc, rfl⟩, rfl⟩
  exact ⟨_, .cons (Request.admissible_start _ none hfresh) hstep <|
    .cons (Request.admissible_of_nil rfl) hstep' (.nil _)⟩

/-- **A table with one block too many.** The first block of the top order beyond the last address
is handed over and handed out, and asking for its address is a fault. -/
theorem exists_run_beyond :
    ∃ s, Run ⟨.scaled, true⟩ (State.start (.ofCount 4608) none)
        [(.release 4096 512, .done), (.allocOrder 9 {}, .page ⟨4096⟩)] s ∧
      Page.address .scaled ⟨4096⟩ = .error .physicalTooWide := by
  have htop : Extent.Addressable .scaled ⟨4096, 9⟩ :=
    ⟨by decide, fun hlt ↦ absurd hlt (by decide)⟩
  obtain ⟨s, hrun⟩ := exists_run_block ⟨.scaled, true⟩ (b := ⟨4096, 9⟩) 4608 (by decide)
    htop (by decide) (by decide)
  exact ⟨s, hrun, rfl⟩

end FramePool
