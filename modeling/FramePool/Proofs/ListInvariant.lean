import FramePool.Proofs.Run

/-!
# The invariant of the free lists

In every reachable state the lists, the flags of the frames and the links agree, and no two free
blocks below the top order are buddies (`Reachable.lists_represent`). The checker asks for just
that, so it never finds anything. It follows that whether a pool checks itself makes no difference:
each request is answered alike, with the same events, and the runs of a machine that checks itself
are those of one that does not (`step_congr`, `run_congr`).
-/

namespace FramePool

variable {C : Config} {P : Platform} {t : FrameTable} {s s' : State} {m : Machine} {L : Layout}
  {ledger : List Loan} {r : Request} {log : List (Request × Answer)}

/-! ### Checking makes no difference -/

/-- A sound machine answers a request alike whether it checks itself or not. -/
theorem Pool.Sound.run_congr (hs : Pool.Sound P t m.pool L ledger)
    (hfree : ∀ f ∈ r.handedOver, Extent.depth (L.extents ++ Loan.extents ledger) f = 0)
    (selfCheck : Bool) : r.run ⟨P, selfCheck⟩ m = r.run ⟨P, false⟩ m := by
  cases r with
  | release first count =>
    have hcongr := hs.releaseRange_congr (fun f hle hlt ↦
      hfree f (List.mem_range'_1.2 ⟨hle, hlt⟩)) selfCheck
    simp only [Request.run, Machine.releaseRange, Machine.onPool, hcongr]
  | allocOrder order flags =>
    simp only [Request.run, Machine.allocOrder_congr hs order flags selfCheck]
  | allocPage flags =>
    simp only [Request.run, Machine.allocPage, Machine.allocOrder_congr hs _ flags selfCheck]
  | allocRef flags =>
    simp only [Request.run, Machine.allocRef, Machine.allocPage,
      Machine.allocOrder_congr hs _ flags selfCheck]
  | free page =>
    simp only [Request.run, Machine.free, Machine.onPool, hs.free_congr page selfCheck]
  | incref page => rfl
  | decref page =>
    simp only [Request.run, Machine.decref, Machine.onPool, hs.decref_congr page selfCheck]
  | ref page => rfl
  | unref x =>
    simp only [Request.run, Machine.unref, Machine.onPool, Pool.unref,
      hs.decref_congr x.page selfCheck]
  | install direct => rfl

/-- **A step is the same** whether the pool checks itself or not, up to the events it reports. -/
theorem step_congr (hs : s.Sound P t) (hadmissible : r.Admissible s) (selfCheck : Bool) :
    step ⟨P, selfCheck⟩ s r = step ⟨P, false⟩ s r := by
  have hrun := Pool.Sound.run_congr hs hadmissible.depth_eq_zero selfCheck
  simp only [step, hrun]

/-- **The runs are the same**, by induction on the requests. -/
theorem run_congr (hs : s.Sound P t) (selfCheck : Bool) :
    Run ⟨P, selfCheck⟩ s log s' ↔ Run ⟨P, false⟩ s log s' := by
  constructor
  · intro h
    induction h with
    | nil s => exact .nil s
    | cons hadmissible hstep _ ih =>
      have hs' := hs.of_step (C := ⟨P, selfCheck⟩) hadmissible hstep
      rw [step_congr hs hadmissible] at hstep
      exact .cons hadmissible hstep (ih hs')
  · intro h
    induction h with
    | nil s => exact .nil s
    | cons hadmissible hstep _ ih =>
      have hs' := hs.of_step (C := ⟨P, false⟩) hadmissible hstep
      rw [← step_congr hs hadmissible selfCheck] at hstep
      exact .cons hadmissible hstep (ih hs')

/-! ### The lists of a reachable state -/

/-- **The free lists** of a reachable state: each is a linked sequence without repetition, of just
the frames that are flagged free with its order; a frame on no list has no links; no block below the
top order has a free buddy; a frame that heads no outstanding block is neither referenced nor
flagged allocated. So the checker passes, and every admissible request, and every run, goes the same
way with the checker and without. -/
theorem Reachable.lists_represent (h : Reachable C t s) :
    (∀ o < orderCount,
      (s.machine.pool.list o).Represents s.machine.pool.table (s.machine.pool.layout o) ∧
      ∀ f, f ∈ s.machine.pool.layout o ↔
        ∃ d, s.machine.pool.table.get? f = some d ∧ d.free = true ∧ d.order = o) ∧
    (∀ f d, s.machine.pool.table.get? f = some d → (∀ o, f ∉ s.machine.pool.layout o) →
      d.prev = none ∧ d.next = none) ∧
    (∀ o < topOrder, ∀ f ∈ s.machine.pool.layout o,
      ∃ g, Block.buddy C.platform f o = .ok g ∧ g ∉ s.machine.pool.layout o) ∧
    (∀ f d, s.machine.pool.table.get? f = some d → (∀ b ∈ s.outstanding, b.head ≠ f) →
      d.refs = 0 ∧ d.allocated = false) ∧
    s.machine.pool.check C.platform = .ok () ∧
    (∀ r : Request, r.Admissible s →
      step { C with selfCheck := true } s r = step { C with selfCheck := false } s r) ∧
    ∀ log s', Run { C with selfCheck := true } s log s' ↔
      Run { C with selfCheck := false } s log s' := by
  have hs : s.Sound C.platform t := h.sound
  refine ⟨fun o ho ↦ ⟨hs.threads.represents o ho, fun f ↦ ⟨fun hf ↦ ?_, ?_⟩⟩, fun f d hd hf ↦ ?_,
    fun o ho f hf ↦ ?_, fun f d hd hf ↦ ?_, hs.check, fun r hr ↦ step_congr hs hr true,
    fun log s' ↦ run_congr hs true⟩
  · obtain ⟨d, hd, hfree, horder, -⟩ := hs.threads.get? hf
    exact ⟨d, hd, hfree, horder⟩
  · rintro ⟨d, hd, hfree, rfl⟩
    exact hs.threads.listed f d hd hfree
  · exact hs.threads.unlinked f d hd ((hs.threads.free_eq_false_iff hd).2 hf)
  · have hb : (⟨f, o⟩ : Extent) ∈ s.freeBlocks :=
      Layout.mem_extents.2 ⟨hs.threads.lt_orderCount hf, hf⟩
    have haddr := (hs.addressable _ (List.mem_append_left _ hb)).2 ho
    exact ⟨_, Block.buddy_eq_ok haddr ho, hs.coalesced o ho f hf⟩
  · have hidle := hs.books.idle f d hd fun l hl heq ↦ hf _ (Loan.mem_extents hl) heq
    exact ⟨hidle.2, hidle.1⟩

/-- A list with two blocks on it, of which the first was merged out of two that came back. -/
theorem Reachable.lists_represent_replayed :
    ∃ s, Reachable ⟨.scaled, false⟩ (.ofCount 8) s ∧ s.machine.pool.layout 1 = [0, 6] ∧
      (s.machine.pool.list 1).Represents s.machine.pool.table [0, 6] ∧
      s.machine.pool.check .scaled = .ok () := by
  obtain ⟨s, hs, hlayout⟩ := exists_reachable_of_replay (C := ⟨.scaled, false⟩)
    (f := fun s ↦ s.machine.pool.layout 1) (x := [0, 6]) (.ofCount 8) none
    [.release 0 8, .allocOrder 0 {}, .allocOrder 0 {}, .allocOrder 1 {}, .allocOrder 1 {},
      .free ⟨0⟩, .free ⟨1⟩]
    (by decide +kernel)
  obtain ⟨hlists, -, -, -, hcheck, -⟩ := Reachable.lists_represent hs
  exact ⟨s, hs, hlayout, hlayout ▸ (hlists 1 (by decide)).1, hcheck⟩

end FramePool
