import FramePool.Machine
import FramePool.Proofs.Check

/-!
# Handing out blocks and taking them back

What the operations on single blocks do to a sound pool. For each of them there are two statements.
One says when it succeeds, and what pool and ledger it leads to (`Sound.free`, `Sound.incref`,
`Sound.decref`, `Machine.exists_allocOrder`). The other says that it ends without a fault only then:
a page that is given back heads a block without references (`Sound.of_free_eq_ok`), a page to which
a reference is taken or given back heads a block that was handed out (`Sound.of_incref_eq_ok`,
`Sound.of_decref_eq_ok`), and a block that is handed out is the lowest part of the one that was
offered (`Machine.sound_of_allocOrder`).

So giving back a block without references never faults, whatever was handed out, given back or
handed over before.
-/

namespace FramePool

/-- A reference that is given back: either there are others, or it was the last one and the block is
settled. -/
theorem Loan.drop_eq {t : FrameTable} {l : Loan} {ledger : List Loan}
    (ht : Tiling t (extents ledger)) (hl : l ∈ ledger) :
    drop l.head ledger = if l.refs - 1 = 0 then settle l.head (recount l.head (· - 1) ledger)
      else recount l.head (· - 1) ledger := by
  have hrefs : ∀ k ∈ recount l.head (· - 1) ledger, k.head = l.head → k.refs = l.refs - 1 := by
    intro k hk hhead
    obtain ⟨k', hk', hext, hr⟩ := mem_recount hk
    have hhead' : k'.head = l.head := by rw [hext, hhead]
    rw [hr, if_pos hhead', eq_of_head ht hl hk' hhead']
  rw [drop]
  split
  · rename_i hzero
    refine List.filter_congr fun k hk ↦ ?_
    by_cases hhead : k.head = l.head
    · simp [hhead, (hrefs k hk hhead).trans hzero]
    · simp [hhead]
  · rename_i hpos
    refine List.filter_eq_self.2 fun k hk ↦ ?_
    by_cases hhead : k.head = l.head
    · simp [hhead, hrefs k hk hhead, hpos]
    · simp [hhead]

namespace Descriptor

variable {d : Descriptor} {refs : Nat}

theorem refsUp_eq_ok_iff : d.refsUp = .ok refs ↔ d.refs + 1 < refLimit ∧ refs = d.refs + 1 := by
  by_cases h : d.refs + 1 < refLimit <;> simp [refsUp, h, eq_comm]

theorem refsDown_eq_ok_iff : d.refsDown = .ok refs ↔ 0 < d.refs ∧ refs = d.refs - 1 := by
  by_cases h : 0 < d.refs <;> simp [refsDown, h, eq_comm]

end Descriptor

namespace Pool

open FrameTable Loan

variable {C : Config} {P : Platform} {t : FrameTable} {p p' : Pool} {L : Layout}
  {ledger : List Loan} {l : Loan} {page : Page}

theorem describe_eq_ok_iff {d : Descriptor} :
    p.describe page = .ok d ↔ p.table.get? page.frame = some d := by
  rw [describe]
  cases p.table.get? page.frame <;> simp

/-- The order that is noted for a block that was handed out. -/
theorem Sound.orderOf (hs : Sound P t p L ledger) (hl : l ∈ ledger) :
    p.orderOf ⟨l.head⟩ = .ok l.order := by
  obtain ⟨d, hd, -, ho, -⟩ := hs.books.lent l hl
  rw [Pool.orderOf, describe_eq_ok_iff.2 hd, ← ho]
  rfl

/-! ### Giving a block back -/

/-- Putting a block back regroups it with the free ones. -/
theorem Sound.regroup_settle (hs : Sound P t p L ledger) (hl : l ∈ ledger) :
    Regroup (L.extents ++ extents ledger)
      ((L.putBack l.toExtent).extents ++ extents (settle l.head ledger)) := by
  have hmem := List.mem_append_right L.extents (mem_extents hl)
  have hput := Layout.regroup_putBack L (hs.tiling.aligned _ hmem) (hs.addressable _ hmem).1
  exact (Regroup.perm (hs.perm_settle hl)).trans (hput.append_right _)

/-- A block that is put back becomes free. -/
theorem Sound.covered_putBack_iff (hs : Sound P t p L ledger) (hl : l ∈ ledger) (f : Nat) :
    (∃ b ∈ (L.putBack l.toExtent).extents, f ∈ b) ↔
      f ∈ l.toExtent ∨ ∃ b ∈ L.extents, f ∈ b := by
  have hmem := List.mem_append_right L.extents (mem_extents hl)
  rw [← (Layout.regroup_putBack L (hs.tiling.aligned _ hmem) (hs.addressable _ hmem).1).covered_iff]
  simp only [List.mem_cons, or_and_right, exists_or, exists_eq_left]

/-- **A block that is given back** is flagged allocated, has no references, and is merged. -/
theorem free_eq_ok_iff : (Pool.free C p page).result = .ok p' ↔
    ∃ d, p.table.get? page.frame = some d ∧ d.reserved = false ∧ d.allocated = true ∧ d.refs = 0 ∧
      ∃ g k, (Pool.merge C.platform { p with table := p.table.update page.frame fun d ↦
          { d with allocated := false } } page.frame).result = .ok (g, k, p') ∧
        p'.verify C = .ok () := by
  constructor
  · intro h
    simp only [Pool.free, Traced.result_bind, Traced.result_liftM] at h
    obtain ⟨d, hdescribe, h⟩ := bind_eq_ok_iff.1 h
    obtain ⟨_, hres, h⟩ := bind_eq_ok_iff.1 h
    obtain ⟨_, halloc, h⟩ := bind_eq_ok_iff.1 h
    obtain ⟨_, hrefs, h⟩ := bind_eq_ok_iff.1 h
    have hd := describe_eq_ok_iff.1 hdescribe
    rw [write_eq_ok _ (lt_of_get? hd), ok_bind] at h
    obtain ⟨⟨g, k, p₁⟩, hmerge, h⟩ := bind_eq_ok_iff.1 h
    simp only [Traced.result_emit, Traced.result_pure, ok_bind] at h
    obtain ⟨_, hverify, h⟩ := bind_eq_ok_iff.1 h
    obtain rfl : p₁ = p' := Except.ok.inj h
    exact ⟨d, hd, require_eq_ok_iff.1 hres, require_eq_ok_iff.1 halloc, require_eq_ok_iff.1 hrefs,
      g, k, hmerge, hverify⟩
  · rintro ⟨d, hd, hres, halloc, hrefs, g, k, hmerge, hverify⟩
    simp only [Pool.free, Traced.result_bind, Traced.result_liftM, describe_eq_ok_iff.2 hd, ok_bind,
      require_of_pos hres, require_of_pos halloc, require_of_pos hrefs,
      write_eq_ok _ (lt_of_get? hd), hmerge, Traced.result_emit, hverify, Traced.result_pure]

/-- **Giving back** a block without references. -/
theorem Sound.free (hs : Sound C.platform t p L ledger) (hl : l ∈ ledger) (hrefs : l.refs = 0) :
    ∃ p', (Pool.free C p ⟨l.head⟩).result = .ok p' ∧
      Sound C.platform t p' (L.putBack l.toExtent) (settle l.head ledger) := by
  obtain ⟨d, hd, halloc, -, hdrefs⟩ := hs.books.lent l hl
  have husable := hs.usable_of_mem (List.mem_append_right _ (mem_extents hl)) l.head_mem
  have hres : d.reserved = false := by
    have := husable.2
    rwa [isReserved, hd, Option.any_some] at this
  have haddr := hs.addressable _ (List.mem_append_right _ (mem_extents hl))
  obtain ⟨f, o, p', hmerge, hs'⟩ := (hs.reclaim hl hrefs).putBack haddr
  exact ⟨p', free_eq_ok_iff.2
    ⟨d, hd, hres, halloc, hdrefs.trans hrefs, f, o, hmerge, hs'.verify⟩, hs'⟩

/-- Only a block that was handed out and has no references can be given back. -/
theorem Sound.of_free_eq_ok (hs : Sound P t p L ledger) (h : (Pool.free C p page).result = .ok p') :
    ∃ l ∈ ledger, l.head = page.frame ∧ l.refs = 0 := by
  obtain ⟨d, hd, -, halloc, hrefs, -⟩ := free_eq_ok_iff.1 h
  obtain ⟨l, hl, hhead, -, hlrefs⟩ := hs.books.exists_loan hd halloc
  exact ⟨l, hl, hhead, hlrefs ▸ hrefs⟩

/-- Giving a block back regroups the blocks. -/
theorem Sound.of_free (hs : Sound C.platform t p L ledger)
    (h : (Pool.free C p page).result = .ok p') :
    ∃ L', Sound C.platform t p' L' (settle page.frame ledger) ∧
      Regroup (L.extents ++ extents ledger) (L'.extents ++ extents (settle page.frame ledger)) := by
  obtain ⟨l, hl, hhead, hrefs⟩ := hs.of_free_eq_ok h
  obtain ⟨p'', hfree, hs'⟩ := hs.free hl hrefs
  have hregroup := hs.regroup_settle hl
  rw [hhead] at hfree hs' hregroup
  rw [h, Except.ok.injEq] at hfree
  exact ⟨_, hfree ▸ hs', hregroup⟩

/-- A pool that checks itself takes a block back as one that does not. -/
theorem Sound.free_congr (hs : Sound P t p L ledger) (page : Page) (selfCheck : Bool) :
    Pool.free ⟨P, selfCheck⟩ p page = Pool.free ⟨P, false⟩ p page := by
  simp only [Pool.free]
  refine Traced.bind_congr_of_result fun d hd ↦ ?_
  refine Traced.bind_congr_of_result fun _ _ ↦ ?_
  refine Traced.bind_congr_of_result fun _ halloc ↦ ?_
  refine Traced.bind_congr_of_result fun _ hrefs ↦ ?_
  refine Traced.bind_congr_of_result fun p₁ hwrite ↦ ?_
  refine Traced.bind_congr_of_result fun r hmerge ↦ ?_
  rw [Traced.result_liftM] at hd halloc hrefs hwrite
  rw [require_eq_ok_iff] at halloc hrefs
  rw [describe_eq_ok_iff] at hd
  obtain ⟨l, hl, hhead, -, hlrefs⟩ := hs.books.exists_loan hd halloc
  rw [write_eq_ok _ (lt_of_get? hd), Except.ok.injEq] at hwrite
  subst hwrite
  have haddr := hs.addressable _ (List.mem_append_right _ (mem_extents hl))
  obtain ⟨f, o, p', hmerge', hs'⟩ := (hs.reclaim hl (hlrefs ▸ hrefs)).putBack haddr
  rw [← hhead, hmerge', Except.ok.injEq] at hmerge
  subst hmerge
  simp only [hs'.verify (C := ⟨P, selfCheck⟩), hs'.verify (C := ⟨P, false⟩)]

/-! ### Counting references -/

/-- **Taking a reference** to a block that was handed out, unless it has as many as can be
counted. -/
theorem Sound.incref (hs : Sound P t p L ledger) (hl : l ∈ ledger)
    (hrefs : l.refs + 1 < Descriptor.refLimit) :
    ∃ p', Pool.incref p ⟨l.head⟩ = .ok p' ∧
      Sound P t p' L (Loan.recount l.head (· + 1) ledger) := by
  obtain ⟨d, hd, halloc, -, hdrefs⟩ := hs.books.lent l hl
  have hdescribe : p.describe ⟨l.head⟩ = .ok d := describe_eq_ok_iff.2 hd
  have hup : d.refsUp = .ok (l.refs + 1) :=
    Descriptor.refsUp_eq_ok_iff.2 ⟨hdrefs ▸ hrefs, by rw [hdrefs]⟩
  refine ⟨_, ?_, hs.recount hl (· + 1)⟩
  simp only [Pool.incref, hdescribe, ok_bind, require_of_pos halloc, hup,
    write_eq_ok _ (lt_of_get? hd)]

/-- A reference can only be taken to a block that was handed out. -/
theorem Sound.of_incref_eq_ok (hs : Sound P t p L ledger) (h : Pool.incref p page = .ok p') :
    ∃ l ∈ ledger, l.head = page.frame ∧ l.refs + 1 < Descriptor.refLimit := by
  simp only [Pool.incref] at h
  obtain ⟨d, hd, h⟩ := bind_eq_ok_iff.1 h
  obtain ⟨_, halloc, h⟩ := bind_eq_ok_iff.1 h
  obtain ⟨refs, hup, -⟩ := bind_eq_ok_iff.1 h
  obtain ⟨l, hl, hhead, -, hlrefs⟩ :=
    hs.books.exists_loan (describe_eq_ok_iff.1 hd) (require_eq_ok_iff.1 halloc)
  exact ⟨l, hl, hhead, hlrefs ▸ (Descriptor.refsUp_eq_ok_iff.1 hup).1⟩

/-- Taking a reference counts it. -/
theorem Sound.of_incref (hs : Sound P t p L ledger) (h : Pool.incref p page = .ok p') :
    Sound P t p' L (Loan.recount page.frame (· + 1) ledger) := by
  obtain ⟨l, hl, hhead, hrefs⟩ := hs.of_incref_eq_ok h
  obtain ⟨p'', hincref, hs'⟩ := hs.incref hl hrefs
  rw [hhead] at hincref hs'
  rw [h, Except.ok.injEq] at hincref
  exact hincref ▸ hs'

/-- **Giving a reference back** to a block that has one, and the block with the last one. -/
theorem Sound.decref (hs : Sound C.platform t p L ledger) (hl : l ∈ ledger) (hrefs : 0 < l.refs) :
    ∃ p', (Pool.decref C p ⟨l.head⟩).result = .ok p' ∧
      Sound C.platform t p' (if l.refs = 1 then L.putBack l.toExtent else L)
        (drop l.head ledger) := by
  obtain ⟨d, hd, halloc, -, hdrefs⟩ := hs.books.lent l hl
  have hdescribe : p.describe ⟨l.head⟩ = .ok d := describe_eq_ok_iff.2 hd
  have hdown : d.refsDown = .ok (l.refs - 1) :=
    Descriptor.refsDown_eq_ok_iff.2 ⟨hdrefs ▸ hrefs, by rw [hdrefs]⟩
  have hs₁ := hs.recount hl (· - 1)
  have hdrop := drop_eq hs.tiling_lent hl
  have hone : l.refs - 1 = 0 ↔ l.refs = 1 := by omega
  simp only [hone] at hdrop
  simp only [Pool.decref, Traced.result_bind, Traced.result_liftM, hdescribe, ok_bind,
    require_of_pos halloc, hdown, write_eq_ok _ (lt_of_get? hd), hone]
  rcases eq_or_ne l.refs 1 with hlast | hmore
  · have hl₁ := mem_recount_of_mem hl (· - 1)
    obtain ⟨p', hfree, hs'⟩ := hs₁.free hl₁ (hone.2 hlast)
    rw [if_pos hlast] at hdrop ⊢
    rw [if_pos hlast, hdrop]
    exact ⟨p', hfree, hs'⟩
  · rw [if_neg hmore] at hdrop ⊢
    rw [if_neg hmore, hdrop]
    exact ⟨_, rfl, hs₁⟩

/-- Giving a reference back moves no block, or it puts the block back. -/
theorem Sound.regroup_drop (hs : Sound P t p L ledger) (hl : l ∈ ledger) (hrefs : 0 < l.refs) :
    Regroup (L.extents ++ extents ledger)
      ((if l.refs = 1 then L.putBack l.toExtent else L).extents ++
        extents (drop l.head ledger)) := by
  have hl₁ := mem_recount_of_mem hl (· - 1)
  have hsettle := (hs.recount hl (· - 1)).regroup_settle hl₁
  rw [extents_recount] at hsettle
  rw [drop_eq hs.tiling_lent hl]
  rcases eq_or_ne l.refs 1 with hlast | hmore
  · rw [if_pos hlast, if_pos (by omega)]
    exact hsettle
  · rw [if_neg hmore, if_neg (by omega), extents_recount]
    exact .refl _

/-- A reference can only be given back to a block that was handed out and has one. -/
theorem Sound.of_decref_eq_ok (hs : Sound P t p L ledger)
    (h : (Pool.decref C p page).result = .ok p') :
    ∃ l ∈ ledger, l.head = page.frame ∧ 0 < l.refs := by
  simp only [Pool.decref, Traced.result_bind, Traced.result_liftM] at h
  obtain ⟨d, hd, h⟩ := bind_eq_ok_iff.1 h
  obtain ⟨_, halloc, h⟩ := bind_eq_ok_iff.1 h
  obtain ⟨refs, hdown, -⟩ := bind_eq_ok_iff.1 h
  obtain ⟨l, hl, hhead, -, hlrefs⟩ :=
    hs.books.exists_loan (describe_eq_ok_iff.1 hd) (require_eq_ok_iff.1 halloc)
  exact ⟨l, hl, hhead, hlrefs ▸ (Descriptor.refsDown_eq_ok_iff.1 hdown).1⟩

/-- Giving a reference back regroups the blocks at most. -/
theorem Sound.of_decref (hs : Sound C.platform t p L ledger)
    (h : (Pool.decref C p page).result = .ok p') :
    ∃ L', Sound C.platform t p' L' (drop page.frame ledger) ∧
      Regroup (L.extents ++ extents ledger) (L'.extents ++ extents (drop page.frame ledger)) := by
  obtain ⟨l, hl, hhead, hrefs⟩ := hs.of_decref_eq_ok h
  obtain ⟨p'', hdecref, hs'⟩ := hs.decref hl hrefs
  have hregroup := hs.regroup_drop hl hrefs
  rw [hhead] at hdecref hs' hregroup
  rw [h, Except.ok.injEq] at hdecref
  exact ⟨_, hdecref ▸ hs', hregroup⟩

/-- A pool that checks itself takes a reference back as one that does not. -/
theorem Sound.decref_congr (hs : Sound P t p L ledger) (page : Page) (selfCheck : Bool) :
    Pool.decref ⟨P, selfCheck⟩ p page = Pool.decref ⟨P, false⟩ p page := by
  simp only [Pool.decref]
  refine Traced.bind_congr_of_result fun d hd ↦ ?_
  refine Traced.bind_congr_of_result fun _ halloc ↦ ?_
  refine Traced.bind_congr_of_result fun refs hdown ↦ ?_
  refine Traced.bind_congr_of_result fun p₁ hwrite ↦ ?_
  rw [Traced.result_liftM] at hd halloc hdown hwrite
  rw [describe_eq_ok_iff] at hd
  obtain ⟨l, hl, hhead, -, hlrefs⟩ := hs.books.exists_loan hd (require_eq_ok_iff.1 halloc)
  have hs₁ := hs.recount hl (· - 1)
  rw [write_eq_ok _ (lt_of_get? hd), (Descriptor.refsDown_eq_ok_iff.1 hdown).2, hlrefs,
    Except.ok.injEq] at hwrite
  rw [hhead, hwrite] at hs₁
  rw [hs₁.free_congr page selfCheck]

end Pool

/-! ### Handing out blocks -/

namespace Machine

open Pool

variable {C : Config} {P : Platform} {t : FrameTable} {m m' : Machine} {L : Layout}
  {ledger : List Loan} {order : Nat} {flags : AllocFlags} {page : Page} {e : AllocError}

/-- An order that there is not is refused, and nothing happens. -/
theorem allocOrder_of_le (C : Config) (m : Machine) (flags : AllocFlags)
    (ho : orderCount ≤ order) :
    m.allocOrder C order flags = pure (.error .orderTooLarge, m) := by
  rw [allocOrder, if_neg (Nat.not_lt.2 ho)]

/-- A request that finds no sufficient block is refused, and nothing happens. -/
theorem allocOrder_of_firstFit_eq_none (flags : AllocFlags) (ho : order < orderCount)
    (hfit : m.pool.firstFit order = none) :
    (m.allocOrder C order flags).result = .ok (.error .outOfMemory, m) := by
  rw [allocOrder, if_pos ho, Traced.result_bind, take_of_firstFit_eq_none hfit]
  rfl

/-- **A request that hands out a block** takes one off the lists, flags it and clears it. -/
theorem allocOrder_eq_ok_iff : (m.allocOrder C order flags).result = .ok (.ok page, m') ↔
    order < orderCount ∧ ∃ p, (m.pool.take C.platform order).result = .ok (some page.frame, p) ∧
      p.write page.frame (fun d ↦ { d with allocated := true }) = .ok m'.pool ∧
      clear C.platform m.directMap page order flags = .ok m'.directMap ∧
      m'.pool.verify C = .ok () := by
  rw [allocOrder]
  constructor
  · intro h
    split at h
    · rename_i ho
      rw [Traced.result_bind] at h
      obtain ⟨⟨head, p⟩, htake, h⟩ := bind_eq_ok_iff.1 h
      cases head with
      | none => cases h
      | some head =>
        simp only [Traced.result_bind, Traced.result_liftM] at h
        obtain ⟨p', hwrite, h⟩ := bind_eq_ok_iff.1 h
        obtain ⟨direct, hclear, h⟩ := bind_eq_ok_iff.1 h
        obtain ⟨_, hverify, h⟩ := bind_eq_ok_iff.1 h
        rw [Traced.result_pure, Except.ok.injEq, Prod.mk.injEq, Except.ok.injEq] at h
        obtain ⟨rfl, rfl⟩ := h
        exact ⟨ho, p, htake, hwrite, hclear, hverify⟩
    · cases h
  · rintro ⟨ho, p, htake, hwrite, hclear, hverify⟩
    obtain ⟨pool, direct⟩ := m'
    rw [if_pos ho, Traced.result_bind, htake, ok_bind]
    simp only [Traced.result_bind, Traced.result_liftM, hwrite, ok_bind, hclear, hverify,
      Traced.result_pure]

/-- **A refused request** leaves the machine as it is, and says why. -/
theorem of_allocOrder_eq_error (hs : Sound P t m.pool L ledger)
    (h : (m.allocOrder C order flags).result = .ok (.error e, m')) :
    m' = m ∧ (e = .orderTooLarge ∧ orderCount ≤ order ∨
      e = .outOfMemory ∧ order < orderCount ∧ m.pool.firstFit order = none) := by
  rcases Nat.lt_or_ge order orderCount with ho | ho
  · cases hfit : m.pool.firstFit order with
    | none =>
      rw [allocOrder_of_firstFit_eq_none flags ho hfit, Except.ok.injEq, Prod.mk.injEq,
        Except.error.injEq] at h
      exact ⟨h.2.symm, Or.inr ⟨h.1.symm, ho, rfl⟩⟩
    | some k =>
      exfalso
      rw [allocOrder, if_pos ho, Traced.result_bind] at h
      obtain ⟨⟨head, p⟩, htake, h⟩ := bind_eq_ok_iff.1 h
      cases head with
      | none => exact hs.threads.take_ne_none hfit htake
      | some head =>
        simp only [Traced.result_bind] at h
        obtain ⟨p', -, h⟩ := bind_eq_ok_iff.1 h
        obtain ⟨direct, -, h⟩ := bind_eq_ok_iff.1 h
        obtain ⟨_, -, h⟩ := bind_eq_ok_iff.1 h
        cases h
  · rw [allocOrder_of_le C m flags ho, Traced.result_pure, Except.ok.injEq, Prod.mk.injEq,
      Except.error.injEq] at h
    exact ⟨h.2.symm, Or.inl ⟨h.1.symm, ho⟩⟩

/-- **Handing out a block**: it is the lowest part of the one that was offered, and the ledger lists
it. -/
theorem sound_of_allocOrder (hs : Sound C.platform t m.pool L ledger)
    (h : (m.allocOrder C order flags).result = .ok (.ok page, m')) :
    ∃ k, L.Offers order k page.frame ∧ Sound C.platform t m'.pool (L.takeOff page.frame k order)
      (⟨⟨page.frame, order⟩, 0⟩ :: ledger) := by
  obtain ⟨-, p, htake, hwrite, -, -⟩ := allocOrder_eq_ok_iff.1 h
  obtain ⟨k, hoffers, hheld, haddr⟩ := hs.of_take_eq_ok htake
  have hlt : page.frame < p.table.length :=
    (hheld.loose (Extent.head_mem _)).lt_length
  rw [write_eq_ok _ hlt, Except.ok.injEq] at hwrite
  refine ⟨k, hoffers, ?_⟩
  rw [← hwrite]
  exact hheld.lend haddr

/-- The block that is offered is handed out, unless it has to be halved and has no address, or it
cannot be cleared. -/
theorem exists_allocOrder {k g : Nat} {direct : Option DirectMap}
    (hs : Sound C.platform t m.pool L ledger) (h : L.Offers order k g)
    (haddr : order < k → g < C.platform.frameLimit)
    (hclear : clear C.platform m.directMap ⟨g⟩ order flags = .ok direct) :
    ∃ m', (m.allocOrder C order flags).result = .ok (.ok ⟨g⟩, m') := by
  obtain ⟨p, htake, hheld, hblock⟩ := hs.exists_take h haddr
  have hlt : g < p.table.length := (hheld.loose (Extent.head_mem _)).lt_length
  have horder : order < orderCount := Nat.lt_of_le_of_lt h.le h.lt
  exact ⟨⟨{ p with table := p.table.update g fun d ↦ { d with allocated := true } }, direct⟩,
    allocOrder_eq_ok_iff.2 ⟨horder, p, htake, write_eq_ok _ hlt, hclear,
      (hheld.lend hblock).verify⟩⟩

/-- A machine that checks itself hands out a block as one that does not. -/
theorem allocOrder_congr (hs : Sound P t m.pool L ledger) (order : Nat) (flags : AllocFlags)
    (selfCheck : Bool) :
    m.allocOrder ⟨P, selfCheck⟩ order flags = m.allocOrder ⟨P, false⟩ order flags := by
  rw [Machine.allocOrder, Machine.allocOrder]
  split
  · refine Traced.bind_congr_of_result fun r htake ↦ ?_
    obtain ⟨head, p⟩ := r
    cases head with
    | none => rfl
    | some head =>
      refine Traced.bind_congr_of_result fun p' hwrite ↦ ?_
      refine Traced.bind_congr_of_result fun direct _ ↦ ?_
      obtain ⟨k, -, hheld, haddr⟩ := hs.of_take_eq_ok htake
      have hlt : head < p.table.length :=
        (hheld.loose (Extent.head_mem _)).lt_length
      rw [Traced.result_liftM, write_eq_ok _ hlt, Except.ok.injEq] at hwrite
      have hs' := hheld.lend haddr
      rw [hwrite] at hs'
      rw [hs'.verify (C := ⟨P, selfCheck⟩), hs'.verify (C := ⟨P, false⟩)]
  · rfl

end Machine

end FramePool
