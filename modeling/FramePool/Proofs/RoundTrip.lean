import FramePool.Proofs.Events
import FramePool.Proofs.Run

/-!
# Round trip: a block that is handed out and given back

Giving back a block right after it was handed out restores the pool. On the layout the two are
inverse to each other because the lists that were skipped to find the block were empty
(`Layout.Coalesced.putBack_takeOff`): the halves that were put on them are merged again, level by
level, up to the block that was offered, and this one has no free buddy. The ledger is the one
before.

The pool itself is determined by its layout and its ledger, except for the orders that are noted for
frames that head no block (`Pool.Sound.get?_eq`, `Pool.Sound.get?_head_eq`): halving writes some of
them, and merging does not take that back. Hence the lists come back exactly, and the table but for
those orders (`Reachable.free_allocOrder`).
-/

namespace FramePool

/-- The descriptor without its order. -/
def Descriptor.unordered (d : Descriptor) : Descriptor := { d with order := 0 }

/-- Descriptors with the same order that are otherwise the same. -/
theorem Descriptor.eq_of_unordered {d d' : Descriptor} (h : d'.unordered = d.unordered)
    (ho : d'.order = d.order) : d' = d :=
  calc d' = { d'.unordered with order := d'.order } := rfl
    _ = { d.unordered with order := d.order } := by rw [h, ho]
    _ = d := rfl

variable {C : Config} {P : Platform} {t : FrameTable} {p p' : Pool} {L : Layout}
  {ledger : List Loan}

namespace Pool

open FrameTable Loan

/-- **Layout and ledger determine the descriptors**, up to their orders. -/
theorem Sound.get?_eq (hs : Sound P t p L ledger) (hs' : Sound P t p' L ledger) (f : Nat) :
    (p'.table.get? f).map Descriptor.unordered = (p.table.get? f).map Descriptor.unordered := by
  have hlength : p'.table.length = p.table.length :=
    hs'.alike.length_eq.trans hs.alike.length_eq.symm
  rcases hd : p.table.get? f with - | d
  · have hnone : p'.table.get? f = none := by
      rw [← Option.not_isSome_iff_eq_none, get?_isSome, hlength, ← get?_isSome, hd]
      exact Bool.false_ne_true
    rw [hnone]
  · obtain ⟨d', hd'⟩ := Option.isSome_iff_exists.1 (get?_isSome.2 (hlength ▸ lt_of_get? hd))
    have hreserved : d'.reserved = d.reserved := by
      have h := (hs'.alike.isReserved_eq f).trans (hs.alike.isReserved_eq f).symm
      rwa [isReserved, isReserved, hd, hd', Option.any_some, Option.any_some] at h
    obtain ⟨hfree, hprev, hnext⟩ := hs.threads.get?_eq hs'.threads hd hd'
    obtain ⟨halloc, hrefs⟩ := hs.books.get?_eq hs'.books hd hd'
    rw [hd', Option.map_some, Option.map_some, Descriptor.unordered, Descriptor.unordered, hfree,
      hreserved, halloc, hrefs, hprev, hnext]

/-- The order of a frame that heads a block is noted. -/
theorem Sound.labels (hs : Sound P t p L ledger) {b : Extent}
    (hb : b ∈ L.extents ++ extents ledger) : p.Labels b.head b.order := by
  rw [Labels, Option.map_eq_some_iff]
  rcases List.mem_append.1 hb with hb | hb
  · obtain ⟨d, hd, -, ho, -⟩ := hs.threads.get? (Layout.mem_extents.1 hb).2
    exact ⟨d, hd, ho⟩
  · obtain ⟨l, hl, rfl⟩ := List.mem_map.1 hb
    obtain ⟨d, hd, -, ho, -⟩ := hs.books.lent l hl
    exact ⟨d, hd, ho⟩

/-- They determine the descriptors of the frames that head a block. -/
theorem Sound.get?_head_eq (hs : Sound P t p L ledger) (hs' : Sound P t p' L ledger) {b : Extent}
    (hb : b ∈ L.extents ++ extents ledger) : p'.table.get? b.head = p.table.get? b.head := by
  obtain ⟨d, hd, ho⟩ := Option.map_eq_some_iff.1 (hs.labels hb)
  obtain ⟨d', hd', ho'⟩ := Option.map_eq_some_iff.1 (hs'.labels hb)
  have h := hs.get?_eq hs' b.head
  rw [hd, hd', Option.map_some, Option.map_some, Option.some.injEq] at h
  rw [hd, hd', Descriptor.eq_of_unordered h (ho'.trans ho.symm)]

/-- **Giving back what was handed out** succeeds, and leads to a pool with the same layout and the
same ledger. -/
theorem Sound.exists_free_allocOrder {m m' : Machine} {order : Nat} {flags : AllocFlags}
    {page : Page} (hs : Sound C.platform t m.pool L ledger)
    (h : (m.allocOrder C order flags).result = .ok (.ok page, m')) :
    ∃ p', (m'.pool.free C page).result = .ok p' ∧ Sound C.platform t p' L ledger := by
  obtain ⟨k, hoffers, hs₁⟩ := Machine.sound_of_allocOrder hs h
  obtain ⟨p', hfree, hs'⟩ := hs₁.free List.mem_cons_self rfl
  have hsettle := settle_cons hs₁.tiling_lent
  have hlayout := hs.coalesced.putBack_takeOff hoffers (hs.dvd_of_offers hoffers)
  rw [hsettle, hlayout] at hs'
  exact ⟨p', hfree, hs'⟩

end Pool

/-- A block that was handed out has an address, if an observer was told of it. -/
theorem Machine.lt_frameLimit_of_legible_allocOrder {m m' : Machine} {order : Nat}
    {flags : AllocFlags} {page : Page} (hlegible : (m.allocOrder C order flags).Legible C.platform)
    (h : (m.allocOrder C order flags).result = .ok (.ok page, m')) :
    page.frame < C.platform.frameLimit := by
  obtain ⟨ho, p, htake, -⟩ := allocOrder_eq_ok_iff.1 h
  rw [allocOrder, if_pos ho] at hlegible
  exact Pool.lt_frameLimit_of_legible_take (hlegible.of_bind htake).1 htake

/-- **Round trip.** In every reachable state, and whether there is an observer or not, a block that
is handed out can be given back right away. Then each list has the frames that it had, in the same
order, and so has each descriptor its flags, its references and its links. Its order is the one
before, too, if the frame headed a free block or an outstanding one. -/
theorem Reachable.free_allocOrder {s : State} {m : Machine} {order : Nat} {flags : AllocFlags}
    {page : Page} {tracing : Bool} (h : Reachable C t s)
    (halloc : ((s.machine.allocOrder C order flags).run C.platform tracing).2 =
      .ok (.ok page, m)) :
    ∃ p, ((m.pool.free C page).run C.platform tracing).2 = .ok p ∧
      p.lists = s.machine.pool.lists ∧ p.layout = s.machine.pool.layout ∧
      p.total = s.machine.pool.total ∧
      (∀ f, (p.table.get? f).map Descriptor.unordered =
        (s.machine.pool.table.get? f).map Descriptor.unordered) ∧
      ∀ b ∈ s.freeBlocks ++ s.outstanding,
        p.table.get? b.head = s.machine.pool.table.get? b.head := by
  have hs : Pool.Sound C.platform t s.machine.pool s.machine.pool.layout s.ledger := h.sound
  obtain ⟨hresult, hlegible⟩ := Traced.run_eq_ok_iff.1 halloc
  obtain ⟨p, hfree, hs'⟩ := hs.exists_free_allocOrder hresult
  refine ⟨p, Traced.run_eq_ok_iff.2 ⟨hfree, fun htracing ↦ ?_⟩, hs.threads.lists_eq hs'.threads,
    hs'.threads.layout_eq, hs'.total.trans hs.total.symm, hs.get?_eq hs',
    fun b ↦ hs.get?_head_eq hs'⟩
  have hpage := Machine.lt_frameLimit_of_legible_allocOrder (hlegible htracing) hresult
  exact Pool.legible_free m.pool hpage C.selfCheck

/-- A page is taken out of a block of eight, which is halved three times for it, and given back. -/
theorem Reachable.free_allocOrder_replayed :
    ∃ s m p, Reachable ⟨.scaled, true⟩ (.ofCount 8) s ∧ s.freeBlocks = [⟨0, 3⟩] ∧
      ((s.machine.allocOrder ⟨.scaled, true⟩ 0 {}).run .scaled false).2 = .ok (.ok ⟨0⟩, m) ∧
      ((m.pool.free ⟨.scaled, true⟩ ⟨0⟩).run .scaled false).2 = .ok p ∧
      p.lists = s.machine.pool.lists := by
  obtain ⟨s, hs, hx⟩ := exists_reachable_of_replay (C := ⟨.scaled, true⟩)
    (f := fun s ↦ (s.freeBlocks,
      match (s.machine.allocOrder ⟨.scaled, true⟩ 0 {}).result with
      | .ok (.ok page, _) => some page
      | _ => none))
    (x := ([⟨0, 3⟩], some ⟨0⟩)) (.ofCount 8) none [.release 0 8] (by decide +kernel)
  obtain ⟨hblocks, hanswer⟩ := Prod.mk.inj hx
  obtain ⟨m, halloc⟩ : ∃ m,
      ((s.machine.allocOrder ⟨.scaled, true⟩ 0 {}).run .scaled false).2 = .ok (.ok ⟨0⟩, m) := by
    split at hanswer
    · rename_i page m hresult
      obtain rfl := Option.some.inj hanswer
      exact ⟨m, hresult⟩
    · cases hanswer
  obtain ⟨p, hfree, hlists, -⟩ := Reachable.free_allocOrder hs halloc
  exact ⟨s, m, p, hs, hblocks, halloc, hfree, hlists⟩

end FramePool
