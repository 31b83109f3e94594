import FramePool.Proofs.Clearing
import FramePool.Proofs.Exclusivity

/-!
# Isolation: nobody else writes to a block

The bytes of a block belong to whoever holds it. A machine hands out blocks, takes them back and
clears them, and its users store bytes in between (`Session`). The pool does not depend on what they
store, so the invariant holds all the while (`Session.sound`).

Each byte belongs to a frame, and an outstanding block shares no frame with the block that is handed
out and cleared. So a step changes no byte of an outstanding block
(`State.Sound.byte?_of_mem_outstanding`), and **while a block is outstanding its bytes change only
when they are stored** (`Session.byte?_eq`, by induction on what happens).
-/

namespace FramePool

/-! ### Sessions -/

/-- What happens to a machine. -/
inductive Move where
  /-- A request is answered. -/
  | asked (r : Request) (a : Answer)
  /-- A byte is stored at a physical address. -/
  | stored (i : Nat) (value : UInt8)

/-- What a move stores at a physical address, given the byte that was there. -/
def Move.write (i : Nat) (x : Option UInt8) : Move → Option UInt8
  | asked _ _ => x
  | stored j value => if j = i then x.map fun _ ↦ value else x

/-- The map with a byte stored, where memory is emulated. -/
def DirectMap.store (i : Nat) (value : UInt8) : DirectMap → DirectMap
  | offset distance => offset distance
  | emulated ⟨base, bytes⟩ => emulated ⟨base, bytes.setIfInBounds i value⟩

/-- The byte at a physical address, where memory is emulated. -/
def Machine.byte? (m : Machine) (i : Nat) : Option UInt8 := m.directMap.bind (·.byte? i)

/-- The state with a byte stored. -/
def State.store (i : Nat) (value : UInt8) (s : State) : State :=
  { s with machine := { s.machine with directMap := s.machine.directMap.map (.store i value) } }

/-- **Sessions**: admissible requests, each of them answered without a fault, and stores in
between. -/
inductive Session (C : Config) : State → List Move → State → Prop
  | nil (s : State) : Session C s [] s
  | ask {s s' s'' : State} {r : Request} {a : Answer} {moves : List Move} :
    r.Admissible s → (step C s r).result = .ok (a, s') → Session C s' moves s'' →
      Session C s (.asked r a :: moves) s''
  | store {s s' : State} {i : Nat} {value : UInt8} {moves : List Move} :
    Session C (s.store i value) moves s' → Session C s (.stored i value :: moves) s'

variable {C : Config} {P : Platform} {t : FrameTable} {s s' : State} {r : Request} {a : Answer}
  {b : Extent} {i : Nat} {value : UInt8} {moves : List Move} {direct : DirectMap}

theorem State.byte?_store (s : State) (j : Nat) (value : UInt8) (i : Nat) :
    (s.store j value).machine.byte? i = Move.write i (s.machine.byte? i) (.stored j value) := by
  show (s.machine.directMap.map (DirectMap.store j value)).bind (DirectMap.byte? i) =
    if j = i then (s.machine.directMap.bind (DirectMap.byte? i)).map fun _ ↦ value
    else s.machine.directMap.bind (DirectMap.byte? i)
  rcases s.machine.directMap with - | ⟨distance⟩ | ⟨base, bytes⟩
  · exact (ite_self none).symm
  · exact (ite_self none).symm
  · exact EmulatedMemory.getElem?_setIfInBounds bytes j value i

/-- Stores do not touch the pool. -/
theorem State.Sound.store (hs : s.Sound P t) (i : Nat) (value : UInt8) :
    (s.store i value).Sound P t := hs

/-- **A session keeps a state sound**, by induction on the moves. -/
theorem Session.sound (h : Session C s moves s') (hs : s.Sound C.platform t) :
    s'.Sound C.platform t := by
  induction h with
  | nil s => exact hs
  | ask hadmissible hstep _ ih => exact ih (hs.of_step hadmissible hstep)
  | store _ ih => exact ih (hs.store _ _)

/-- A run is a session without stores. -/
theorem Run.session {log : List (Request × Answer)} (h : Run C s log s') :
    Session C s (log.map fun entry ↦ .asked entry.1 entry.2) s' := by
  induction h with
  | nil s => exact .nil s
  | cons hadmissible hstep _ ih => exact .ask hadmissible hstep ih

/-- Sessions compose. -/
theorem Session.append {s'' : State} {moves' : List Move} (h : Session C s moves s')
    (h' : Session C s' moves' s'') : Session C s (moves ++ moves') s'' := by
  induction h with
  | nil s => exact h'
  | ask hadmissible hstep _ ih => exact .ask hadmissible hstep (ih h')
  | store _ ih => exact .store (ih h')

/-! ### Bytes after an answer -/

/-- The bytes of a block are among those of the table. -/
theorem Tiling.lt_of_hasByte {bs : List Extent} (ht : Tiling t bs) (hb : b ∈ bs)
    (hi : b.HasByte P i) : i < t.length * P.pageSize :=
  (Nat.div_lt_iff_lt_mul P.pageSize_pos).1 (ht.usable_of_mem hb (Extent.hasByte_iff_div.1 hi)).1

/-- The block that is cleared with an answer is outstanding then, and those that were outstanding
before share no frame with it. -/
theorem State.Sound.tiling_of_cleared {c : Extent} (hs : s.Sound C.platform t)
    (hadmissible : r.Admissible s) (h : (step C s r).result = .ok (a, s'))
    (hc : r.cleared C.platform a = some c) : Tiling t (c :: s.outstanding) := by
  have hlent : r.lent C.platform a = some c := by
    rw [Request.cleared] at hc
    split at hc
    · exact hc
    · cases hc
  have hs' := hs.of_step hadmissible h
  obtain ⟨m', -, rfl⟩ := step_eq_ok_iff.1 h
  have ht : Tiling t (Loan.extents (r.record C.platform a s.ledger)) := hs'.tiling_lent
  rwa [Request.record_of_lent hlent] at ht

/-- **A byte outside the block that is cleared** stays as it is. -/
theorem State.Sound.byte?_of_not_cleared (hs : s.Sound C.platform t)
    (hmem : s.machine.directMap = some direct) (h : (step C s r).result = .ok (a, s'))
    (hnone : ¬∃ c, r.cleared C.platform a = some c ∧ c.HasByte C.platform i) :
    s'.machine.byte? i = s.machine.byte? i := by
  rw [Machine.byte?, Machine.byte?, hs.directMap_of_step hmem h, hmem, Option.bind_some,
    Option.bind_some]
  rcases hcleared : r.cleared C.platform a with - | c
  · rw [DirectMap.blank_none]
  · rw [DirectMap.byte?_blank, if_neg fun hi ↦ hnone ⟨c, hcleared, hi⟩]

/-- **A byte of the block that is cleared** is zero, if emulated memory covers the table. -/
theorem State.Sound.byte?_of_cleared {c : Extent} {memory : EmulatedMemory}
    (hs : s.Sound C.platform t) (hmem : s.machine.directMap = some (.emulated memory))
    (hsize : t.length * C.platform.pageSize ≤ memory.size) (hadmissible : r.Admissible s)
    (h : (step C s r).result = .ok (a, s')) (hc : r.cleared C.platform a = some c)
    (hi : c.HasByte C.platform i) : s'.machine.byte? i = some 0 := by
  have ht := hs.tiling_of_cleared hadmissible h hc
  have hlt : i < memory.bytes.size :=
    Nat.lt_of_lt_of_le (ht.lt_of_hasByte List.mem_cons_self hi) hsize
  rw [Machine.byte?, hs.directMap_of_step hmem h, Option.bind_some, hc, DirectMap.byte?_blank,
    if_pos hi, DirectMap.byte?, Array.getElem?_eq_getElem hlt, Option.map_some]

/-- **A byte of an outstanding block** is not touched, whatever is asked and answered. -/
theorem State.Sound.byte?_of_mem_outstanding (hs : s.Sound C.platform t)
    (hmem : s.machine.directMap = some direct) (hadmissible : r.Admissible s)
    (h : (step C s r).result = .ok (a, s')) (hb : b ∈ s.outstanding)
    (hi : b.HasByte C.platform i) : s'.machine.byte? i = s.machine.byte? i := by
  refine hs.byte?_of_not_cleared hmem h fun ⟨c, hc, hci⟩ ↦ ?_
  exact (hs.tiling_of_cleared hadmissible h hc).not_mem_tail hb (Extent.hasByte_iff_div.1 hci)
    (Extent.hasByte_iff_div.1 hi)

/-- **The bytes of a block are those that were stored**: while it is outstanding, all that changes
one of them are the stores to it. -/
theorem Session.byte?_eq (h : Session C s moves s') (hs : s.Sound C.platform t)
    (hmem : s.machine.directMap = some direct)
    (hkept : ∀ before move after s₁, moves = before ++ move :: after → Session C s before s₁ →
      b ∈ s₁.outstanding)
    (hi : b.HasByte C.platform i) :
    s'.machine.byte? i = moves.foldl (Move.write i) (s.machine.byte? i) := by
  induction h generalizing direct with
  | nil s => rfl
  | @ask s s₁ s' r a moves hadmissible hstep _ ih =>
    have hkept₁ : ∀ before move after s₂, moves = before ++ move :: after →
        Session C s₁ before s₂ → b ∈ s₂.outstanding := fun before move after s₂ hmoves hbefore ↦
      hkept (.asked r a :: before) move after s₂ (congrArg (_ :: ·) hmoves)
        (.ask hadmissible hstep hbefore)
    have hb : b ∈ s.outstanding := hkept [] _ moves s rfl (.nil s)
    rw [ih (hs.of_step hadmissible hstep) (hs.directMap_of_step hmem hstep) hkept₁,
      List.foldl_cons, hs.byte?_of_mem_outstanding hmem hadmissible hstep hb hi]
    rfl
  | @store s s' j value moves _ ih =>
    have hkept₁ : ∀ before move after s₂, moves = before ++ move :: after →
        Session C (s.store j value) before s₂ → b ∈ s₂.outstanding :=
      fun before move after s₂ hmoves hbefore ↦
        hkept (.stored j value :: before) move after s₂ (congrArg (_ :: ·) hmoves) (.store hbefore)
    have hmem₁ : (s.store j value).machine.directMap = some (direct.store j value) := by
      show s.machine.directMap.map _ = _
      rw [hmem, Option.map_some]
    rw [ih (hs.store j value) hmem₁ hkept₁, List.foldl_cons, s.byte?_store]

/-! ### Exact clearing and isolation -/

/-- **Exact clearing and isolation.** Take a session from a fresh table, and let emulated memory be
installed that covers the table, and the table fit into the physical address space. A request for a
block of any order is then answered, with an observer or without one, and the flag to clear it
changes neither the answer nor the pool. With the flag the bytes of the block that is handed out are
zero and no other byte changes. Whatever else is asked and answered, a block that is to be cleared
is all that changes, and it is cleared. So, as the session goes on, the bytes of an outstanding
block are those that are stored there, until the block is given back. -/
theorem Session.isolated (ht : t.Initial C.platform) {start : Option DirectMap}
    (h : Session C (State.start t start) moves s) {memory : EmulatedMemory}
    (hmem : s.machine.directMap = some (.emulated memory))
    (hsize : t.length * C.platform.pageSize ≤ memory.size)
    (hfits : t.length * C.platform.pageSize ≤ C.platform.physicalLimit) :
    (∀ (order : Nat) (flags : AllocFlags), ∃ x m₀ m₁,
      (∀ tracing, ((s.machine.allocOrder C order { flags with zero := false }).run C.platform
        tracing).2 = .ok (x, m₀)) ∧
      (∀ tracing, ((s.machine.allocOrder C order { flags with zero := true }).run C.platform
        tracing).2 = .ok (x, m₁)) ∧
      m₁.pool = m₀.pool ∧
      ∀ i, ((∃ page, x = .ok page ∧ Extent.HasByte C.platform ⟨page.frame, order⟩ i) →
          m₁.byte? i = some 0) ∧
        ((¬∃ page, x = .ok page ∧ Extent.HasByte C.platform ⟨page.frame, order⟩ i) →
          m₁.byte? i = s.machine.byte? i)) ∧
    (∀ r a s', r.Admissible s → (step C s r).result = .ok (a, s') →
      (r.clears = false → s'.machine.directMap = s.machine.directMap) ∧
      ∀ i, ((∃ c, r.cleared C.platform a = some c ∧ c.HasByte C.platform i) →
          s'.machine.byte? i = some 0) ∧
        ((¬∃ c, r.cleared C.platform a = some c ∧ c.HasByte C.platform i) →
          s'.machine.byte? i = s.machine.byte? i)) ∧
    ∀ moves' s' b, Session C s moves' s' →
      (∀ before move after s₁, moves' = before ++ move :: after → Session C s before s₁ →
        b ∈ s₁.outstanding) →
      ∀ i, b.HasByte C.platform i →
        s'.machine.byte? i = moves'.foldl (Move.write i) (s.machine.byte? i) := by
  have hs : s.Sound C.platform t := h.sound (State.sound_start C.platform start ht.fresh)
  have hsound : Pool.Sound C.platform t s.machine.pool s.machine.pool.layout s.ledger := hs
  have hlimit := FrameTable.length_le_frameLimit hfits
  have hstep : ∀ r a s', r.Admissible s → (step C s r).result = .ok (a, s') → ∀ i,
      ((∃ c, r.cleared C.platform a = some c ∧ c.HasByte C.platform i) →
        s'.machine.byte? i = some 0) ∧
      ((¬∃ c, r.cleared C.platform a = some c ∧ c.HasByte C.platform i) →
        s'.machine.byte? i = s.machine.byte? i) := fun r a s' hadmissible hstep i ↦
    ⟨fun ⟨c, hc, hi⟩ ↦ hs.byte?_of_cleared hmem hsize hadmissible hstep hc hi,
      hs.byte?_of_not_cleared hmem hstep⟩
  refine ⟨fun order flags ↦ ?_, fun r a s' hadmissible hanswer ↦ ⟨fun hclears ↦ ?_,
    hstep r a s' hadmissible hanswer⟩, fun moves' s' b hsession hkept i hi ↦
    hsession.byte?_eq hs hmem hkept hi⟩
  · obtain ⟨x, m₀, m₁, h₀, h₁, hpool⟩ :=
      hsound.exists_allocOrder_zero hlimit hmem hsize order flags
    have hlegible : ∀ flags, (s.machine.allocOrder C order flags).Legible C.platform := fun flags ↦
      Machine.legible_allocOrder (hs.alike.length_eq ▸ hlimit) order flags C.selfCheck
    refine ⟨x, m₀, m₁, fun _ ↦ Traced.run_eq_ok_iff.2 ⟨h₀, fun _ ↦ hlegible _⟩,
      fun _ ↦ Traced.run_eq_ok_iff.2 ⟨h₁, fun _ ↦ hlegible _⟩, hpool, fun i ↦ ?_⟩
    have hcleared : (∃ c, (Request.allocOrder order { flags with zero := true }).cleared C.platform
        (.ofPage x) = some c ∧ c.HasByte C.platform i) ↔
        ∃ page, x = .ok page ∧ Extent.HasByte C.platform ⟨page.frame, order⟩ i := by
      simp only [Request.cleared_allocOrder_zero]
      constructor
      · rintro ⟨_, ⟨page, hpage, rfl⟩, hi⟩
        exact ⟨page, hpage, hi⟩
      · rintro ⟨page, hpage, hi⟩
        exact ⟨_, ⟨page, hpage, rfl⟩, hi⟩
    rw [← hcleared]
    exact hstep (.allocOrder order { flags with zero := true }) (.ofPage x) ⟨m₁, _⟩
      (Request.admissible_of_nil rfl)
      (step_eq_ok_iff.2 ⟨m₁, Traced.map_eq_ok_iff.2 ⟨(x, m₁), h₁, rfl⟩, rfl⟩) i
  · rw [hs.directMap_of_step hmem hanswer, Request.cleared, hclears, hmem]
    rfl

/-- A page is handed out, and a byte is stored in it. It is still there once a block of two pages
was handed out and cleared. -/
theorem Session.isolated_replayed :
    ∃ moves s, Session ⟨.scaled, true⟩
        (State.start (.ofCount 4) (some (.emulated (.zeros 0 64)))) moves s ∧
      (∃ x m, ∀ tracing, ((s.machine.allocOrder ⟨.scaled, true⟩ 1 { zero := true }).run .scaled
        tracing).2 = .ok (x, m)) ∧
      ∀ a s', (step ⟨.scaled, true⟩ s (.allocOrder 1 { zero := true })).result = .ok (a, s') →
        s'.machine.byte? 5 = some 85 := by
  obtain ⟨s₀, hreplay, hx⟩ : ∃ s₀, replay ⟨.scaled, true⟩
      (State.start (.ofCount 4) (some (.emulated (.zeros 0 64))))
      [.release 0 4, .allocPage {}] = some s₀ ∧
      (s₀.outstanding, s₀.machine.directMap) = ([⟨0, 0⟩], some (.emulated (.zeros 0 64))) :=
    Option.map_eq_some_iff.1 (by decide +kernel : (replay ⟨.scaled, true⟩ _ _).map _ = some _)
  obtain ⟨hout, hmem⟩ := Prod.mk.inj hx
  obtain ⟨log, -, hrun⟩ := exists_run_of_replay hreplay
  have hstore : Session ⟨.scaled, true⟩ s₀ [.stored 5 85] (s₀.store 5 85) := .store (.nil _)
  have hsession := hrun.session.append hstore
  have hstored : (s₀.store 5 85).machine.directMap =
      some ((DirectMap.emulated (.zeros 0 64)).store 5 85) := by
    show s₀.machine.directMap.map _ = _
    rw [hmem, Option.map_some]
  obtain ⟨halloc, -, hkept⟩ :=
    Session.isolated (.ofCount 4) hsession hstored (by decide +kernel) (by decide)
  obtain ⟨x, -, m, -, h₁, -⟩ := halloc 1 {}
  refine ⟨_, _, hsession, ⟨x, m, h₁⟩, fun a s' hstep ↦ ?_⟩
  have hnext : Session ⟨.scaled, true⟩ (s₀.store 5 85) [.asked (.allocOrder 1 { zero := true }) a]
      s' := .ask (Request.admissible_of_nil rfl) hstep (.nil s')
  rw [hkept _ _ ⟨0, 0⟩ hnext ?_ 5 (by decide), Machine.byte?, hstored]
  · show ((DirectMap.emulated (.zeros 0 64)).store 5 85).byte? 5 = some 85
    decide +kernel
  · rintro before move after s₁ hmoves hbefore
    obtain rfl : before = [] := by
      rcases before with - | ⟨first, before⟩
      · rfl
      · simp at hmoves
    cases hbefore
    show _ ∈ s₀.outstanding
    rw [hout]
    exact List.mem_singleton_self _

end FramePool
