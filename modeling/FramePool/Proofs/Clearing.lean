import FramePool.Proofs.DirectMap
import FramePool.Proofs.Progress
import FramePool.Proofs.References

/-!
# Clearing a block: which bytes are written

A block that is handed out may have to be cleared. Where memory is emulated its bytes are those of
its frames, from the address of its head on (`Extent.HasByte`), and clearing writes zeros there and
nowhere else (`DirectMap.byte?_blank`). No other request touches memory, so **what a step does to
the bytes is known from its answer** (`State.Sound.directMap_of_step`).

Whether there is something to clear makes no difference otherwise. If the memory covers the table,
clearing cannot fail (`Machine.exists_clear`), and a request with the flag is answered as one
without it, with the same pool (`Pool.Sound.exists_allocOrder_zero`).
-/

namespace FramePool

variable {C : Config} {P : Platform} {t : FrameTable} {b c : Extent} {i : Nat}

/-! ### Bytes of blocks -/

/-- The byte belongs to the block: it is in one of `2 ^ order` pages from the address of the head
on. -/
def Extent.HasByte (P : Platform) (b : Extent) (i : Nat) : Prop :=
  b.head * P.pageSize ≤ i ∧ i < b.head * P.pageSize + 2 ^ b.order * P.pageSize

instance (P : Platform) (b : Extent) (i : Nat) : Decidable (b.HasByte P i) :=
  inferInstanceAs (Decidable (_ ∧ _))

/-- A byte belongs to a block when its frame does. -/
theorem Extent.hasByte_iff_div : b.HasByte P i ↔ i / P.pageSize ∈ b := by
  rw [HasByte, ← Nat.add_mul, mem_iff, Nat.le_div_iff_mul_le P.pageSize_pos,
    Nat.div_lt_iff_lt_mul P.pageSize_pos]

/-! ### Bytes of memory -/

namespace EmulatedMemory

/-- A byte that is stored is found again, if there is one at the place. -/
theorem getElem?_setIfInBounds (bytes : Array UInt8) (j : Nat) (value : UInt8) (i : Nat) :
    (bytes.setIfInBounds j value)[i]? =
      if j = i then bytes[i]?.map fun _ ↦ value else bytes[i]? := by
  rw [Array.getElem?_setIfInBounds]
  rcases eq_or_ne j i with rfl | hne
  · rw [if_pos rfl, if_pos rfl]
    rcases Nat.lt_or_ge j bytes.size with hlt | hge
    · rw [if_pos hlt, Array.getElem?_eq_getElem hlt, Option.map_some]
    · rw [if_neg (Nat.not_lt.2 hge), Array.getElem?_eq_none hge, Option.map_none]
  · rw [if_neg hne, if_neg hne]

/-- **Filling a range** sets its bytes and no others. -/
theorem getElem?_fillFrom (value : UInt8) (first len : Nat) (bytes : Array UInt8) (i : Nat) :
    (fillFrom value first len bytes)[i]? =
      if first ≤ i ∧ i < first + len then bytes[i]?.map fun _ ↦ value else bytes[i]? := by
  induction len generalizing bytes with
  | zero => rw [fillFrom, if_neg (by omega)]
  | succ len ih =>
    rw [fillFrom, ih, getElem?_setIfInBounds]
    rcases eq_or_ne (first + len) i with rfl | hne
    · have hout : ¬(first ≤ first + len ∧ first + len < first + len) := by omega
      have hin : first ≤ first + len ∧ first + len < first + (len + 1) := by omega
      rw [if_neg hout, if_pos rfl, if_pos hin]
    · have hiff : (first ≤ i ∧ i < first + len) ↔ first ≤ i ∧ i < first + (len + 1) := by omega
      simp only [if_neg hne, hiff]

end EmulatedMemory

namespace DirectMap

/-- The byte at a physical address, where memory is emulated. -/
def byte? (i : Nat) : DirectMap → Option UInt8
  | offset _ => none
  | emulated memory => memory.bytes[i]?

/-- The map with the bytes of a block set to zero, if there is a block and memory is emulated. -/
def blank (P : Platform) : Option Extent → DirectMap → DirectMap
  | some b, emulated ⟨base, bytes⟩ => emulated
    ⟨base, EmulatedMemory.fillFrom 0 (b.head * P.pageSize) (2 ^ b.order * P.pageSize) bytes⟩
  | _, direct => direct

@[simp] theorem blank_none (direct : DirectMap) : direct.blank P none = direct := by
  cases direct <;> rfl

/-- **Clearing a block** sets its bytes to zero and no others. -/
theorem byte?_blank (direct : DirectMap) (b : Extent) (i : Nat) :
    (direct.blank P (some b)).byte? i =
      if b.HasByte P i then (direct.byte? i).map fun _ ↦ 0 else direct.byte? i := by
  cases direct with
  | offset distance => exact (ite_self none).symm
  | emulated memory => exact EmulatedMemory.getElem?_fillFrom ..

end DirectMap

namespace Machine

variable {m m' : Machine} {direct direct' : Option DirectMap} {page : Page} {order : Nat}
  {flags : AllocFlags}

/-- **What clearing does**, if it does not fail: it clears the block if the flags say so. -/
theorem clear_eq_ok (ho : order ≤ topOrder) (h : clear P direct page order flags = .ok direct') :
    direct' = direct.map
      (DirectMap.blank P (if flags.zero then some ⟨page.frame, order⟩ else none)) := by
  rw [clear] at h
  split at h
  · rename_i hzero
    rw [Block.size_eq_ok ho, ok_bind, fill] at h
    obtain ⟨a, ha, h⟩ := bind_eq_ok_iff.1 h
    obtain ⟨v, hv, h⟩ := bind_eq_ok_iff.1 h
    obtain rfl := Except.ok.inj h
    have ha : page.frame * P.pageSize = a.value := Frame.start_eq_ok_iff.1 ha
    rcases direct with - | ⟨distance⟩ | ⟨memory⟩
    · rfl
    · rw [if_pos hzero]
      rfl
    · obtain ⟨-, rfl⟩ := VirtualAddress.directMappedRange_emulated_eq_ok_iff.1 hv
      rw [if_pos hzero]
      simp only [Option.map_some, DirectMap.fill, EmulatedMemory.fill, Nat.add_sub_cancel_left,
        ← ha, DirectMap.blank]
  · rename_i hzero
    obtain rfl := Except.ok.inj h
    rw [if_neg hzero]
    cases direct <;> simp

/-- **Clearing succeeds** for a block that emulated memory has, if its head has an address. -/
theorem exists_clear {memory : EmulatedMemory} (ho : order ≤ topOrder)
    (hpage : page.frame < P.frameLimit)
    (hsize : (page.frame + 2 ^ order) * P.pageSize ≤ memory.size) (flags : AllocFlags) :
    ∃ direct, clear P (some (.emulated memory)) page order flags = .ok direct := by
  rw [clear]
  split
  · have haddress : page.address P = .ok ⟨page.frame * P.pageSize, _⟩ :=
      Frame.start_of_lt (Frame.mul_pageSize_lt_iff.2 hpage)
    rw [Nat.add_mul] at hsize
    have hpos : 0 < 2 ^ order * P.pageSize := Nat.mul_pos (Nat.two_pow_pos _) P.pageSize_pos
    have hbound : page.frame * P.pageSize < memory.size :=
      Nat.lt_of_lt_of_le (Nat.lt_add_of_pos_right hpos) hsize
    rw [Block.size_eq_ok ho, ok_bind, fill, haddress, ok_bind,
      VirtualAddress.directMappedRange_emulated_eq_ok_iff.2 ⟨⟨hsize, hbound⟩, rfl⟩]
    exact ⟨_, rfl⟩
  · exact ⟨_, rfl⟩

end Machine

/-! ### Bytes after an answer -/

namespace Request

/-- Whether a block that is handed out is to be cleared. -/
def clears : Request → Bool
  | allocOrder _ flags => flags.zero
  | allocPage flags => flags.zero
  | allocRef flags => flags.zero
  | _ => false

/-- The block that is cleared with an answer. -/
def cleared (P : Platform) (r : Request) (a : Answer) : Option Extent :=
  if r.clears then r.lent P a else none

/-- With the flag, the block that is cleared is the one that is handed out. -/
theorem cleared_allocOrder_zero {order : Nat} {flags : AllocFlags} {x : Except AllocError Page} :
    (allocOrder order { flags with zero := true }).cleared P (.ofPage x) = some b ↔
      ∃ page, x = .ok page ∧ b = ⟨page.frame, order⟩ := by
  cases x with
  | error e => exact ⟨fun h ↦ (by cases h), fun ⟨_, h, _⟩ ↦ (by cases h)⟩
  | ok page =>
    constructor
    · intro h
      exact ⟨page, rfl, (Option.some.inj h).symm⟩
    · rintro ⟨_, h, rfl⟩
      obtain rfl := Except.ok.inj h
      rfl

end Request

/-- Memory after a request for a block: what is handed out is cleared if the flags say so, and a
refusal changes nothing. -/
theorem Pool.Sound.directMap_of_allocOrder {m m' : Machine} {L : Layout} {ledger : List Loan}
    {order : Nat} {flags : AllocFlags} {x : Except AllocError Page} {direct : DirectMap}
    (hs : Pool.Sound P t m.pool L ledger) (hmem : m.directMap = some direct)
    (h : (m.allocOrder C order flags).result = .ok (x, m')) :
    m'.directMap = some (direct.blank C.platform
      ((Request.allocOrder order flags).cleared C.platform (.ofPage x))) := by
  cases x with
  | error e =>
    obtain ⟨rfl, -⟩ := Machine.of_allocOrder_eq_error hs h
    have hnone : (Request.allocOrder order flags).cleared C.platform (.refused e) = none :=
      ite_self none
    rw [Answer.ofPage, hnone, DirectMap.blank_none, hmem]
  | ok page =>
    obtain ⟨ho, p, -, -, hclear, -⟩ := Machine.allocOrder_eq_ok_iff.1 h
    rw [Machine.clear_eq_ok (Nat.le_of_lt_succ ho) hclear, hmem]
    rfl

/-- **What a step does to memory**, once a direct map is installed: it clears the block that is
handed out if the request says so, and nothing else. -/
theorem State.Sound.directMap_of_step {s s' : State} {r : Request} {a : Answer}
    {direct : DirectMap} (hs : s.Sound C.platform t) (hmem : s.machine.directMap = some direct)
    (h : (step C s r).result = .ok (a, s')) :
    s'.machine.directMap = some (direct.blank C.platform (r.cleared C.platform a)) := by
  have hsound : Pool.Sound C.platform t s.machine.pool s.machine.pool.layout s.ledger := hs
  have hkeep : ∀ {r : Request} {change : Pool → Traced Pool} {m' : Machine} {a : Answer},
      ((Answer.done, ·) <$> s.machine.onPool change).result = .ok (a, m') → r.clears = false →
      m'.directMap = some (direct.blank C.platform (r.cleared C.platform a)) := by
    intro r change m' a hrun hclears
    obtain ⟨p, -, -, rfl⟩ := Machine.of_done_onPool hrun
    rw [Request.cleared, if_neg (by rw [hclears]; decide), DirectMap.blank_none]
    exact hmem
  obtain ⟨m', hrun, rfl⟩ := step_eq_ok_iff.1 h
  show m'.directMap = _
  cases r with
  | allocOrder order flags =>
    obtain ⟨x, halloc, rfl⟩ := Request.of_answered hrun
    exact hsound.directMap_of_allocOrder hmem halloc
  | allocPage flags =>
    obtain ⟨x, halloc, rfl⟩ := Request.of_answered hrun
    have hblank := hsound.directMap_of_allocOrder hmem halloc
    cases x <;> exact hblank
  | allocRef flags =>
    obtain ⟨x, halloc, rfl⟩ := Request.of_answered hrun
    rcases Machine.of_allocRef_eq_ok halloc with ⟨e, rfl, hpage⟩ | ⟨q, m₁, rfl, hpage, -, hsame⟩
    · exact hsound.directMap_of_allocOrder hmem hpage
    · rw [hsame]
      exact hsound.directMap_of_allocOrder hmem hpage
  | ref page =>
    obtain ⟨x, href, rfl⟩ := Request.of_answered hrun
    obtain ⟨-, p, -, rfl⟩ := Machine.ref_eq_ok_iff.1 href
    exact hmem.trans (congrArg some (DirectMap.blank_none direct).symm)
  | install other =>
    obtain ⟨m'', hinstall, -⟩ := Traced.map_eq_ok_iff.1 hrun
    rw [Traced.result_liftM, Machine.install, hmem] at hinstall
    cases hinstall
  | _ => exact hkeep hrun rfl

/-- **A request with the flag is answered as one without it**, and the pool is the same afterwards,
if emulated memory covers the table. -/
theorem Pool.Sound.exists_allocOrder_zero {m : Machine} {L : Layout} {ledger : List Loan}
    {memory : EmulatedMemory} (hs : Pool.Sound C.platform t m.pool L ledger)
    (hfits : t.length ≤ C.platform.frameLimit) (hmem : m.directMap = some (.emulated memory))
    (hsize : t.length * C.platform.pageSize ≤ memory.size) (order : Nat) (flags : AllocFlags) :
    ∃ x m₀ m₁, (m.allocOrder C order { flags with zero := false }).result = .ok (x, m₀) ∧
      (m.allocOrder C order { flags with zero := true }).result = .ok (x, m₁) ∧
      m₁.pool = m₀.pool := by
  obtain ⟨⟨x, m₀⟩, h₀⟩ : ∃ r, (m.allocOrder C order { flags with zero := false }).result = .ok r :=
    hs.exists_allocOrder hfits order rfl
  cases x with
  | error e =>
    obtain ⟨rfl, hwhy⟩ := Machine.of_allocOrder_eq_error hs h₀
    refine ⟨.error e, m₀, m₀, h₀, ?_, rfl⟩
    rcases hwhy with ⟨rfl, ho⟩ | ⟨rfl, ho, hfit⟩
    · rw [Machine.allocOrder_of_le C m₀ _ ho, Traced.result_pure]
    · exact Machine.allocOrder_of_firstFit_eq_none _ ho hfit
  | ok page =>
    obtain ⟨k, -, hs₀⟩ := Machine.sound_of_allocOrder hs h₀
    have hend : page.frame + 2 ^ order ≤ t.length :=
      hs₀.tiling_lent.le_length (b := ⟨page.frame, order⟩) List.mem_cons_self
    have hpage : page.frame < C.platform.frameLimit := Nat.lt_of_lt_of_le
      (Nat.lt_of_lt_of_le (Nat.lt_add_of_pos_right (Nat.two_pow_pos order)) hend) hfits
    obtain ⟨ho, p, htake, hwrite, -, hverify⟩ := Machine.allocOrder_eq_ok_iff.1 h₀
    obtain ⟨direct, hclear⟩ := Machine.exists_clear (Nat.le_of_lt_succ ho) hpage
      (Nat.le_trans (Nat.mul_le_mul_right _ hend) hsize) { flags with zero := true }
    rw [← hmem] at hclear
    exact ⟨.ok page, m₀, ⟨m₀.pool, direct⟩, h₀,
      Machine.allocOrder_eq_ok_iff.2 ⟨ho, p, htake, hwrite, hclear, hverify⟩, rfl⟩

end FramePool
