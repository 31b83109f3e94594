import FramePool.DirectMap
import FramePool.Proofs.Outcome

/-!
# The direct map, there and back

A direct map moves physical addresses by the place at which it shows the first one
(`DirectMap.origin`), modulo the words. It shows an address if the place is canonical, under an
offset, or if the buffer has the byte, where memory is emulated (`DirectMap.Shows`). With that both
ways to look an address up, alone and as the start of a range, have one description
(`VirtualAddress.directMapped_eq_ok_iff`, `VirtualAddress.directMappedRange_eq_ok_iff`).

Hence **what is shown can be traced back** (`VirtualAddress.directMapped_invertible`): a place leads
back to the address that is shown there, and to its frame.

A range is looked up by its first byte. Where a later byte of it is shown, that is where it should
be. But nothing is asked about the later bytes, except that a buffer must have them: they may have
no physical address, or no canonical place. The places of a range are consecutive words, and the
canonical ones are too, so **a range is shown from end to end when its last byte is**
(`VirtualAddress.directMappedRange_shown_iff`).
-/

namespace FramePool

variable {P : Platform} {direct : DirectMap} {a b : PhysicalAddress P} {v : VirtualAddress}
  {len n i : Nat}

/-! ### Words -/

theorem Word.wrappingAdd_wrappingAdd (a b c : Nat) :
    wrappingAdd (wrappingAdd a b) c = wrappingAdd (a + c) b := by
  rw [wrappingAdd, wrappingAdd, wrappingAdd, Nat.mod_add_mod, Nat.add_right_comm]

theorem PhysicalAddress.add_eq_ok_iff : a.add n = .ok b ↔ a.value + n = b.value := by
  rw [add, bind_eq_ok_iff]
  constructor
  · rintro ⟨sum, hsum, h⟩
    obtain ⟨-, rfl⟩ := Word.add_eq_ok_iff.1 hsum
    exact ofNat_eq_ok_iff.1 h
  · intro h
    exact ⟨_, Word.add_eq_ok_iff.2 ⟨h ▸ Nat.lt_trans b.value_lt P.physicalLimit_lt, rfl⟩,
      ofNat_eq_ok_iff.2 h⟩

/-- The canonical words are consecutive, from the middle of the words around their end. -/
theorem Platform.isCanonical_between {k : Nat} (hn : n < Word.limit) (hfirst : P.IsCanonical n)
    (hlast : P.IsCanonical (Word.wrappingAdd n k)) (hk : k < P.physicalLimit) (hi : i ≤ k) :
    P.IsCanonical (Word.wrappingAdd n i) := by
  have hphysical : P.physicalLimit ≤ 2 ^ 63 :=
    Nat.pow_le_pow_right (by decide) (Nat.le_of_lt_succ P.physicalBits_lt)
  have hvirtual : 2 ^ (P.virtualBits - 1) ≤ 2 ^ 62 := by
    have := P.virtualBits_lt
    exact Nat.pow_le_pow_right (by decide) (by omega)
  unfold IsCanonical at *
  generalize 2 ^ (P.virtualBits - 1) = half at *
  unfold Word.wrappingAdd Word.limit at *
  omega

/-! ### Where addresses are shown -/

namespace DirectMap

/-- Where the map shows the first physical address. -/
def origin : DirectMap → Nat
  | offset distance => distance
  | emulated memory => memory.base

/-- The map lies among the words: an offset is one, and a buffer does not run past the last. -/
def Fits : DirectMap → Prop
  | offset distance => distance < Word.limit
  | emulated memory => memory.base + memory.size ≤ Word.limit

/-- The map shows a physical address: the place is canonical, or the buffer has the byte. -/
def Shows (P : Platform) (n : Nat) : DirectMap → Prop
  | offset distance => P.IsCanonical (Word.wrappingAdd n distance)
  | emulated memory => n < memory.size

/-- The end of a range is within the buffer, where there is one. -/
def Holds (n len : Nat) : DirectMap → Prop
  | offset _ => True
  | emulated memory => n + len ≤ memory.size

/-- A buffer that fits shows its bytes at words. -/
theorem wrappingAdd_origin {memory : EmulatedMemory} (hfits : (emulated memory).Fits)
    (hn : n < memory.size) :
    Word.wrappingAdd n (emulated memory).origin = memory.base + n := by
  rw [origin, Word.wrappingAdd, Nat.add_comm]
  exact Nat.mod_eq_of_lt (Nat.lt_of_lt_of_le (Nat.add_lt_add_left hn _) hfits)

/-- The physical addresses that a map shows are consecutive. -/
theorem shows_between {k : Nat} (hfirst : direct.Shows P n) (hlast : direct.Shows P (n + k))
    (hk : k < P.physicalLimit) (hi : i ≤ k) : direct.Shows P (n + i) := by
  cases direct with
  | offset distance =>
    simp only [Shows, ← Word.wrappingAdd_wrappingAdd] at hfirst hlast ⊢
    exact P.isCanonical_between (Nat.mod_lt _ (by decide)) hfirst hlast hk hi
  | emulated memory => exact Nat.lt_of_le_of_lt (Nat.add_le_add_left hi n) hlast

end DirectMap

namespace EmulatedMemory

variable {memory : EmulatedMemory} {virt : Nat}

theorem toVirtual_eq_ok_iff :
    memory.toVirtual n = .ok virt ↔ n < memory.size ∧ virt = memory.base + n := by
  rw [toVirtual, require_bind_eq_ok_iff, pure_eq_ok_iff]

theorem rangeToVirtual_eq_ok_iff : memory.rangeToVirtual n len = .ok virt ↔
    (n + len ≤ memory.size ∧ n < memory.size) ∧ virt = memory.base + n := by
  rw [rangeToVirtual, require_bind_eq_ok_iff, pure_eq_ok_iff]

end EmulatedMemory

namespace VirtualAddress

open DirectMap

/-- A byte of emulated memory is found exactly when the buffer has it. -/
theorem directMapped_emulated_eq_ok_iff {memory : EmulatedMemory} :
    directMapped P (some (.emulated memory)) a = .ok v ↔
      a.value < memory.size ∧ v = ⟨memory.base + a.value⟩ := by
  rw [directMapped, DirectMap.current, ok_bind, bind_eq_ok_iff]
  constructor
  · rintro ⟨virt, hvirt, h⟩
    obtain ⟨hbound, rfl⟩ := EmulatedMemory.toVirtual_eq_ok_iff.1 hvirt
    exact ⟨hbound, (Except.ok.inj h).symm⟩
  · rintro ⟨hbound, rfl⟩
    exact ⟨_, EmulatedMemory.toVirtual_eq_ok_iff.2 ⟨hbound, rfl⟩, rfl⟩

/-- A range of emulated memory is found exactly when the buffer has all of it. -/
theorem directMappedRange_emulated_eq_ok_iff {memory : EmulatedMemory} :
    directMappedRange P (some (.emulated memory)) a len = .ok v ↔
      (a.value + len ≤ memory.size ∧ a.value < memory.size) ∧ v = ⟨memory.base + a.value⟩ := by
  rw [directMappedRange, DirectMap.current, ok_bind, bind_eq_ok_iff]
  constructor
  · rintro ⟨virt, hvirt, h⟩
    obtain ⟨hbound, rfl⟩ := EmulatedMemory.rangeToVirtual_eq_ok_iff.1 hvirt
    exact ⟨hbound, (Except.ok.inj h).symm⟩
  · rintro ⟨hbound, rfl⟩
    exact ⟨_, EmulatedMemory.rangeToVirtual_eq_ok_iff.2 ⟨hbound, rfl⟩, rfl⟩

/-- **An address is looked up** when the map shows it, and found where the map puts it. -/
theorem directMapped_eq_ok_iff (hfits : direct.Fits) :
    directMapped P (some direct) a = .ok v ↔
      direct.Shows P a.value ∧ v = ⟨Word.wrappingAdd a.value direct.origin⟩ := by
  cases direct with
  | offset distance => exact ofNat_eq_ok_iff
  | emulated memory =>
    rw [directMapped_emulated_eq_ok_iff]
    exact and_congr_right fun hbound ↦ by rw [wrappingAdd_origin hfits hbound]

/-- **A range is looked up** when the map shows its first byte and its end is within the buffer. It
is found where its first byte is. -/
theorem directMappedRange_eq_ok_iff (hfits : direct.Fits) :
    directMappedRange P (some direct) a len = .ok v ↔
      (direct.Holds a.value len ∧ direct.Shows P a.value) ∧
        v = ⟨Word.wrappingAdd a.value direct.origin⟩ := by
  cases direct with
  | offset distance =>
    show VirtualAddress.ofNat P (Word.wrappingAdd a.value distance) = .ok v ↔ _
    rw [ofNat_eq_ok_iff]
    exact and_congr_left fun _ ↦ iff_of_eq (true_and _).symm
  | emulated memory =>
    rw [directMappedRange_emulated_eq_ok_iff]
    exact and_congr_right fun hbound ↦ by rw [wrappingAdd_origin hfits hbound.2]

/-! ### There and back -/

/-- What was found is an address that a program may come by. -/
theorem ofPointer_of_directMapped (hfits : direct.Fits)
    (h : directMapped P (some direct) a = .ok v) : ofPointer P (some direct) v.value = .ok v := by
  obtain ⟨hshows, rfl⟩ := (directMapped_eq_ok_iff hfits).1 h
  cases direct with
  | offset distance => exact ofNat_eq_ok_iff.2 ⟨hshows, rfl⟩
  | emulated memory => rfl

/-- What was found leads back to the address that was looked up. -/
theorem ofDirectMapped_of_directMapped (hfits : direct.Fits)
    (h : directMapped P (some direct) a = .ok v) :
    PhysicalAddress.ofDirectMapped P (some direct) v = .ok a := by
  obtain ⟨hshows, rfl⟩ := (directMapped_eq_ok_iff hfits).1 h
  have hback : direct.toPhysical (Word.wrappingAdd a.value direct.origin) = .ok a.value := by
    cases direct with
    | offset distance =>
      have hword : a.value < Word.limit := Nat.lt_trans a.value_lt P.physicalLimit_lt
      exact congrArg Except.ok (Word.wrappingSub_wrappingAdd hword hfits)
    | emulated memory =>
      have hbound : a.value < memory.size := hshows
      rw [wrappingAdd_origin hfits hbound]
      show memory.toPhysical (memory.base + a.value) = .ok a.value
      rw [EmulatedMemory.toPhysical, require_bind_eq_ok_iff, Nat.add_sub_cancel_left]
      exact ⟨⟨Nat.le_add_right _ _, hbound⟩, rfl⟩
  rw [PhysicalAddress.ofDirectMapped, DirectMap.current, ok_bind, hback, ok_bind]
  exact PhysicalAddress.ofNat_eq_ok_iff.2 rfl

/-- **There and back.** Under a direct map that lies among the words, let a physical address be
shown at a virtual one. That is a word, and a program may come by it. It leads back to the physical
address and to the page of its frame, whichever byte of the frame it is; and no other physical
address is shown there. -/
theorem directMapped_invertible (hfits : direct.Fits)
    (h : directMapped P (some direct) a = .ok v) :
    v.value < Word.limit ∧
    (ofPointer P (some direct) v.value >>= PhysicalAddress.ofDirectMapped P (some direct)) = .ok a ∧
    (ofPointer P (some direct) v.value >>= Page.containing P (some direct)) =
      .ok ⟨a.value / P.pageSize⟩ ∧
    (∀ f : Frame, f * P.pageSize ≤ a.value → a.value < f * P.pageSize + P.pageSize →
      Page.containing P (some direct) v = .ok ⟨f⟩) ∧
    ∀ b, directMapped P (some direct) b = .ok v → b = a := by
  have hback := ofDirectMapped_of_directMapped hfits h
  have hcontaining : Page.containing P (some direct) v = .ok ⟨a.value / P.pageSize⟩ := by
    rw [Page.containing, hback]
    rfl
  refine ⟨?_, ?_, ?_, fun f hfirst hlast ↦ ?_, fun b hb ↦ ?_⟩
  · rw [((directMapped_eq_ok_iff hfits).1 h).2]
    exact Nat.mod_lt _ (by decide)
  · rw [ofPointer_of_directMapped hfits h, ok_bind, hback]
  · rw [ofPointer_of_directMapped hfits h, ok_bind, hcontaining]
  · rw [hcontaining, Nat.div_eq_of_lt_le hfirst (by rwa [Nat.succ_mul])]
  · rw [ofDirectMapped_of_directMapped hfits hb] at hback
    exact Except.ok.inj hback

/-- An offset just below the end of the words, so that addresses are shown around it. -/
theorem directMapped_invertible_around :
    (DirectMap.offset (Word.limit - 16)).Fits ∧
    directMapped .scaled (some (.offset (Word.limit - 16))) ⟨20, by decide⟩ = .ok ⟨4⟩ ∧
    PhysicalAddress.ofDirectMapped .scaled (some (.offset (Word.limit - 16))) ⟨4⟩ =
      .ok ⟨20, by decide⟩ ∧
    Page.containing .scaled (some (.offset (Word.limit - 16))) ⟨4⟩ = .ok ⟨1⟩ := by
  have hfits : (DirectMap.offset (Word.limit - 16)).Fits := Nat.sub_lt (by decide) (by decide)
  have h : directMapped .scaled (some (.offset (Word.limit - 16))) ⟨20, by decide⟩ = .ok ⟨4⟩ := rfl
  obtain ⟨-, hback, -, hframe, -⟩ := directMapped_invertible hfits h
  exact ⟨hfits, h, hback, hframe 1 (by decide) (by decide)⟩

/-! ### Ranges -/

/-- The byte `i` bytes above a physical address has one, and is shown `i` bytes above a virtual
address. -/
def ShownAt (P : Platform) (installed : Option DirectMap) (a : PhysicalAddress P)
    (v : VirtualAddress) (i : Nat) : Prop :=
  ∃ b, a.add i = .ok b ∧ directMapped P installed b = .ok ⟨Word.wrappingAdd v.value i⟩

theorem shownAt_iff (hfits : direct.Fits) (h : directMapped P (some direct) a = .ok v) :
    ShownAt P (some direct) a v i ↔
      a.value + i < P.physicalLimit ∧ direct.Shows P (a.value + i) := by
  obtain ⟨-, rfl⟩ := (directMapped_eq_ok_iff hfits).1 h
  simp only [ShownAt, Word.wrappingAdd_wrappingAdd]
  constructor
  · rintro ⟨b, hb, hshown⟩
    rw [PhysicalAddress.add_eq_ok_iff] at hb
    rw [hb]
    exact ⟨b.value_lt, ((directMapped_eq_ok_iff hfits).1 hshown).1⟩
  · rintro ⟨hlt, hshows⟩
    exact ⟨⟨a.value + i, hlt⟩, PhysicalAddress.add_eq_ok_iff.2 rfl,
      (directMapped_eq_ok_iff hfits).2 ⟨hshows, rfl⟩⟩

/-- A range is found where its first byte is. -/
theorem directMapped_of_directMappedRange (hfits : direct.Fits)
    (h : directMappedRange P (some direct) a len = .ok v) :
    directMapped P (some direct) a = .ok v := by
  obtain ⟨⟨-, hshows⟩, hv⟩ := (directMappedRange_eq_ok_iff hfits).1 h
  exact (directMapped_eq_ok_iff hfits).2 ⟨hshows, hv⟩

/-- **Ranges.** Let a range be looked up under a direct map that lies among the words. Where one of
its bytes is shown alone, that is where the range has it. A byte of the range is shown when it has a
physical address and, under an offset, its place is canonical; and all of them are shown when the
last one is. -/
theorem directMappedRange_shown_iff (hfits : direct.Fits)
    (h : directMappedRange P (some direct) a len = .ok v) :
    (∀ i < len, ∀ b w, a.add i = .ok b → directMapped P (some direct) b = .ok w →
      w = ⟨Word.wrappingAdd v.value i⟩) ∧
    (∀ i < len, ShownAt P (some direct) a v i ↔ a.value + i < P.physicalLimit ∧
      ∀ distance, direct = .offset distance → P.IsCanonical (Word.wrappingAdd v.value i)) ∧
    (0 < len → ((∀ i < len, ShownAt P (some direct) a v i) ↔
      ShownAt P (some direct) a v (len - 1))) := by
  have hfirst := directMapped_of_directMappedRange hfits h
  obtain ⟨⟨hholds, hshows⟩, hv⟩ := (directMappedRange_eq_ok_iff hfits).1 h
  refine ⟨fun i _ b w hb hw ↦ ?_, fun i hi ↦ ?_, fun hpos ↦ ⟨fun hall ↦ ?_, fun hlast i hi ↦ ?_⟩⟩
  · rw [((directMapped_eq_ok_iff hfits).1 hw).2, hv, ← PhysicalAddress.add_eq_ok_iff.1 hb,
      Word.wrappingAdd_wrappingAdd]
  · rw [shownAt_iff hfits hfirst, hv, Word.wrappingAdd_wrappingAdd]
    refine and_congr_right fun _ ↦ ?_
    cases direct with
    | offset distance => exact ⟨fun hshown d hd ↦ DirectMap.offset.inj hd ▸ hshown, fun h ↦ h _ rfl⟩
    | emulated memory =>
      have hbound : a.value + i < memory.size :=
        Nat.lt_of_lt_of_le (Nat.add_lt_add_left hi _) hholds
      exact iff_of_true hbound fun d hd ↦ by cases hd
  · exact hall (len - 1) (Nat.sub_one_lt_of_lt hpos)
  · rw [shownAt_iff hfits hfirst] at hlast ⊢
    obtain ⟨hlt, hlast⟩ := hlast
    have hi : i ≤ len - 1 := Nat.le_sub_one_of_lt hi
    have hk : len - 1 < P.physicalLimit := Nat.lt_of_le_of_lt (Nat.le_add_left _ _) hlt
    exact ⟨Nat.lt_of_le_of_lt (Nat.add_le_add_left hi _) hlt, shows_between hshows hlast hk hi⟩

/-- A range that is shown around the end of the words. -/
theorem directMappedRange_shown_iff_around :
    (DirectMap.offset (Word.limit - 40)).Fits ∧
    directMappedRange .scaled (some (.offset (Word.limit - 40))) ⟨32, by decide⟩ 16 =
      .ok ⟨Word.limit - 8⟩ ∧
    ∀ i < 16, ShownAt .scaled (some (.offset (Word.limit - 40))) ⟨32, by decide⟩
      ⟨Word.limit - 8⟩ i := by
  have hfits : (DirectMap.offset (Word.limit - 40)).Fits := Nat.sub_lt (by decide) (by decide)
  have h : directMappedRange .scaled (some (.offset (Word.limit - 40))) ⟨32, by decide⟩ 16 =
      .ok ⟨Word.limit - 8⟩ := rfl
  obtain ⟨-, -, hall⟩ := directMappedRange_shown_iff hfits h
  have hshown : directMapped .scaled (some (.offset (Word.limit - 40))) ⟨47, by decide⟩ = .ok ⟨7⟩ :=
    rfl
  have hlast : ShownAt .scaled (some (.offset (Word.limit - 40))) ⟨32, by decide⟩
      ⟨Word.limit - 8⟩ (16 - 1) := ⟨_, PhysicalAddress.add_eq_ok_iff.2 rfl, hshown⟩
  exact ⟨hfits, h, (hall (by decide)).2 hlast⟩

/-- **A range that is cut off.** Of two bytes that are looked up as a range, the second has no
canonical place. -/
theorem exists_directMappedRange_cut_off :
    directMappedRange .scaled (some (.offset 32512)) ⟨255, by decide⟩ 2 = .ok ⟨32767⟩ ∧
      directMapped .scaled (some (.offset 32512)) ⟨256, by decide⟩ = .error .notCanonical :=
  ⟨rfl, rfl⟩

end VirtualAddress

end FramePool
