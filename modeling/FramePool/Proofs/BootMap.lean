import FramePool.BootMap
import FramePool.Proofs.Outcome

/-!
# Reading a boot map

A region is read when it is looked at: its base must be a physical address and its end a word
(`Region.Readable`). The free regions are looked at to find out how long the table is, and all
regions if it has a frame at all. So **what table a boot map describes, and when it describes one**,
is a matter of the regions alone (`FrameTable.ofBootMap_eq_ok_iff`). A table that is too large for
memory is noticed in between, once its length is known and before any region is looked at for a
frame (`FrameTable.ofBootMap_eq_capacityOverflow`).
-/

namespace FramePool

variable {P : Platform} {map : List Region} {r : Region} {f : Frame} {t : FrameTable} {n : Nat}

@[simp] theorem RegionKind.isUsable_iff {k : RegionKind} : k.isUsable = true ↔ k = .free := by
  rw [isUsable, beq_iff_eq]

/-! ### Regions -/

namespace Region

/-- A region that can be read: its base is a physical address, and its end is a word. -/
structure Readable (P : Platform) (r : Region) : Prop where
  /-- The base is a physical address. -/
  base_lt : r.base < P.physicalLimit
  /-- The end is a word. -/
  last_lt : r.base + r.size < Word.limit

instance (P : Platform) (r : Region) : Decidable (r.Readable P) :=
  decidable_of_iff (r.base < P.physicalLimit ∧ r.base + r.size < Word.limit)
    ⟨fun h ↦ ⟨h.1, h.2⟩, fun h ↦ ⟨h.base_lt, h.last_lt⟩⟩

/-- The bytes of a region, whether or not it can be read. -/
def bytes (r : Region) : Span := ⟨r.base, r.base + r.size, r.kind.isUsable⟩

theorem span_eq_ok_iff {s : Span} : r.span P = .ok s ↔ r.Readable P ∧ s = r.bytes := by
  constructor
  · intro h
    obtain ⟨base, hbase, h⟩ := bind_eq_ok_iff.1 h
    obtain ⟨last, hlast, h⟩ := bind_eq_ok_iff.1 h
    obtain rfl := Except.ok.inj h
    have hvalue : r.base = base.value := PhysicalAddress.ofNat_eq_ok_iff.1 hbase
    obtain ⟨hlt, rfl⟩ := Word.add_eq_ok_iff.1 hlast
    rw [← hvalue] at hlt ⊢
    exact ⟨⟨hvalue ▸ base.value_lt, hlt⟩, rfl⟩
  · rintro ⟨⟨hbase, hlast⟩, rfl⟩
    rw [span, PhysicalAddress.ofNat_of_lt hbase, ok_bind, Word.add_eq_ok_iff.2 ⟨hlast, rfl⟩]
    rfl

/-- Regions are read one after the other. -/
theorem mapM_span_eq_ok_iff {spans : List Span} :
    map.mapM (span P) = .ok spans ↔ (∀ r ∈ map, r.Readable P) ∧ spans = map.map bytes :=
  mapM_eq_ok_iff fun _ _ ↦ span_eq_ok_iff

/-- The number of whole frames below the end of the highest free region. -/
def wholeFrames (P : Platform) (map : List Region) : Nat :=
  ((map.filter (·.kind = .free)).map fun r ↦ (r.base + r.size) / P.pageSize).max?.getD 0

theorem wholeFrames_le_iff :
    wholeFrames P map ≤ n ↔ ∀ r ∈ map, r.kind = .free → (r.base + r.size) / P.pageSize ≤ n := by
  have hmem : (∀ r ∈ map, r.kind = .free → (r.base + r.size) / P.pageSize ≤ n) ↔
      ∀ k ∈ (map.filter (·.kind = .free)).map fun r ↦ (r.base + r.size) / P.pageSize, k ≤ n := by
    simp only [List.forall_mem_map, List.mem_filter, decide_eq_true_eq, and_imp]
  rw [hmem, wholeFrames]
  generalize (map.filter (·.kind = .free)).map (fun r ↦ (r.base + r.size) / P.pageSize) = ends
  rcases hmax : ends.max? with - | k
  · rw [List.max?_eq_none_iff.1 hmax]
    exact ⟨fun _ _ h ↦ absurd h List.not_mem_nil, fun _ ↦ Nat.zero_le n⟩
  · exact List.max?_le_iff hmax

/-- The frames below the end of the highest free region have no more bytes than a word can count. -/
theorem wholeFrames_mul_pageSize_lt (hread : ∀ r ∈ map, r.kind = .free → r.Readable P) :
    wholeFrames P map * P.pageSize < Word.limit := by
  have hlimit : wholeFrames P map ≤ (Word.limit - 1) / P.pageSize :=
    wholeFrames_le_iff.2 fun r hr hfree ↦
      Nat.div_le_div_right (Nat.le_sub_one_of_lt (hread r hr hfree).last_lt)
  exact Nat.lt_of_le_pred (by decide) ((Nat.le_div_iff_mul_le P.pageSize_pos).1 hlimit)

end Region

/-! ### The table -/

namespace FrameTable

/-- A table of some length whose frames are usable where some spans leave them so. -/
def marked (P : Platform) (spans : List Span) (count : Nat) : FrameTable :=
  ⟨Array.ofFn fun f : Fin count ↦ { reserved := !usableFrame P spans f }⟩

/-- Spans make no difference where there are no frames. -/
theorem marked_zero (P : Platform) (spans : List Span) : marked P spans 0 = ⟨#[]⟩ := by
  rw [marked, Array.ofFn_zero]

/-- The table that the regions describe, whether or not they can be read. -/
def described (P : Platform) (map : List Region) : FrameTable :=
  marked P (map.map Region.bytes) (Region.wholeFrames P map)

@[simp] theorem length_described : (described P map).length = Region.wholeFrames P map :=
  Array.size_ofFn

theorem get?_described : (described P map).get? f =
    if f < Region.wholeFrames P map then
      some { reserved := !usableFrame P (map.map Region.bytes) f }
    else none := by
  rw [get?, described, marked, Array.getElem?_ofFn]
  split <;> rfl

theorem isReserved_described (hf : f < Region.wholeFrames P map) :
    (described P map).isReserved f = !usableFrame P (map.map Region.bytes) f := by
  rw [isReserved, get?_described, if_pos hf, Option.any_some]

theorem requireCapacity_eq_ok_iff {u : Unit} : requireCapacity n = .ok u ↔ n ≤ tableCapacity :=
  require_eq_ok_iff

/-- The frames can be counted when the free regions can be read. -/
theorem frameCount_eq_ok_iff : frameCount P map = .ok n ↔
    (∀ r ∈ map, r.kind = .free → r.Readable P) ∧ n = Region.wholeFrames P map := by
  have hfilter : map.filter (·.kind.isUsable) = map.filter (·.kind = .free) :=
    List.filter_congr fun r _ ↦ by
      rw [Bool.eq_iff_iff, RegionKind.isUsable_iff, decide_eq_true_eq]
  have hcount : (((map.filter (·.kind = .free)).map Region.bytes).map fun s ↦
      s.last / P.pageSize).foldl max 0 = Region.wholeFrames P map := by
    rw [List.map_map, List.foldl_max, Nat.zero_max]
    rfl
  rw [frameCount, hfilter, bind_eq_ok_iff]
  simp only [Region.mapM_span_eq_ok_iff, List.mem_filter, decide_eq_true_eq, and_imp]
  constructor
  · rintro ⟨spans, ⟨hread, rfl⟩, h⟩
    exact ⟨hread, (Except.ok.inj h).symm.trans hcount⟩
  · rintro ⟨hread, rfl⟩
    exact ⟨_, ⟨hread, rfl⟩, congrArg Except.ok hcount⟩

/-- **A boot map describes a table** when memory can have the table, and each region that is looked
at can be read. These are the free ones, and all of them if the table has a frame. -/
theorem ofBootMap_eq_ok_iff : (ofBootMap P map).result = .ok t ↔
    Region.wholeFrames P map ≤ tableCapacity ∧
      (∀ r ∈ map, r.kind = .free ∨ 0 < Region.wholeFrames P map → r.Readable P) ∧
        t = described P map := by
  simp only [ofBootMap, Traced.result_bind, Traced.result_liftM, Traced.result_emit,
    Traced.result_pure, bind_eq_ok_iff, frameCount_eq_ok_iff, requireCapacity_eq_ok_iff]
  constructor
  · rintro ⟨_, ⟨hfree, rfl⟩, _, -, _, hcapacity, spans, hspans, h⟩
    obtain rfl : marked P spans (Region.wholeFrames P map) = t := Except.ok.inj h
    refine ⟨hcapacity, ?_⟩
    split at hspans
    · rename_i hzero
      refine ⟨fun r hr hlooked ↦ hfree r hr (hlooked.resolve_right ?_), ?_⟩
      · exact Nat.not_lt.2 (Nat.le_of_eq hzero)
      · rw [described, hzero, marked_zero, marked_zero]
    · obtain ⟨hread, rfl⟩ := Region.mapM_span_eq_ok_iff.1 hspans
      exact ⟨fun r hr _ ↦ hread r hr, rfl⟩
  · rintro ⟨hcapacity, hread, rfl⟩
    refine ⟨_, ⟨fun r hr hfree ↦ hread r hr (Or.inl hfree), rfl⟩, (), trivial, (), hcapacity, ?_⟩
    split
    · rename_i hzero
      refine ⟨[], rfl, congrArg Except.ok ?_⟩
      show marked P [] (Region.wholeFrames P map) = described P map
      rw [described, hzero, marked_zero, marked_zero]
    · rename_i hne
      exact ⟨_, Region.mapM_span_eq_ok_iff.2 ⟨fun r hr ↦ hread r hr
        (Or.inr (Nat.pos_of_ne_zero hne)), rfl⟩, rfl⟩

/-- **A table that is too large for memory** is not built, whatever the regions are that were not
looked at yet. -/
theorem ofBootMap_eq_capacityOverflow (hread : ∀ r ∈ map, r.kind = .free → r.Readable P)
    (h : tableCapacity < Region.wholeFrames P map) :
    (ofBootMap P map).result = .error .capacityOverflow := by
  have hcount : frameCount P map = .ok (Region.wholeFrames P map) :=
    frameCount_eq_ok_iff.2 ⟨hread, rfl⟩
  have hrefused : requireCapacity (Region.wholeFrames P map) = .error .capacityOverflow :=
    require_of_neg (Nat.not_le.2 h)
  simp only [ofBootMap, Traced.result_bind, Traced.result_liftM, Traced.result_emit, hcount, ok_bind,
    hrefused, error_bind]

end FrameTable

end FramePool
