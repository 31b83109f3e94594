import FramePool.Proofs.BootMap
import FramePool.Proofs.Events
import Mathlib.Data.List.Induction

/-!
# Usable frames: a boot map in terms of bytes

A frame and a region are sets of bytes. Free memory makes a frame usable that it contains, and any
other region takes each frame that it touches. A region that has bytes is compared with a frame by
first and last bytes, and this says just that (`Region.contains_iff`, `Region.touches_iff`). Regions
count in their order, so **the last one that has a say decides** whether a frame is usable
(`FrameTable.ofBootMap_usable_iff`).

Memory cannot have every table that regions ask for. One that it cannot have is refused
(`FrameTable.ofBootMap_eq_capacityOverflow_whole` is such a map).

An empty region has no byte. But it has an end, which counts for the length of the table if the
region is free, and a base, which may lie inside a frame. Otherwise **an empty region changes
nothing**, wherever it stands (`FrameTable.ofBootMap_insert_empty`). A frame inside of which it
starts is still left alone if the region is free, if the frame was reserved before, or if a later
free region contains it; else it may be lost (`FrameTable.exists_ofBootMap_insert_empty_reserved`).
-/

namespace FramePool

variable {P : Platform} {map before after : List Region} {r : Region} {f n : Nat}
  {t t' : FrameTable}

/-! ### Bytes -/

/-- The byte belongs to the frame. -/
def Frame.HasByte (P : Platform) (f : Frame) (i : Nat) : Prop :=
  f * P.pageSize ≤ i ∧ i < f * P.pageSize + P.pageSize

namespace Region

/-- The byte belongs to the region. -/
def HasByte (r : Region) (i : Nat) : Prop := r.base ≤ i ∧ i < r.base + r.size

/-- The region has every byte of the frame. -/
def Contains (P : Platform) (r : Region) (f : Frame) : Prop :=
  ∀ i, f.HasByte P i → r.HasByte i

/-- The region has a byte of the frame. -/
def Touches (P : Platform) (r : Region) (f : Frame) : Prop := ∃ i, f.HasByte P i ∧ r.HasByte i

theorem contains_iff : r.Contains P f ↔
    r.base ≤ f * P.pageSize ∧ f * P.pageSize + P.pageSize ≤ r.base + r.size := by
  have hpos := P.pageSize_pos
  constructor
  · intro h
    have hfirst := h (f * P.pageSize) ⟨Nat.le_refl _, Nat.lt_add_of_pos_right hpos⟩
    have hlast := h (f * P.pageSize + (P.pageSize - 1))
      ⟨Nat.le_add_right _ _, Nat.add_lt_add_left (Nat.sub_one_lt_of_lt hpos) _⟩
    have hend : f * P.pageSize + (P.pageSize - 1) < r.base + r.size := hlast.2
    exact ⟨hfirst.1, by omega⟩
  · rintro ⟨hfirst, hlast⟩ i ⟨hle, hlt⟩
    exact ⟨Nat.le_trans hfirst hle, Nat.lt_of_lt_of_le hlt hlast⟩

/-- A region that is not empty touches a frame when neither ends before the other begins. -/
theorem touches_iff (hsize : 0 < r.size) : r.Touches P f ↔
    r.base < f * P.pageSize + P.pageSize ∧ f * P.pageSize < r.base + r.size := by
  have hpos := P.pageSize_pos
  constructor
  · rintro ⟨i, ⟨hle, hlt⟩, hbase, hlast⟩
    exact ⟨Nat.lt_of_le_of_lt hbase hlt, Nat.lt_of_le_of_lt hle hlast⟩
  · rintro ⟨hbase, hlast⟩
    refine ⟨max r.base (f * P.pageSize), ⟨Nat.le_max_right _ _, ?_⟩, Nat.le_max_left _ _, ?_⟩
    · exact Nat.max_lt.2 ⟨hbase, Nat.lt_add_of_pos_right hpos⟩
    · exact Nat.max_lt.2 ⟨Nat.lt_add_of_pos_right hsize, hlast⟩

/-- A free region contains no frame beyond the table. -/
theorem Contains.lt_wholeFrames (h : r.Contains P f) (hr : r ∈ map) (hfree : r.kind = .free) :
    f < wholeFrames P map := by
  have hend : (f + 1) * P.pageSize ≤ r.base + r.size := by
    rw [Nat.succ_mul]
    exact (contains_iff.1 h).2
  have hle : f + 1 ≤ (r.base + r.size) / P.pageSize :=
    (Nat.le_div_iff_mul_le P.pageSize_pos).2 hend
  exact Nat.lt_of_lt_of_le hle (wholeFrames_le_iff.1 (Nat.le_refl _) r hr hfree)

/-! ### The say of a region -/

variable {first last : Nat} {usable : Bool}

theorem decide_of_free (hfree : r.kind = .free) : r.bytes.decide first last usable = true ↔
    usable = true ∨ r.base ≤ first ∧ last ≤ r.base + r.size := by
  rw [Span.decide, bytes, RegionKind.isUsable_iff.2 hfree, if_pos rfl, Bool.or_eq_true,
    Bool.and_eq_true, decide_eq_true_eq, decide_eq_true_eq]

theorem decide_of_ne_free (hne : r.kind ≠ .free) : r.bytes.decide first last usable = true ↔
    usable = true ∧ ¬(r.base < last ∧ first < r.base + r.size) := by
  have hkind : r.kind.isUsable = false := by
    rw [← Bool.not_eq_true, RegionKind.isUsable_iff]
    exact hne
  rw [Span.decide, bytes, hkind, if_neg Bool.false_ne_true, Bool.and_eq_true, Bool.not_eq_true',
    ← Bool.not_eq_true, Bool.and_eq_true, decide_eq_true_eq, decide_eq_true_eq]

end Region

/-! ### The last region that has a say -/

/-- Some region is free and contains the frame, and no region after it is of another kind and
touches the frame. -/
def LeftUsable (P : Platform) (map : List Region) (f : Frame) : Prop :=
  ∃ (k : Nat) (r : Region), map[k]? = some r ∧ r.kind = .free ∧ r.Contains P f ∧
    ∀ (j : Nat) (r' : Region), k < j → map[j]? = some r' → r'.kind ≠ .free → ¬r'.Touches P f

/-- The last region has its say after all others. -/
theorem leftUsable_concat : LeftUsable P (map ++ [r]) f ↔
    (r.kind = .free ∧ r.Contains P f) ∨
      LeftUsable P map f ∧ (r.kind ≠ .free → ¬r.Touches P f) := by
  constructor
  · rintro ⟨k, q, hk, hfree, hcontains, hlater⟩
    rw [List.getElem?_append] at hk
    split at hk
    · rename_i hlt
      refine Or.inr ⟨⟨k, q, hk, hfree, hcontains, fun j r' hj hr' ↦ hlater j r' hj ?_⟩,
        hlater map.length r hlt List.getElem?_concat_length⟩
      rwa [List.getElem?_append_left (List.getElem?_eq_some_iff.1 hr').1]
    · obtain rfl := List.mem_singleton.1 (List.mem_of_getElem? hk)
      exact Or.inl ⟨hfree, hcontains⟩
  · rintro (⟨hfree, hcontains⟩ | ⟨⟨k, q, hk, hfree, hcontains, hlater⟩, hlast⟩)
    · refine ⟨map.length, r, List.getElem?_concat_length, hfree, hcontains, fun j r' hj hr' ↦ ?_⟩
      rw [List.getElem?_eq_none (by rw [List.length_append]; exact hj)] at hr'
      cases hr'
    · refine ⟨k, q, ?_, hfree, hcontains, fun j r' hj hr' ↦ ?_⟩
      · rwa [List.getElem?_append_left (List.getElem?_eq_some_iff.1 hk).1]
      · rw [List.getElem?_append] at hr'
        split at hr'
        · exact hlater j r' hj hr'
        · obtain rfl := List.mem_singleton.1 (List.mem_of_getElem? hr')
          exact hlast

/-- Whether a frame is usable once regions count, given whether it was before. -/
def Region.outcome (P : Platform) (f : Frame) (usable : Bool) (map : List Region) : Bool :=
  (map.map bytes).foldl (Span.decide (f * P.pageSize) (f * P.pageSize + P.pageSize)) usable

/-- Regions count after those before them. -/
theorem usableFrame_append : usableFrame P ((before ++ after).map Region.bytes) f =
    Region.outcome P f (usableFrame P (before.map Region.bytes) f) after := by
  rw [List.map_append, usableFrame, List.foldl_append]
  rfl

theorem usableFrame_concat : usableFrame P ((map ++ [r]).map Region.bytes) f =
    r.bytes.decide (f * P.pageSize) (f * P.pageSize + P.pageSize)
      (usableFrame P (map.map Region.bytes) f) :=
  usableFrame_append

/-- **The last region that has a say decides**, if none is empty. -/
theorem usableFrame_iff (hsize : ∀ r ∈ map, 0 < r.size) :
    usableFrame P (map.map Region.bytes) f = true ↔ LeftUsable P map f := by
  induction map using List.reverseRecOn with
  | nil => simp [usableFrame, LeftUsable]
  | append_singleton map r ih =>
    obtain ⟨hmap, hr⟩ := List.forall_mem_append.1 hsize
    rw [usableFrame_concat, leftUsable_concat, ← ih hmap, Region.contains_iff,
      Region.touches_iff (hr r (List.mem_singleton_self r))]
    rcases eq_or_ne r.kind .free with hfree | hne
    · rw [Region.decide_of_free hfree]
      simp only [hfree, true_and, ne_eq, not_true_eq_false, false_imp_iff, and_true, or_comm]
    · rw [Region.decide_of_ne_free hne]
      simp only [hne, false_and, ne_eq, not_false_eq_true, true_imp_iff, false_or]

/-! ### Every boot map -/

/-- Beyond the last whole frame of the highest free region nothing is usable. -/
theorem usableFrame_eq_false (hf : Region.wholeFrames P map ≤ f) :
    usableFrame P (map.map Region.bytes) f = false := by
  refine List.foldlRecOn _ _ (motive := (· = false)) rfl fun usable husable s hs ↦ ?_
  obtain ⟨r, hr, rfl⟩ := List.mem_map.1 hs
  rw [← Bool.not_eq_true] at husable ⊢
  rcases eq_or_ne r.kind .free with hfree | hne
  · rw [Region.decide_of_free hfree]
    refine not_or_intro husable fun hcovers ↦ ?_
    have hcontains : r.Contains P f := Region.contains_iff.2 hcovers
    exact Nat.not_lt.2 hf (hcontains.lt_wholeFrames hr hfree)
  · exact fun h ↦ husable ((Region.decide_of_ne_free hne).1 h).1

namespace FrameTable

/-- The frames of the described table that are not reserved are all that the regions leave
usable. -/
theorem isReserved_described_eq_false_iff :
    (f < Region.wholeFrames P map ∧ (described P map).isReserved f = false) ↔
      usableFrame P (map.map Region.bytes) f = true := by
  constructor
  · rintro ⟨hf, husable⟩
    rwa [isReserved_described hf, Bool.not_eq_false'] at husable
  · intro husable
    have hf : f < Region.wholeFrames P map := Nat.lt_of_not_le fun hle ↦ by
      rw [usableFrame_eq_false hle] at husable
      cases husable
    exact ⟨hf, by rw [isReserved_described hf, Bool.not_eq_false', husable]⟩

/-- Building a table shows no address, so an observer makes no difference. -/
theorem run_ofBootMap (P : Platform) (map : List Region) (tracing : Bool) :
    ((FrameTable.ofBootMap P map).run P tracing).2 = (FrameTable.ofBootMap P map).result :=
  (within_ofBootMap fun _ _ ↦ Event.forall_shown_of_nil rfl).legible.run_eq tracing

/-- **A boot map in terms of bytes.** Let no region be empty, and let each of them start at a
physical address and end at a word. If memory can have a table that ends with the last whole frame
of the highest free region, then the boot map describes a table that ends there, with an observer or
without one, and all of its bytes can be counted. A frame of it is usable exactly when some free
region contains all of its bytes and no later region of another kind contains any of them. If memory
cannot have a table of that length, then building it is refused, with an observer or without one. -/
theorem ofBootMap_usable_iff (hsize : ∀ r ∈ map, 0 < r.size) (hread : ∀ r ∈ map, r.Readable P) :
    (Region.wholeFrames P map ≤ tableCapacity →
      ∃ t, (∀ tracing, ((FrameTable.ofBootMap P map).run P tracing).2 = .ok t) ∧
        t.length = Region.wholeFrames P map ∧
        t.length * P.pageSize < Word.limit ∧
        ∀ f, (f < t.length ∧ t.isReserved f = false) ↔
          ∃ (k : Nat) (r : Region), map[k]? = some r ∧ r.kind = .free ∧
            (∀ i, Frame.HasByte P f i → r.HasByte i) ∧
            ∀ (j : Nat) (r' : Region), k < j → map[j]? = some r' → r'.kind ≠ .free →
              ¬∃ i, Frame.HasByte P f i ∧ r'.HasByte i) ∧
    (tableCapacity < Region.wholeFrames P map →
      ∀ tracing, ((FrameTable.ofBootMap P map).run P tracing).2 = .error .capacityOverflow) := by
  have hfree : ∀ r ∈ map, r.kind = .free → r.Readable P := fun r hr _ ↦ hread r hr
  refine ⟨fun hcapacity ↦ ?_, fun hcapacity tracing ↦ ?_⟩
  · have hresult : (FrameTable.ofBootMap P map).result = .ok (described P map) :=
      ofBootMap_eq_ok_iff.2 ⟨hcapacity, fun r hr _ ↦ hread r hr, rfl⟩
    refine ⟨described P map, fun tracing ↦ ?_, length_described, ?_, fun f ↦ ?_⟩
    · rw [run_ofBootMap, hresult]
    · rw [length_described]
      exact Region.wholeFrames_mul_pageSize_lt hfree
    · rw [length_described, isReserved_described_eq_false_iff, usableFrame_iff hsize]
      exact Iff.rfl
  · rw [run_ofBootMap, ofBootMap_eq_capacityOverflow hfree hcapacity]

/-- Free memory that covers neither the first frame nor the last one whole, and a device that lies
across the border of two frames; and free memory of one byte less than words can count, in two
regions. -/
theorem ofBootMap_usable_iff_unaligned :
    (∃ t, (∀ tracing, ((FrameTable.ofBootMap .scaled [⟨8, 160, .free⟩, ⟨79, 2, .reserved⟩]).run
        .scaled tracing).2 = .ok t) ∧
      t.length = 10 ∧ (3 < t.length ∧ t.isReserved 3 = false) ∧
      ¬(4 < t.length ∧ t.isReserved 4 = false)) ∧
    ∀ tracing, ((FrameTable.ofBootMap .scaled
      [⟨0, 64, .free⟩, ⟨64, Word.limit - 65, .free⟩]).run .scaled tracing).2 =
        .error .capacityOverflow := by
  constructor
  · have hsize : ∀ r ∈ ([⟨8, 160, .free⟩, ⟨79, 2, .reserved⟩] : List Region), 0 < r.size := by
      decide
    have hread : ∀ r ∈ ([⟨8, 160, .free⟩, ⟨79, 2, .reserved⟩] : List Region),
        r.Readable .scaled := by
      decide
    obtain ⟨t, ht, hlength, -, husable⟩ := (ofBootMap_usable_iff hsize hread).1 (by decide)
    refine ⟨t, ht, hlength, ?_, ?_⟩
    · rw [husable]
      refine ⟨0, ⟨8, 160, .free⟩, rfl, rfl, Region.contains_iff.2 (by decide), ?_⟩
      rintro (_ | _ | j) r' hj hr' -
      · exact absurd hj (Nat.lt_irrefl 0)
      · obtain rfl := Option.some.inj hr'
        exact (Region.touches_iff (by decide)).not.2 (by decide)
      · cases hr'
    · rw [husable]
      rintro ⟨k, r, hk, hfree, -, hlater⟩
      have hzero : k = 0 := by
        match k, hk with
        | 0, _ => rfl
        | 1, hk =>
          obtain rfl := Option.some.inj hk
          cases hfree
      exact hlater 1 ⟨79, 2, .reserved⟩ (hzero ▸ Nat.zero_lt_one) rfl (by decide)
        ((Region.touches_iff (by decide)).2 (by decide))
  · have hsize : ∀ r ∈ ([⟨0, 64, .free⟩, ⟨64, Word.limit - 65, .free⟩] : List Region),
        0 < r.size := by
      decide
    have hread : ∀ r ∈ ([⟨0, 64, .free⟩, ⟨64, Word.limit - 65, .free⟩] : List Region),
        r.Readable .scaled := by
      decide
    exact (ofBootMap_usable_iff hsize hread).2 (by decide)

/-- **Free memory with all bytes that words can count** is no empty region, starts at a physical
address and ends at a word, and still there is no table for it. -/
theorem ofBootMap_eq_capacityOverflow_whole :
    (∀ r ∈ ([⟨0, Word.limit - 1, .free⟩] : List Region), 0 < r.size ∧ r.Readable .scaled) ∧
    ∀ tracing, ((FrameTable.ofBootMap .scaled [⟨0, Word.limit - 1, .free⟩]).run
      .scaled tracing).2 = .error .capacityOverflow := by
  have hread : ∀ r ∈ ([⟨0, Word.limit - 1, .free⟩] : List Region),
      0 < r.size ∧ r.Readable .scaled := by
    decide
  refine ⟨hread, fun tracing ↦ ?_⟩
  rw [run_ofBootMap, ofBootMap_eq_capacityOverflow (fun r hr _ ↦ (hread r hr).2) (by decide)]

end FrameTable

/-! ### Empty regions -/

namespace Region

/-- The region starts after the first byte of the frame and before the next frame. -/
def StartsInside (P : Platform) (r : Region) (f : Frame) : Prop :=
  f * P.pageSize < r.base ∧ r.base < f * P.pageSize + P.pageSize

instance (P : Platform) (r : Region) (f : Frame) : Decidable (r.StartsInside P f) :=
  inferInstanceAs (Decidable (_ ∧ _))

theorem not_startsInside_of_dvd (h : P.pageSize ∣ r.base) : ¬r.StartsInside P f := by
  obtain ⟨k, hk⟩ := h
  rintro ⟨hfirst, hlast⟩
  rw [hk, Nat.mul_comm P.pageSize] at hfirst hlast
  rw [← Nat.succ_mul] at hlast
  have hlt : f < k := Nat.lt_of_mul_lt_mul_right hfirst
  have hle : k ≤ f := Nat.le_of_lt_succ (Nat.lt_of_mul_lt_mul_right hlast)
  exact Nat.lt_irrefl f (Nat.lt_of_lt_of_le hlt hle)

/-- An empty region never makes a frame usable. -/
theorem of_decide_of_empty (hsize : r.size = 0) {usable : Bool}
    (h : r.bytes.decide (f * P.pageSize) (f * P.pageSize + P.pageSize) usable = true) :
    usable = true := by
  have hpos := P.pageSize_pos
  rcases eq_or_ne r.kind .free with hfree | hne
  · refine ((decide_of_free hfree).1 h).resolve_right fun hcontains ↦ ?_
    omega
  · exact ((decide_of_ne_free hne).1 h).1

/-- An empty region has a say on a frame only if it starts inside of it and is not free. -/
theorem decide_of_empty (hsize : r.size = 0) (h : r.kind = .free ∨ ¬r.StartsInside P f)
    (usable : Bool) :
    r.bytes.decide (f * P.pageSize) (f * P.pageSize + P.pageSize) usable = usable := by
  rw [Bool.eq_iff_iff]
  refine ⟨of_decide_of_empty hsize, fun husable ↦ ?_⟩
  rcases eq_or_ne r.kind .free with hfree | hne
  · exact (decide_of_free hfree).2 (Or.inl husable)
  · refine (decide_of_ne_free hne).2 ⟨husable, fun ⟨hbase, hlast⟩ ↦ ?_⟩
    rw [hsize, Nat.add_zero] at hlast
    exact h.resolve_left hne ⟨hlast, hbase⟩

theorem forall_mem_insert {p : Region → Prop} :
    (∀ r' ∈ before ++ r :: after, p r') ↔ p r ∧ ∀ r' ∈ before ++ after, p r' := by
  simp only [List.perm_middle.mem_iff, List.forall_mem_cons]

/-- The end of an empty region counts if the region is free. -/
theorem wholeFrames_insert_empty (hsize : r.size = 0) : wholeFrames P (before ++ r :: after) =
    max (wholeFrames P (before ++ after)) (if r.kind = .free then r.base / P.pageSize else 0) := by
  refine eq_of_forall_ge_iff fun n ↦ ?_
  have hr : (if r.kind = .free then r.base / P.pageSize else 0) ≤ n ↔
      (r.kind = .free → (r.base + r.size) / P.pageSize ≤ n) := by
    rw [hsize, Nat.add_zero]
    split
    · rename_i hfree
      exact ⟨fun h _ ↦ h, fun h ↦ h hfree⟩
    · rename_i hne
      exact iff_of_true (Nat.zero_le n) fun hfree ↦ absurd hfree hne
  rw [max_le_iff, hr, wholeFrames_le_iff, wholeFrames_le_iff, forall_mem_insert, and_comm]

end Region

/-- A frame that is usable before a region counts is not worse off than one that is not. -/
theorem Span.decide_mono {s : Span} {first last : Nat} {usable usable' : Bool}
    (h : usable = true → usable' = true) (hs : s.decide first last usable = true) :
    s.decide first last usable' = true := by
  rw [Span.decide] at hs ⊢
  split at hs
  · rename_i hfree
    rw [if_pos hfree, Bool.or_eq_true]
    exact (Bool.or_eq_true_iff.1 hs).imp_left h
  · rename_i hne
    rw [if_neg hne, Bool.and_eq_true]
    exact (Bool.and_eq_true_iff.1 hs).imp_left h

theorem Span.foldl_decide_mono {spans : List Span} {first last : Nat} {usable usable' : Bool}
    (h : usable = true → usable' = true)
    (hs : spans.foldl (Span.decide first last) usable = true) :
    spans.foldl (Span.decide first last) usable' = true := by
  induction spans generalizing usable usable' with
  | nil => exact h hs
  | cons s spans ih => exact ih (decide_mono h) hs

/-- A region counts after those before it and before those after it. -/
theorem usableFrame_insert : usableFrame P ((before ++ r :: after).map Region.bytes) f =
    Region.outcome P f (r.bytes.decide (f * P.pageSize) (f * P.pageSize + P.pageSize)
      (usableFrame P (before.map Region.bytes) f)) after :=
  usableFrame_append

/-- What came before a free region that contains a frame makes no difference to the frame. -/
theorem Region.outcome_congr {r' : Region} (hr' : r' ∈ after) (hfree : r'.kind = .free)
    (hcontains : r'.Contains P f) (usable usable' : Bool) :
    outcome P f usable after = outcome P f usable' after := by
  have hsay : ∀ u, r'.bytes.decide (f * P.pageSize) (f * P.pageSize + P.pageSize) u = true :=
    fun u ↦ (decide_of_free hfree).2 (Or.inr (contains_iff.1 hcontains))
  obtain ⟨front, rest, rfl⟩ := List.append_of_mem hr'
  rw [outcome, outcome, List.map_append, List.map_cons, List.foldl_append, List.foldl_append,
    List.foldl_cons, List.foldl_cons, hsay, hsay]

/-- An empty region makes no difference to a frame, unless it starts inside of it and is not
free. Even then it makes none if a later free region contains the frame. -/
theorem usableFrame_insert_empty (hsize : r.size = 0)
    (h : r.kind = .free ∨ ¬r.StartsInside P f ∨
      ∃ r' ∈ after, r'.kind = .free ∧ r'.Contains P f) :
    usableFrame P ((before ++ r :: after).map Region.bytes) f =
      usableFrame P ((before ++ after).map Region.bytes) f := by
  rw [usableFrame_insert, usableFrame_append]
  rcases or_assoc.2 h with hsay | ⟨r', hr', hfree, hcontains⟩
  · rw [Region.decide_of_empty hsize hsay]
  · exact Region.outcome_congr hr' hfree hcontains _ _

/-- An empty region makes no frame usable, whatever comes after it. -/
theorem of_usableFrame_insert_empty (hsize : r.size = 0)
    (h : usableFrame P ((before ++ r :: after).map Region.bytes) f = true) :
    usableFrame P ((before ++ after).map Region.bytes) f = true := by
  rw [usableFrame_insert] at h
  rw [usableFrame_append]
  exact Span.foldl_decide_mono (Region.of_decide_of_empty hsize) h

namespace FrameTable

/-- The table is the same if its length is and each of its frames is left alike. -/
theorem described_insert_empty (hsize : r.size = 0)
    (hlength : r.kind = .free → r.base / P.pageSize ≤ Region.wholeFrames P (before ++ after))
    (hinside : ∀ f, r.kind = .free ∨ ¬r.StartsInside P f) :
    described P (before ++ r :: after) = described P (before ++ after) := by
  have hcount : Region.wholeFrames P (before ++ r :: after) =
      Region.wholeFrames P (before ++ after) := by
    rw [Region.wholeFrames_insert_empty hsize]
    split
    · rename_i hfree
      exact Nat.max_eq_left (hlength hfree)
    · exact Nat.max_zero _
  have hframes : ∀ f, usableFrame P ((before ++ r :: after).map Region.bytes) f =
      usableFrame P ((before ++ after).map Region.bytes) f := fun f ↦
    usableFrame_insert_empty hsize ((hinside f).imp_right Or.inl)
  rw [described, hcount, described, marked, marked]
  exact congrArg FrameTable.mk (congrArg Array.ofFn (funext fun f ↦ by rw [hframes]))

/-- The frames that a table gains from an empty region have an address, and memory can have a table
of those. -/
theorem wholeFrames_insert_empty_le_tableCapacity (hsize : r.size = 0)
    (hbase : r.base < P.physicalLimit)
    (h : Region.wholeFrames P (before ++ after) ≤ tableCapacity) :
    Region.wholeFrames P (before ++ r :: after) ≤ tableCapacity := by
  rw [← P.frameLimit_mul_pageSize] at hbase
  have hend : r.base / P.pageSize < P.frameLimit := (Nat.div_lt_iff_lt_mul P.pageSize_pos).2 hbase
  rw [Region.wholeFrames_insert_empty hsize]
  refine Nat.max_le.2 ⟨h, ?_⟩
  split
  · exact Nat.le_trans (Nat.le_of_lt hend) P.frames_le
  · exact Nat.zero_le _

/-- A boot map still describes a table after an empty region was inserted, unless that gets its
first frame from the region and some other region cannot be read. -/
theorem exists_ofBootMap_insert_empty_iff (hsize : r.size = 0) (hbase : r.base < P.physicalLimit)
    (ht : (FrameTable.ofBootMap P (before ++ after)).result = .ok t) :
    (∃ t', (FrameTable.ofBootMap P (before ++ r :: after)).result = .ok t') ↔
      (t.length = 0 → r.kind = .free → P.pageSize ≤ r.base →
        ∀ r' ∈ before ++ after, r'.Readable P) := by
  obtain ⟨hcapacity, hread, rfl⟩ := ofBootMap_eq_ok_iff.1 ht
  have hr : r.Readable P := ⟨hbase, by
    rw [hsize]
    exact Nat.lt_trans hbase P.physicalLimit_lt⟩
  have hgains : 0 < (if r.kind = .free then r.base / P.pageSize else 0) ↔
      r.kind = .free ∧ P.pageSize ≤ r.base := by
    split
    · rename_i hfree
      rw [Nat.div_pos_iff]
      exact ⟨fun h ↦ ⟨hfree, h.2⟩, fun h ↦ ⟨P.pageSize_pos, h.2⟩⟩
    · rename_i hne
      exact iff_of_false (Nat.lt_irrefl 0) fun h ↦ hne h.1
  simp only [ofBootMap_eq_ok_iff, exists_and_left, exists_eq, and_true, length_described]
  rw [and_iff_right (wholeFrames_insert_empty_le_tableCapacity hsize hbase hcapacity),
    Region.wholeFrames_insert_empty hsize, Region.forall_mem_insert, and_iff_right fun _ ↦ hr]
  rcases Nat.eq_zero_or_pos (Region.wholeFrames P (before ++ after)) with hzero | hpos
  · rw [hzero, Nat.zero_max, hgains]
    constructor
    · exact fun h _ hfree hle r' hr' ↦ h r' hr' (Or.inr ⟨hfree, hle⟩)
    · rintro h r' hr' (hfree | ⟨hfree, hle⟩)
      · exact hread r' hr' (Or.inl hfree)
      · exact h rfl hfree hle r' hr'
  -- A table that has a frame has had all regions looked at.
  · exact iff_of_true (fun r' hr' _ ↦ hread r' hr' (Or.inr hpos))
      fun hzero ↦ absurd hzero (Nat.ne_of_gt hpos)

/-- An empty region does not make a table shorter. -/
theorem wholeFrames_le_insert_empty (hsize : r.size = 0) :
    Region.wholeFrames P (before ++ after) ≤ Region.wholeFrames P (before ++ r :: after) := by
  rw [Region.wholeFrames_insert_empty hsize]
  exact Nat.le_max_left _ _

/-- The frames that a table gains are reserved. -/
theorem get?_described_insert_empty_of_le (hsize : r.size = 0)
    (hle : Region.wholeFrames P (before ++ after) ≤ f)
    (hf : f < Region.wholeFrames P (before ++ r :: after)) :
    (described P (before ++ r :: after)).get? f = some { reserved := true } := by
  have hfalse : usableFrame P ((before ++ r :: after).map Region.bytes) f = false := by
    rw [← Bool.not_eq_true]
    refine mt (of_usableFrame_insert_empty hsize) ?_
    rw [Bool.not_eq_true]
    exact usableFrame_eq_false hle
  rw [get?_described, if_pos hf, hfalse]
  rfl

/-- A frame that a table had stays as it is, if the region has no say on it or not the last one. -/
theorem get?_described_insert_empty (hsize : r.size = 0)
    (hf : f < Region.wholeFrames P (before ++ after))
    (h : r.kind = .free ∨ ¬r.StartsInside P f ∨
      ∃ r' ∈ after, r'.kind = .free ∧ r'.Contains P f) :
    (described P (before ++ r :: after)).get? f = (described P (before ++ after)).get? f := by
  rw [get?_described, get?_described,
    if_pos (Nat.lt_of_lt_of_le hf (wholeFrames_le_insert_empty hsize)), if_pos hf,
    usableFrame_insert_empty hsize h]

/-- A frame that was reserved stays reserved. -/
theorem isReserved_described_insert_empty (hsize : r.size = 0)
    (hf : f < Region.wholeFrames P (before ++ after))
    (h : (described P (before ++ after)).isReserved f = true) :
    (described P (before ++ r :: after)).isReserved f = true := by
  rw [isReserved_described hf, Bool.not_eq_true', ← Bool.not_eq_true] at h
  rw [isReserved_described (Nat.lt_of_lt_of_le hf (wholeFrames_le_insert_empty hsize)),
    Bool.not_eq_true', ← Bool.not_eq_true]
  exact mt (of_usableFrame_insert_empty hsize) h

/-- **Inserting an empty region** whose base is a physical address, anywhere into a boot map that
describes a table. If the region is free and does not end beyond the table, or is not free and
starts with a frame, then the table stays what it is. Whatever the region is, the boot map still
describes a table, unless that gets its first frame from the region and some other region cannot be
read. The table is as long as before or, if the region is free and ends beyond it, ends with the
last whole frame below that end, and the frames that it gains are reserved. A frame that it had
stays as it is, unless the region starts inside of it, is not free, and no later free region
contains the frame; and no frame becomes usable. -/
theorem ofBootMap_insert_empty (hsize : r.size = 0) (hbase : r.base < P.physicalLimit)
    (ht : (FrameTable.ofBootMap P (before ++ after)).result = .ok t) :
    ((r.kind = .free ∧ r.base / P.pageSize ≤ t.length ∨ r.kind ≠ .free ∧ P.pageSize ∣ r.base) →
      (FrameTable.ofBootMap P (before ++ r :: after)).result = .ok t) ∧
    ((∃ t', (FrameTable.ofBootMap P (before ++ r :: after)).result = .ok t') ↔
      (t.length = 0 → r.kind = .free → P.pageSize ≤ r.base →
        ∀ r' ∈ before ++ after, r'.Readable P)) ∧
    ∀ t', (FrameTable.ofBootMap P (before ++ r :: after)).result = .ok t' →
      t'.length = max t.length (if r.kind = .free then r.base / P.pageSize else 0) ∧
      (∀ f, t.length ≤ f → f < t'.length → t'.get? f = some { reserved := true }) ∧
      (∀ f < t.length, (r.kind = .free ∨ ¬r.StartsInside P f ∨
        ∃ r' ∈ after, r'.kind = .free ∧ r'.Contains P f) → t'.get? f = t.get? f) ∧
      ∀ f < t.length, t.isReserved f = true → t'.isReserved f = true := by
  have hexists := exists_ofBootMap_insert_empty_iff hsize hbase ht
  obtain ⟨-, -, rfl⟩ := ofBootMap_eq_ok_iff.1 ht
  simp only [length_described] at hexists ⊢
  refine ⟨fun hneutral ↦ ?_, hexists, fun t' ht' ↦ ?_⟩
  · have hend : r.kind = .free → r.base / P.pageSize ≤ Region.wholeFrames P (before ++ after) :=
      fun hfree ↦ (hneutral.resolve_right fun h ↦ h.1 hfree).2
    have hsame : described P (before ++ r :: after) = described P (before ++ after) :=
      described_insert_empty hsize hend fun f ↦
        hneutral.imp And.left fun h ↦ Region.not_startsInside_of_dvd h.2
    obtain ⟨t', ht'⟩ := hexists.2 fun hzero hfree hle ↦ by
      have hpos : 0 < r.base / P.pageSize := Nat.div_pos hle P.pageSize_pos
      exact absurd (hzero ▸ hend hfree) (Nat.not_le.2 hpos)
    rw [ht', (ofBootMap_eq_ok_iff.1 ht').2.2, hsame]
  · obtain ⟨-, -, rfl⟩ := ofBootMap_eq_ok_iff.1 ht'
    rw [length_described]
    exact ⟨Region.wholeFrames_insert_empty hsize,
      fun f hle hf ↦ get?_described_insert_empty_of_le hsize hle hf,
      fun f hf hsay ↦ get?_described_insert_empty hsize hf hsay,
      fun f hf hreserved ↦ isReserved_described_insert_empty hsize hf hreserved⟩

/-- Empty regions between free memory and firmware storage, in a table of ten frames: one that
starts with a frame, one inside the second frame, one inside a frame that later free memory contains,
and free memory beyond the table. In a map without free memory, an empty free region gives the table
its first frame, for which a region counts that cannot be read. -/
theorem ofBootMap_insert_empty_inside :
    let before : List Region := [⟨0, 64, .free⟩]
    let after : List Region := [⟨64, 40, .acpiNvs⟩, ⟨96, 64, .free⟩]
    let table := fun map ↦ (FrameTable.ofBootMap .scaled map).result
    (∃ t, table (before ++ after) = .ok t ∧ t.length = 10 ∧
      table (before ++ ⟨32, 0, .bad⟩ :: after) = .ok t ∧
      (∃ t', table (before ++ ⟨24, 0, .bad⟩ :: after) = .ok t' ∧ t'.length = 10 ∧
        t'.get? 2 = t.get? 2 ∧ t'.isReserved 5 = true) ∧
      (∃ t', table (before ++ ⟨104, 0, .bad⟩ :: after) = .ok t' ∧ t'.get? 6 = t.get? 6) ∧
      ∃ t', table (before ++ ⟨200, 0, .free⟩ :: after) = .ok t' ∧ t'.length = 12 ∧
        t'.get? 11 = some { reserved := true } ∧ t'.get? 1 = t.get? 1) ∧
    ¬∃ t', table ([] ++ ⟨16, 0, .free⟩ :: [⟨65536, 16, .bad⟩]) = .ok t' := by
  intro before after table
  constructor
  · obtain ⟨t, ht, hlength, hreserved⟩ : ∃ t, table (before ++ after) = .ok t ∧
        t.length = 10 ∧ t.isReserved 5 = true := ⟨_, rfl, rfl, by decide⟩
    have hnonempty : t.length ≠ 0 := by rw [hlength]; decide
    have hlt : ∀ f < 10, f < t.length := fun f hf ↦ by rwa [hlength]
    refine ⟨t, ht, hlength, ?_, ?_, ?_, ?_⟩
    · exact (ofBootMap_insert_empty (r := ⟨32, 0, .bad⟩) rfl (by decide) ht).1
        (Or.inr ⟨by decide, by decide⟩)
    · obtain ⟨-, hexists, hafter⟩ :=
        ofBootMap_insert_empty (r := ⟨24, 0, .bad⟩) rfl (by decide) ht
      obtain ⟨t', ht'⟩ := hexists.2 fun hzero ↦ absurd hzero hnonempty
      obtain ⟨hlength', -, hget, hkept⟩ := hafter t' ht'
      refine ⟨t', ht', by rw [hlength', hlength]; rfl, hget 2 (hlt 2 (by decide)) ?_,
        hkept 5 (hlt 5 (by decide)) hreserved⟩
      exact Or.inr (Or.inl (by decide))
    · obtain ⟨-, hexists, hafter⟩ :=
        ofBootMap_insert_empty (r := ⟨104, 0, .bad⟩) rfl (by decide) ht
      obtain ⟨t', ht'⟩ := hexists.2 fun hzero ↦ absurd hzero hnonempty
      refine ⟨t', ht', (hafter t' ht').2.2.1 6 (hlt 6 (by decide)) (Or.inr (Or.inr ?_))⟩
      exact ⟨⟨96, 64, .free⟩, List.mem_cons_of_mem _ (List.mem_singleton_self _), rfl,
        Region.contains_iff.2 (by decide)⟩
    · obtain ⟨-, hexists, hafter⟩ :=
        ofBootMap_insert_empty (r := ⟨200, 0, .free⟩) rfl (by decide) ht
      obtain ⟨t', ht'⟩ := hexists.2 fun hzero ↦ absurd hzero hnonempty
      obtain ⟨hlength', hgained, hget, -⟩ := hafter t' ht'
      have hlength' : t'.length = 12 := by rw [hlength', hlength]; rfl
      refine ⟨t', ht', hlength', hgained 11 ?_ ?_, hget 1 (hlt 1 (by decide)) (Or.inl rfl)⟩
      · rw [hlength]
        decide
      · rw [hlength']
        decide
  · have ht : (FrameTable.ofBootMap .scaled ([] ++ [⟨65536, 16, .bad⟩])).result = .ok ⟨#[]⟩ := rfl
    refine (ofBootMap_insert_empty (r := ⟨16, 0, .free⟩) rfl (by decide) ht).2.1.not.2 fun h ↦ ?_
    have hread : Region.Readable .scaled ⟨65536, 16, .bad⟩ :=
      h rfl rfl (by decide) _ (List.mem_singleton_self _)
    exact absurd hread.base_lt (by decide)

/-- **Free memory without a byte** makes a table longer when it stands beyond its end. -/
theorem exists_ofBootMap_insert_empty_longer :
    ∃ t t', (FrameTable.ofBootMap .scaled [⟨0, 64, .free⟩]).result = .ok t ∧
      (FrameTable.ofBootMap .scaled [⟨0, 64, .free⟩, ⟨160, 0, .free⟩]).result = .ok t' ∧
      t.length = 4 ∧ t'.length = 10 :=
  ⟨_, _, rfl, rfl, rfl, rfl⟩

/-- **A broken byte range without a byte** reserves the frame inside of which it starts. -/
theorem exists_ofBootMap_insert_empty_reserved :
    ∃ t t', (FrameTable.ofBootMap .scaled [⟨0, 64, .free⟩]).result = .ok t ∧
      (FrameTable.ofBootMap .scaled [⟨0, 64, .free⟩, ⟨24, 0, .bad⟩]).result = .ok t' ∧
      t.length = 4 ∧ t'.length = 4 ∧ t.isReserved 1 = false ∧ t'.isReserved 1 = true :=
  ⟨_, _, rfl, rfl, rfl, rfl, by decide, by decide⟩

end FrameTable

end FramePool
