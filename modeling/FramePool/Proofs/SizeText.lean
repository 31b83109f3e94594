import FramePool.Proofs.Outcome
import FramePool.Proofs.Search
import FramePool.Text.Size
import FramePool.Word
import Mathlib.Algebra.Order.Field.Rat
import Mathlib.Data.Nat.Cast.Order.Field
import Mathlib.Order.Bounds.Basic
import Mathlib.Tactic.Linarith
import Mathlib.Tactic.Ring

/-!
# Reading sizes back

The text of a size is a decimal numeral (`Numeral`) and a unit. Units are letters, so where the
numeral ends can be seen, and a text shows one numeral and one unit at most (`Shows.unique`).

The numeral that is written is the number of whole hundredths of the unit in the size (`numeral`,
`shows_size`). So the size that the text stands for is the largest one not above `n` that can be
written with two decimals in that unit, and as the unit is never above the size, a larger size is
never shown as a smaller one.

The arithmetic is that of words of twice the usual length. A word would not do: a hundred times the
remainder of an exbibyte does not fit one. Here nothing is lost (`wideSize_eq_ok`).
-/

namespace FramePool.Text

-- Powers are those of the core library, whatever else is imported.
attribute [local instance (high)] instPowNat

/-! ### Numerals -/

/-- A decimal numeral, in the form in which it is written: without a zero in front or at the end
that could be left out. -/
@[ext] structure Numeral where
  /-- The digits before the point. -/
  whole : List Char
  /-- The digits after the point. -/
  decimals : List Char
  /-- There are only digits. -/
  digits : ∀ c ∈ whole ++ decimals, c.isDigit
  /-- There is a digit before the point. -/
  whole_ne_nil : whole ≠ []
  /-- A zero in front is the only digit before the point. -/
  leading : whole.head? = some '0' → whole = ['0']
  /-- There are two decimals at most. -/
  decimals_le : decimals.length ≤ 2
  /-- The last of them is no zero. -/
  trailing : decimals.getLast? ≠ some '0'

/-- Decimals after their point. There is no point without decimals. -/
def pointed : List Char → List Char
  | [] => []
  | c :: cs => '.' :: c :: cs

namespace Numeral

/-- How a numeral is written. -/
def chars (d : Numeral) : List Char := d.whole ++ pointed d.decimals

/-- The number that a numeral stands for. -/
def value (d : Numeral) : ℚ :=
  Nat.ofDigitChars 10 d.whole 0 + Nat.ofDigitChars 10 d.decimals 0 / 10 ^ d.decimals.length

end Numeral

/-- A text is a numeral and the unit of an index. -/
def Shows (s : String) (d : Numeral) (u : Nat) : Prop :=
  ∃ unit, units[u]? = some unit ∧ s.toList = d.chars ++ unit.toList

variable {s : String} {d e : Numeral} {c : Char} {h k m n u v : Nat}

/-- The digits before the point are those up to the first character that is none. -/
theorem Numeral.takeWhile_chars (d : Numeral) : d.chars.takeWhile (·.isDigit) = d.whole := by
  have hwhole : ∀ c ∈ d.whole, c.isDigit := fun c hc ↦ d.digits c (List.mem_append_left _ hc)
  have hpoint : (pointed d.decimals).takeWhile (·.isDigit) = [] := by
    rcases d.decimals with - | ⟨c, cs⟩ <;> rfl
  rw [chars, List.takeWhile_append_of_pos hwhole, hpoint, List.append_nil]

theorem pointed_injective {cs ds : List Char} (h : pointed cs = pointed ds) : cs = ds := by
  rcases cs with - | ⟨c, cs⟩ <;> rcases ds with - | ⟨c', ds⟩ <;> cases h <;> rfl

/-- A numeral is known from how it is written. -/
theorem Numeral.chars_injective (h : d.chars = e.chars) : d = e := by
  have hwhole : d.whole = e.whole := by rw [← takeWhile_chars d, h, takeWhile_chars]
  have hpointed : pointed d.decimals = pointed e.decimals := by
    rw [chars, chars, hwhole] at h
    exact List.append_cancel_left h
  exact Numeral.ext hwhole (pointed_injective hpointed)

/-- A character of a numeral is a digit or the point. -/
theorem Numeral.digit_or_point (d : Numeral) (hc : c ∈ d.chars) : c.isDigit || c == '.' := by
  rw [Bool.or_eq_true, beq_iff_eq]
  rcases List.mem_append.1 hc with hc | hc
  · exact .inl (d.digits c (List.mem_append_left _ hc))
  · rcases hdecimals : d.decimals with - | ⟨c', cs⟩
    · rw [hdecimals] at hc
      cases hc
    · rw [hdecimals] at hc
      rcases List.mem_cons.1 hc with rfl | hc
      · exact .inr rfl
      · exact .inl (d.digits c (List.mem_append_right _ (hdecimals ▸ hc)))

/-- **A text shows one size** at most: a unit starts with a letter, and no two units are alike. -/
theorem Shows.unique (h : Shows s d u) (h' : Shows s e v) : e = d ∧ v = u := by
  obtain ⟨unit, hunit, htext⟩ := h
  obtain ⟨unit', hunit', htext'⟩ := h'
  have hletters : ∀ unit ∈ units, unit.toList.takeWhile (fun c ↦ c.isDigit || c == '.') = [] := by
    decide
  have hprefix : ∀ (d : Numeral) {u : Nat} {unit : String}, units[u]? = some unit →
      (d.chars ++ unit.toList).takeWhile (fun c ↦ c.isDigit || c == '.') = d.chars := by
    intro d u unit hunit
    rw [List.takeWhile_append_of_pos fun c ↦ d.digit_or_point,
      hletters unit (List.mem_of_getElem? hunit), List.append_nil]
  have hchars : e.chars = d.chars := by
    rw [← hprefix e hunit', ← htext', htext, hprefix d hunit]
  have hsame : unit' = unit := by
    rw [htext, hchars] at htext'
    exact String.ext (List.append_cancel_left htext').symm
  have hlt : v < units.length := (List.getElem?_eq_some_iff.1 hunit').1
  have hnodup : units.Nodup := by decide
  exact ⟨Numeral.chars_injective hchars,
    (List.getElem?_inj hlt hnodup).1 (hunit'.trans (hsame ▸ hunit.symm))⟩

/-! ### Hundredths -/

/-- Only zero is written with a zero in front. -/
theorem eq_zero_of_head?_toDigits (h : (Nat.toDigits 10 n).head? = some '0') : n = 0 := by
  induction n using Nat.strong_induction_on with
  | _ n ih =>
    rcases Nat.lt_or_ge n 10 with hn | hn
    · rw [Nat.toDigits_of_lt_base hn, List.head?_cons, Option.some.injEq] at h
      exact Nat.digitChar_eq_zero.1 h
    · obtain ⟨c, cs, hcs⟩ :=
        List.exists_cons_of_ne_nil (Nat.toDigits_ne_nil (n := n / 10) (b := 10))
      rw [Nat.toDigits_of_base_le (by decide) hn, hcs, List.cons_append, List.head?_cons] at h
      have hzero := ih (n / 10) (by omega) (by rw [hcs, List.head?_cons, h])
      omega

/-- The decimals of less than a hundred hundredths. -/
def decimalsOf (h : Nat) : List Char :=
  if h = 0 then []
  else if h % 10 = 0 then [Nat.digitChar (h / 10)]
  else [Nat.digitChar (h / 10), Nat.digitChar (h % 10)]

theorem isDigit_of_mem_decimalsOf (hh : h < 100) (hc : c ∈ decimalsOf h) : c.isDigit := by
  have htens : (Nat.digitChar (h / 10)).isDigit := by
    rw [Nat.isDigit_digitChar, decide_eq_true_eq]
    omega
  have hones : (Nat.digitChar (h % 10)).isDigit := by
    rw [Nat.isDigit_digitChar, decide_eq_true_eq]
    omega
  rw [decimalsOf] at hc
  split_ifs at hc
  · cases hc
  · exact List.mem_singleton.1 hc ▸ htens
  · rcases List.mem_cons.1 hc with rfl | hc
    · exact htens
    · exact List.mem_singleton.1 hc ▸ hones

theorem length_decimalsOf_le (h : Nat) : (decimalsOf h).length ≤ 2 := by
  rw [decimalsOf]
  split_ifs
  · exact Nat.zero_le 2
  · exact Nat.le_succ 1
  · exact Nat.le_refl 2

theorem getLast?_decimalsOf_ne (h : Nat) : (decimalsOf h).getLast? ≠ some '0' := by
  rw [decimalsOf]
  split_ifs with hzero hones
  · rintro ⟨⟩
  · rw [List.getLast?_singleton, Ne, Option.some.injEq, Nat.digitChar_eq_zero]
    omega
  · rw [List.getLast?_cons_cons, List.getLast?_singleton, Ne, Option.some.injEq,
      Nat.digitChar_eq_zero]
    exact hones

/-- The decimals stand for the hundredths. -/
theorem value_decimalsOf (hh : h < 100) :
    (Nat.ofDigitChars 10 (decimalsOf h) 0 : ℚ) / 10 ^ (decimalsOf h).length = h / 100 := by
  have htens : h / 10 < 10 := by omega
  have hones : h % 10 < 10 := Nat.mod_lt h (by decide)
  have hsplit : (h : ℚ) = 10 * (h / 10 : Nat) + (h % 10 : Nat) := by
    exact_mod_cast (Nat.div_add_mod h 10).symm
  rw [decimalsOf]
  split_ifs with hzero hlast
  · rw [Nat.ofDigitChars_nil, hzero, Nat.cast_zero, zero_div, zero_div]
  · rw [Nat.ofDigitChars_cons_digitChar_of_lt_ten htens, Nat.ofDigitChars_nil, hsplit, hlast]
    simp only [List.length_singleton]
    push_cast
    ring
  · rw [Nat.ofDigitChars_cons_digitChar_of_lt_ten htens,
      Nat.ofDigitChars_cons_digitChar_of_lt_ten hones, Nat.ofDigitChars_nil, hsplit]
    simp only [List.length_cons, List.length_nil]
    push_cast
    ring

/-- The fraction of a size is the decimals of its hundredths. -/
theorem toList_hundredthsText (hh : h < 100) :
    (hundredthsText h).toList = pointed (decimalsOf h) := by
  have hpoint : ∀ k, (s!".{k}").toList = '.' :: Nat.toDigits 10 k := fun k ↦ by
    simp only [String.toList_append, Nat.toString_eq_ofList_toDigits, String.toList_ofList]
    rfl
  rw [hundredthsText, decimalsOf]
  split_ifs with hzero hlast hlt
  · rfl
  · rw [hpoint, Nat.toDigits_of_lt_base (by omega)]
    rfl
  · rw [Nat.div_eq_of_lt hlt, Nat.mod_eq_of_lt hlt]
    simp only [String.toList_append, Nat.toString_eq_ofList_toDigits, String.toList_ofList,
      Nat.toDigits_of_lt_base hlt]
    rfl
  · rw [hpoint, Nat.toDigits_of_base_le (by decide) (Nat.le_of_not_lt hlt),
      Nat.toDigits_of_lt_base (by omega)]
    rfl

/-- A number of hundredths, as a numeral. -/
def Numeral.ofHundredths (k : Nat) : Numeral where
  whole := Nat.toDigits 10 (k / 100)
  decimals := decimalsOf (k % 100)
  digits := by
    intro c hc
    rcases List.mem_append.1 hc with hc | hc
    · exact Nat.isDigit_of_mem_toDigits (by decide) (by decide) hc
    · exact isDigit_of_mem_decimalsOf (Nat.mod_lt k (by decide)) hc
  whole_ne_nil := Nat.toDigits_ne_nil
  leading := fun h ↦ by
    rw [eq_zero_of_head?_toDigits h]
    rfl
  decimals_le := length_decimalsOf_le (k % 100)
  trailing := getLast?_decimalsOf_ne (k % 100)

/-- **The value** of a number of hundredths is a hundredth of it. -/
theorem Numeral.value_ofHundredths (k : Nat) : (ofHundredths k).value = k / 100 := by
  have hsplit : (k : ℚ) = 100 * (k / 100 : Nat) + (k % 100 : Nat) := by
    exact_mod_cast (Nat.div_add_mod k 100).symm
  have hdecimals := value_decimalsOf (Nat.mod_lt k (by decide : 0 < 100))
  rw [value, ofHundredths, Nat.ofDigitChars_ten_toDigits, hdecimals, hsplit]
  ring

/-! ### Units -/

/-- The unit is searched for among all of them. -/
theorem unitIndex_eq_findGreatest (n : Nat) :
    unitIndex n = Nat.findGreatest (fun u ↦ 1024 ^ u ≤ n) 6 :=
  getD_find?_reverse_range _ 6

theorem unitIndex_le (n : Nat) : unitIndex n ≤ 6 := by
  rw [unitIndex_eq_findGreatest]
  exact Nat.findGreatest_le 6

/-- A size reaches its unit, unless it is less than a byte. -/
theorem pow_unitIndex_le (hn : 0 < n) : 1024 ^ unitIndex n ≤ n := by
  rw [unitIndex_eq_findGreatest]
  exact Nat.findGreatest_spec (P := fun u ↦ 1024 ^ u ≤ n) (Nat.zero_le 6) hn

/-- A unit that a size reaches is not above its unit. -/
theorem le_unitIndex (hv : v ≤ 6) (h : 1024 ^ v ≤ n) : v ≤ unitIndex n := by
  rw [unitIndex_eq_findGreatest]
  exact Nat.le_findGreatest hv h

theorem unitIndex_eq (hu : u ≤ 6) (hle : u ≠ 0 → 1024 ^ u ≤ n)
    (habove : ∀ v, u < v → v ≤ 6 → n < 1024 ^ v) : unitIndex n = u := by
  rw [unitIndex_eq_findGreatest, Nat.findGreatest_eq_iff]
  exact ⟨hu, hle, fun v hlt hv ↦ Nat.not_le.2 (habove v hlt hv)⟩

theorem unitIndex_zero : unitIndex 0 = 0 := by decide

theorem unitIndex_mono (hnm : n ≤ m) : unitIndex n ≤ unitIndex m := by
  rw [unitIndex_eq_findGreatest, unitIndex_eq_findGreatest]
  exact Nat.findGreatest_mono (fun u hu ↦ Nat.le_trans hu hnm) (Nat.le_refl 6)

/-- A word has no units but those that there are. -/
theorem isGreatest_unitIndex (hn : n < Word.limit) (hpos : 0 < n) :
    IsGreatest {v | 1024 ^ v ≤ n} (unitIndex n) := by
  refine ⟨pow_unitIndex_le hpos, fun v hv ↦ le_unitIndex (Nat.le_of_not_lt fun hlt ↦ ?_) hv⟩
  have hpow : 1024 ^ 7 ≤ 1024 ^ v := Nat.pow_le_pow_right (by decide) hlt
  exact absurd (Nat.lt_of_le_of_lt (Nat.le_trans hpow hv) hn) (by decide)

/-- The whole units in a number are those in its hundredths. -/
theorem hundredths_div {scale : Nat} (n : Nat) : n * 100 / scale / 100 = n / scale := by
  rw [Nat.div_div_eq_div_mul, Nat.mul_div_mul_right n scale (by decide)]

/-- The other hundredths are those of the remainder. -/
theorem hundredths_mod {scale : Nat} (hscale : 0 < scale) (n : Nat) :
    n * 100 / scale % 100 = n % scale * 100 / scale := by
  have hsplit : n * 100 = n % scale * 100 + n / scale * 100 * scale := by
    conv_lhs => rw [← Nat.mod_add_div n scale]
    ring
  have hrest : n % scale * 100 / scale < 100 := by
    rw [Nat.div_lt_iff_lt_mul hscale, Nat.mul_comm]
    exact Nat.mul_lt_mul_of_pos_left (Nat.mod_lt n hscale) (by decide)
  rw [hsplit, Nat.add_mul_div_right _ _ hscale, Nat.add_mul_mod_self_right,
    Nat.mod_eq_of_lt hrest]

/-- The hundredths of the unit of a size that are whole. -/
def hundredths (n : Nat) : Nat := n * 100 / 1024 ^ unitIndex n

/-- The numeral of a size in its unit. -/
def numeral (n : Nat) : Numeral := .ofHundredths (hundredths n)

theorem value_numeral (n : Nat) : (numeral n).value = hundredths n / 100 :=
  Numeral.value_ofHundredths (hundredths n)

/-- **What a size shows** is its numeral and its unit. -/
theorem shows_size (n : Nat) : Shows (size n) (numeral n) (unitIndex n) := by
  have hscale : 0 < 1024 ^ unitIndex n := Nat.pow_pos (by decide)
  have hlt : unitIndex n < units.length := Nat.lt_succ_of_le (unitIndex_le n)
  have hmod := hundredths_mod hscale n
  have hrest : n % 1024 ^ unitIndex n * 100 / 1024 ^ unitIndex n < 100 :=
    hmod ▸ Nat.mod_lt _ (by decide)
  refine ⟨units[unitIndex n], List.getElem?_eq_getElem hlt, ?_⟩
  simp only [size, String.toList_append, Nat.toString_eq_ofList_toDigits, String.toList_ofList,
    toList_hundredthsText hrest, Numeral.chars, numeral, Numeral.ofHundredths, hundredths,
    hundredths_div, hmod, List.getD_eq_getElem?_getD, List.getElem?_eq_getElem hlt,
    Option.getD_some]

/-- A size that is not zero has a whole unit. -/
theorem eq_zero_of_head?_whole (h : (numeral n).whole.head? = some '0') : n = 0 := by
  have hwhole := eq_zero_of_head?_toDigits h
  rw [hundredths, hundredths_div, Nat.div_eq_zero_iff] at hwhole
  rcases hwhole with hscale | hlt
  · exact absurd hscale (Nat.pow_pos (by decide)).ne'
  · by_contra hn
    exact absurd (pow_unitIndex_le (Nat.pos_of_ne_zero hn)) (Nat.not_le.2 hlt)

/-! ### What a reader learns -/

/-- The size shown is not above the size. -/
theorem value_numeral_le (n : Nat) : (numeral n).value * 1024 ^ unitIndex n ≤ n := by
  have hle : hundredths n * 1024 ^ unitIndex n ≤ n * 100 := Nat.div_mul_le_self _ _
  have hle : (hundredths n : ℚ) * 1024 ^ unitIndex n ≤ n * 100 := by exact_mod_cast hle
  rw [value_numeral]
  linarith

/-- The next numeral with two decimals is above it. -/
theorem lt_value_numeral (n : Nat) : n < ((numeral n).value + 1 / 100) * 1024 ^ unitIndex n := by
  have hlt : n * 100 < (hundredths n + 1) * 1024 ^ unitIndex n := by
    rw [Nat.mul_comm (hundredths n + 1)]
    exact Nat.lt_mul_div_succ _ (Nat.pow_pos (by decide))
  have hlt : (n * 100 : ℚ) < (hundredths n + 1) * 1024 ^ unitIndex n := by exact_mod_cast hlt
  rw [value_numeral]
  linarith

/-- **A larger size is not shown as a smaller one.** In a larger unit it has a whole one at least,
which the smaller size does not reach. -/
theorem value_numeral_mono (hnm : n ≤ m) :
    (numeral n).value * 1024 ^ unitIndex n ≤ (numeral m).value * 1024 ^ unitIndex m := by
  rcases Nat.eq_or_lt_of_le (unitIndex_mono hnm) with hsame | hlt
  · have hle : hundredths n ≤ hundredths m := by
      rw [hundredths, hundredths, hsame]
      exact Nat.div_le_div_right (Nat.mul_le_mul_right 100 hnm)
    have hle : (hundredths n : ℚ) ≤ hundredths m := by exact_mod_cast hle
    rw [hsame, value_numeral, value_numeral]
    gcongr
  · have hm : 0 < m := Nat.pos_of_ne_zero fun hm ↦ by
      rw [hm, unitIndex_zero] at hlt
      exact Nat.not_lt_zero _ hlt
    have hbelow : n ≤ 1024 ^ unitIndex m := Nat.le_of_not_le fun h ↦
      Nat.not_le.2 hlt (le_unitIndex (unitIndex_le m) h)
    have hwhole : 100 ≤ hundredths m := by
      rw [hundredths, Nat.le_div_iff_mul_le (Nat.pow_pos (by decide)), Nat.mul_comm]
      exact Nat.mul_le_mul_right 100 (pow_unitIndex_le hm)
    have hwhole : (100 : ℚ) ≤ hundredths m := by exact_mod_cast hwhole
    have hone : (1 : ℚ) ≤ (numeral m).value := by
      rw [value_numeral]
      linarith
    calc (numeral n).value * 1024 ^ unitIndex n
      _ ≤ n := value_numeral_le n
      _ ≤ 1 * 1024 ^ unitIndex m := by
        rw [one_mul]
        exact_mod_cast hbelow
      _ ≤ (numeral m).value * 1024 ^ unitIndex m := by gcongr

/-! ### Arithmetic that does not overflow -/

/-- The product, when it fits twice the size of a word. -/
def wideMul (a b : Nat) : Except Fault Nat :=
  if a * b < 2 ^ (128 : Nat) then .ok (a * b) else .error .mulOverflow

/-- The unit of a size and its number of bytes, found from a smaller unit by going on to the next
while the size reaches it and there are units left. -/
def climb (n : Nat) : (left : Nat) → (u scale : Nat) → Except Fault (Nat × Nat)
  | 0, u, scale => .ok (u, scale)
  | left + 1, u, scale =>
    if 1024 ≤ n / scale then do climb n left (u + 1) (← wideMul scale 1024) else .ok (u, scale)

/-- The text of a byte count, with each product checked. -/
def wideSize (n : Nat) : Except Fault String := do
  let (u, scale) ← climb n (units.length - 1) 0 1
  let product ← wideMul (n % scale) 100
  return toString (n / scale) ++ hundredthsText (product / scale) ++ units.getD u ""

theorem wideMul_eq_ok {a b : Nat} (h : a * b < 2 ^ (128 : Nat)) : wideMul a b = .ok (a * b) :=
  if_pos h

/-- **The climb** ends at the unit of the size. A scale is only reached when the size is not below
it. -/
theorem climb_eq_ok (hn : n < Word.limit) {left : Nat} (hleft : u + left = 6)
    (hu : u ≠ 0 → 1024 ^ u ≤ n) :
    climb n left u (1024 ^ u) = .ok (unitIndex n, 1024 ^ unitIndex n) := by
  induction left generalizing u with
  | zero =>
    have hlast : unitIndex n = u :=
      unitIndex_eq (Nat.le_of_eq hleft) hu fun v hlt hle ↦ absurd hle (Nat.not_le.2 (hleft ▸ hlt))
    rw [climb, hlast]
  | succ left ih =>
    have hreaches : 1024 ≤ n / 1024 ^ u ↔ 1024 ^ (u + 1) ≤ n := by
      rw [Nat.le_div_iff_mul_le (Nat.pow_pos (by decide)), ← Nat.pow_succ']
    rw [climb]
    split_ifs with hreached
    · have hnext := hreaches.1 hreached
      have hfits : 1024 ^ u * 1024 < 2 ^ (128 : Nat) :=
        Nat.lt_trans (Nat.lt_of_le_of_lt hnext hn) (by decide)
      rw [wideMul_eq_ok hfits, ok_bind, ← Nat.pow_succ]
      exact ih (by omega) fun _ ↦ hnext
    · have hlast : unitIndex n = u := unitIndex_eq (by omega) hu fun v hlt _ ↦
        Nat.lt_of_lt_of_le (Nat.not_le.1 (mt hreaches.2 hreached))
          (Nat.pow_le_pow_right (by decide) hlt)
      rw [hlast]

/-- **No product overflows.** -/
theorem wideSize_eq_ok (hn : n < Word.limit) : wideSize n = .ok (size n) := by
  have hscale : 0 < 1024 ^ unitIndex n := Nat.pow_pos (by decide)
  have hclimb : climb n (units.length - 1) 0 1 = .ok (unitIndex n, 1024 ^ unitIndex n) :=
    climb_eq_ok hn rfl fun h ↦ absurd rfl h
  have hproduct : n % 1024 ^ unitIndex n * 100 < 2 ^ (128 : Nat) := by
    have hle : n % 1024 ^ unitIndex n ≤ n := Nat.mod_le _ _
    rw [Word.limit] at hn
    omega
  rw [wideSize, hclimb, ok_bind]
  dsimp only
  rw [wideMul_eq_ok hproduct]
  rfl

/-! ### Sizes are cut -/

/-- A numeral of a unit is a size cut to hundredths. -/
structure Cut (n : Nat) (d : Numeral) (u : Nat) : Prop where
  /-- The unit is the largest that the size reaches. -/
  greatest : 0 < n → IsGreatest {v | 1024 ^ v ≤ n} u
  /-- Zero is written in bytes. -/
  zero : n = 0 → u = 0
  /-- There is no zero in front of anything else. -/
  leading : d.whole.head? = some '0' → n = 0
  /-- What is written is not above the size. -/
  le : d.value * 1024 ^ u ≤ n
  /-- With a hundredth more it would be. -/
  lt : n < (d.value + 1 / 100) * 1024 ^ u

theorem cut_numeral (hn : n < Word.limit) : Cut n (numeral n) (unitIndex n) where
  greatest := isGreatest_unitIndex hn
  zero := by
    rintro rfl
    exact unitIndex_zero
  leading := eq_zero_of_head?_whole
  le := value_numeral_le n
  lt := lt_value_numeral n

/-- **A size is cut to hundredths of its unit.** The text of a word shows one numeral of one unit.
The unit is the largest that the word reaches, and by its value the numeral is not above the word in
this unit, and less than a hundredth below it. A larger size is never shown as a smaller one, and no
product overflows. -/
theorem size_truncates (n : Nat) (hn : n < Word.limit) :
    (∃ d u, Shows (size n) d u ∧ Cut n d u ∧ ∀ e v, Shows (size n) e v → e = d ∧ v = u) ∧
      (∀ m d u e v, n ≤ m → Shows (size n) d u → Shows (size m) e v →
        d.value * 1024 ^ u ≤ e.value * 1024 ^ v) ∧
      wideSize n = .ok (size n) := by
  refine ⟨⟨numeral n, unitIndex n, shows_size n, cut_numeral hn,
    fun e v ↦ (shows_size n).unique⟩, ?_, wideSize_eq_ok hn⟩
  intro m d u e v hnm hd he
  obtain ⟨rfl, rfl⟩ := (shows_size n).unique hd
  obtain ⟨rfl, rfl⟩ := (shows_size m).unique he
  exact value_numeral_mono hnm

/-- The largest word. -/
theorem size_truncates_largest :
    2 ^ (64 : Nat) - 1 < Word.limit ∧ size (2 ^ (64 : Nat) - 1) = "15.99EiB" ∧
      wideSize (2 ^ (64 : Nat) - 1) = .ok "15.99EiB" ∧
      ∃ d, Shows "15.99EiB" d 6 ∧ d.value = 1599 / 100 ∧ Cut (2 ^ (64 : Nat) - 1) d 6 := by
  have hword : 2 ^ (64 : Nat) - 1 < Word.limit := by decide
  have htext : size (2 ^ (64 : Nat) - 1) = "15.99EiB" := by decide +kernel
  obtain ⟨⟨d, u, hshows, hcut, hunique⟩, -, hwide⟩ := size_truncates _ hword
  obtain ⟨hd, hu⟩ := hunique _ _ (shows_size _)
  have hunit : u = 6 := hu.symm.trans (by decide)
  have hvalue : d.value = 1599 / 100 := by
    have hhundredths : hundredths (2 ^ (64 : Nat) - 1) = 1599 := by decide
    rw [← hd, value_numeral, hhundredths]
    norm_num
  rw [htext] at hshows hwide
  subst hunit
  exact ⟨hword, htext, hwide, d, hshows, hvalue, hcut⟩

end FramePool.Text
