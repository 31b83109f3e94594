import FramePool.Proofs.Outcome

/-!
# Reading addresses back

The text of an address is the mark `0x` and a sequence of groups of hexadecimal digits, with a line
between two of them (`Grouped`). It is written from the right: each group but the first is the last
four digits of what is left, zeros included. So a reader who ignores the lines sees the digits of
the number, and reads it back (`readAddress?_address`).

A word has sixteen hexadecimal digits, which are four groups. That is why the groups can be noted in
a buffer of four entries before any of them is written: `splitGroups` faults where the buffer is
full, and on words it never does (`bufferedAddress_eq_ok`).

The main result, `address_canonical`, puts the form, the reading and the buffer together.
-/

namespace FramePool.Text

-- Powers are those of the core library, whatever else is imported.
attribute [local instance (high)] instPowNat

/-! ### Hexadecimal digits -/

/-- The value of an upper-case hexadecimal digit. Other characters have none. -/
def hexValue? (c : Char) : Option Nat :=
  if '0' ≤ c ∧ c ≤ '9' then some (c.toNat - 48)
  else if 'A' ≤ c ∧ c ≤ 'F' then some (c.toNat - 55)
  else none

/-- Reads hexadecimal digits that come after those of a number. -/
def readHexAfter : (value : Nat) → List Char → Option Nat
  | value, [] => some value
  | value, c :: cs => (hexValue? c).bind fun d ↦ readHexAfter (16 * value + d) cs

/-- Reads the text of an address: after the mark, and without the lines, it is a hexadecimal
number. -/
def readAddress? (s : String) : Option Nat :=
  match s.toList with
  | '0' :: 'x' :: cs => readHexAfter 0 (cs.filter (· ≠ '_'))
  | _ => none

variable {c : Char} {cs ds : List Char} {d k m n : Nat}

theorem hexValue?_hexDigit (hd : d < 16) : hexValue? (hexDigit d) = some d := by
  revert d
  decide

theorem hexDigit_eq_zero_iff (hd : d < 16) : hexDigit d = '0' ↔ d = 0 := by
  revert d
  decide

theorem readHexAfter_append (value : Nat) :
    readHexAfter value (cs ++ ds) = (readHexAfter value cs).bind fun v ↦ readHexAfter v ds := by
  induction cs generalizing value with
  | nil => rfl
  | cons c cs ih =>
    rw [List.cons_append, readHexAfter, readHexAfter]
    rcases hexValue? c with - | d
    · rfl
    · exact ih (16 * value + d)

/-- **The digits of a number** are read back. -/
theorem readHexAfter_hexDigits (n : Nat) : readHexAfter 0 (hexDigits n) = some n := by
  induction n using hexDigits.induct with
  | case1 n hn =>
    rw [hexDigits, if_pos hn]
    simp only [readHexAfter, hexValue?_hexDigit hn, Option.bind_some, Nat.mul_zero, Nat.zero_add]
  | case2 n hn ih =>
    have hdigit : n % 16 < 16 := Nat.mod_lt n (by decide)
    rw [hexDigits, if_neg hn, readHexAfter_append, ih]
    simp only [readHexAfter, hexValue?_hexDigit hdigit, Option.bind_some, Nat.div_add_mod]

/-- A group adds four digits. -/
theorem readHexAfter_hexGroup (value n : Nat) :
    readHexAfter value (hexGroup n) = some (65536 * value + n % 65536) := by
  have hdigit : ∀ m, m % 16 < 16 := fun m ↦ Nat.mod_lt m (by decide)
  simp only [hexGroup, readHexAfter, hexValue?_hexDigit (hdigit _), Option.bind_some,
    Option.some.injEq]
  omega

/-- The last four digits of a number are all that a group looks at. -/
theorem hexGroup_mod (n : Nat) : hexGroup (n % 65536) = hexGroup n := by
  have h₁ : n % 65536 / 16 % 16 = n / 16 % 16 := by omega
  have h₂ : n % 65536 / 256 % 16 = n / 256 % 16 := by omega
  have h₃ : n % 65536 / 4096 % 16 = n / 4096 % 16 := by omega
  have h₀ : n % 65536 % 16 = n % 16 := by omega
  rw [hexGroup, h₃, h₂, h₁, h₀, hexGroup]

/-- Each character of a number has a value. -/
theorem isSome_of_mem_hexDigits (hc : c ∈ hexDigits n) : (hexValue? c).isSome := by
  induction n using hexDigits.induct with
  | case1 n hn =>
    rw [hexDigits, if_pos hn, List.mem_singleton] at hc
    rw [hc, hexValue?_hexDigit hn]
    rfl
  | case2 n hn ih =>
    rw [hexDigits, if_neg hn, List.mem_append, List.mem_singleton] at hc
    rcases hc with hc | rfl
    · exact ih hc
    · rw [hexValue?_hexDigit (Nat.mod_lt n (by decide))]
      rfl

theorem isSome_of_mem_hexGroup (hc : c ∈ hexGroup n) : (hexValue? c).isSome := by
  have hdigit : ∀ m, (hexValue? (hexDigit (m % 16))).isSome := fun m ↦ by
    rw [hexValue?_hexDigit (Nat.mod_lt m (by decide))]
    rfl
  simp only [hexGroup, List.mem_cons, List.not_mem_nil, or_false] at hc
  rcases hc with rfl | rfl | rfl | rfl
  · exact hdigit _
  · exact hdigit _
  · exact hdigit _
  · exact hdigit n

/-- There is no line among digits. -/
theorem filter_line_eq_self (h : ∀ c ∈ cs, (hexValue? c).isSome) : cs.filter (· ≠ '_') = cs := by
  rw [List.filter_eq_self]
  intro c hc
  rw [decide_eq_true_eq]
  rintro rfl
  exact absurd (h '_' hc) (by decide)

theorem hexDigits_ne_nil (n : Nat) : hexDigits n ≠ [] := by
  rw [hexDigits]
  split
  · exact List.cons_ne_nil _ _
  · exact List.append_ne_nil_of_right_ne_nil _ (List.cons_ne_nil _ _)

/-- A number below a power of sixteen has no more digits than the exponent says. -/
theorem length_hexDigits_le (h : n < 16 ^ (k + 1)) : (hexDigits n).length ≤ k + 1 := by
  induction k generalizing n with
  | zero =>
    rw [hexDigits, if_pos h]
    exact Nat.le_refl 1
  | succ k ih =>
    rw [hexDigits]
    split
    · exact Nat.le_add_left 1 (k + 1)
    · rw [List.length_append, List.length_singleton]
      exact Nat.succ_le_succ (ih (Nat.div_lt_of_lt_mul (by rwa [Nat.pow_succ'] at h)))

/-- Only zero is written with a zero in front. -/
theorem eq_zero_of_head?_hexDigits (h : (hexDigits n).head? = some '0') : n = 0 := by
  induction n using hexDigits.induct with
  | case1 n hn =>
    rw [hexDigits, if_pos hn, List.head?_cons, Option.some.injEq] at h
    exact (hexDigit_eq_zero_iff hn).1 h
  | case2 n hn ih =>
    obtain ⟨c, cs, hcs⟩ := List.exists_cons_of_ne_nil (hexDigits_ne_nil (n / 16))
    rw [hexDigits, if_neg hn, hcs, List.cons_append, List.head?_cons] at h
    rw [hcs, List.head?_cons] at ih
    have hzero := ih h
    omega

/-! ### Groups -/

/-- The form of an address: a first group of up to four digits and later groups of exactly four.
There is no zero in front, unless it is the only digit. -/
structure Grouped (first : List Char) (later : List (List Char)) : Prop where
  /-- There are upper-case hexadecimal digits only. -/
  digits : ∀ group ∈ first :: later, ∀ c ∈ group, (hexValue? c).isSome
  /-- The first group has a digit at least. -/
  first_ne_nil : first ≠ []
  /-- It has no more than four. -/
  first_le : first.length ≤ 4
  /-- The later groups have four each. -/
  later_eq : ∀ group ∈ later, group.length = 4
  /-- Where there is a zero in front there is no other digit. -/
  leading : first.head? = some '0' → first = ['0'] ∧ later = []

/-- **What is written** is grouped, and there are as many groups as it takes. The recursion adds a
group at the end. -/
theorem exists_grouped (n : Nat) : ∃ first later,
    hexGroups n = first ++ later.flatMap ('_' :: ·) ∧ Grouped first later ∧
      (first.head? = some '0' → n = 0) ∧ (later ≠ [] → 65536 ^ later.length ≤ n) := by
  induction n using hexGroups.induct with
  | case1 n hn =>
    refine ⟨hexDigits n, [], ?_, ⟨?_, hexDigits_ne_nil n, length_hexDigits_le (k := 3) hn, ?_, ?_⟩,
      eq_zero_of_head?_hexDigits, fun h ↦ absurd rfl h⟩
    · rw [hexGroups, if_pos hn, List.flatMap_nil, List.append_nil]
    · exact List.forall_mem_singleton.2 fun c ↦ isSome_of_mem_hexDigits
    · exact fun group hgroup ↦ absurd hgroup List.not_mem_nil
    · intro h
      rw [eq_zero_of_head?_hexDigits h, hexDigits]
      exact ⟨rfl, rfl⟩
  | case2 n hn ih =>
    obtain ⟨first, later, htext, hgrouped, hzero, hcount⟩ := ih
    have hfirst : first.head? ≠ some '0' := fun h ↦ by
      have hdiv := hzero h
      omega
    refine ⟨first, later ++ [hexGroup n], ?_, ⟨?_, hgrouped.first_ne_nil, hgrouped.first_le, ?_,
      fun h ↦ absurd h hfirst⟩, fun h ↦ absurd h hfirst, fun _ ↦ ?_⟩
    · rw [hexGroups, if_neg hn, htext, List.flatMap_append, List.flatMap_singleton,
        List.append_assoc]
    · intro group hgroup
      rw [← List.cons_append, List.mem_append, List.mem_singleton] at hgroup
      rcases hgroup with hgroup | rfl
      · exact hgrouped.digits group hgroup
      · exact fun c ↦ isSome_of_mem_hexGroup
    · intro group hgroup
      rw [List.mem_append, List.mem_singleton] at hgroup
      rcases hgroup with hgroup | rfl
      · exact hgrouped.later_eq group hgroup
      · rfl
    · rw [List.length_append, List.length_singleton, Nat.pow_succ]
      rcases later with - | ⟨group, later⟩
      · rw [List.length_nil, Nat.pow_zero]
        omega
      · exact Nat.le_trans (Nat.mul_le_mul_right 65536 (hcount (List.cons_ne_nil group later)))
          (Nat.div_mul_le_self n 65536)

theorem toList_address (n : Nat) : (address n).toList = '0' :: 'x' :: hexGroups n := by
  rw [address, String.toList_append, String.toList_ofList, String.toList_ofList]
  rfl

/-- Without the lines, the groups are the digits of the number. -/
theorem readHexAfter_hexGroups (n : Nat) :
    readHexAfter 0 ((hexGroups n).filter (· ≠ '_')) = some n := by
  induction n using hexGroups.induct with
  | case1 n hn =>
    rw [hexGroups, if_pos hn, filter_line_eq_self fun c ↦ isSome_of_mem_hexDigits,
      readHexAfter_hexDigits]
  | case2 n hn ih =>
    rw [hexGroups, if_neg hn, List.filter_append, readHexAfter_append, ih, Option.bind_some,
      List.filter_cons_of_neg (by decide), filter_line_eq_self fun c ↦ isSome_of_mem_hexGroup,
      readHexAfter_hexGroup, Nat.div_add_mod]

/-- **An address is read back.** -/
theorem readAddress?_address (n : Nat) : readAddress? (address n) = some n := by
  rw [readAddress?, toList_address]
  exact readHexAfter_hexGroups n

/-! ### The buffer -/

/-- The numbers that the groups of a number stand for, the last group first, noted in a buffer of
`room` entries of which `free` are left. -/
def splitGroups (room : Nat) : (free : Nat) → (n : Nat) → Except Fault (List Nat)
  | 0, _ => .error (.indexOutOfBounds room room)
  | free + 1, n =>
    if n / 65536 = 0 then .ok [n % 65536]
    else (splitGroups room free (n / 65536)).map (n % 65536 :: ·)

/-- The digits of groups, the last of which is written first and as it is. -/
def renderGroups (groups : List Nat) : List Char :=
  match groups.reverse with
  | [] => []
  | first :: later => hexDigits first ++ later.flatMap fun group ↦ '_' :: hexGroup group

/-- The text of an address, written from a buffer with an entry for each sixteen bits of a word. -/
def bufferedAddress (n : Nat) : Except Fault String :=
  (splitGroups (64 / 16) (64 / 16) n).map fun groups ↦ "0x" ++ String.ofList (renderGroups groups)

theorem renderGroups_cons {groups : List Nat} (h : groups ≠ []) (g : Nat) :
    renderGroups (g :: groups) = renderGroups groups ++ '_' :: hexGroup g := by
  obtain ⟨first, later, hreverse⟩ := List.exists_cons_of_ne_nil (List.reverse_ne_nil_iff.2 h)
  simp only [renderGroups, List.reverse_cons, hreverse, List.cons_append, List.flatMap_append,
    List.flatMap_singleton, List.append_assoc]

/-- **Entries for all the digits** are enough, and what they hold is written as the number is. -/
theorem exists_splitGroups (room free : Nat) (h : n < 65536 ^ (free + 1)) :
    ∃ groups, splitGroups room (free + 1) n = .ok groups ∧ groups ≠ [] ∧
      renderGroups groups = hexGroups n := by
  induction free generalizing n with
  | zero =>
    have hn : n < 65536 := h
    refine ⟨[n % 65536], ?_, List.cons_ne_nil _ _, ?_⟩
    · rw [splitGroups, if_pos (Nat.div_eq_of_lt hn)]
    · rw [hexGroups, if_pos hn, Nat.mod_eq_of_lt hn, renderGroups]
      exact List.append_nil _
  | succ free ih =>
    rw [splitGroups, hexGroups]
    rcases Nat.lt_or_ge n 65536 with hn | hn
    · refine ⟨[n % 65536], if_pos (Nat.div_eq_of_lt hn), List.cons_ne_nil _ _, ?_⟩
      rw [if_pos hn, Nat.mod_eq_of_lt hn, renderGroups]
      exact List.append_nil _
    · obtain ⟨groups, hsplit, hne, hrender⟩ :=
        ih (n := n / 65536) (Nat.div_lt_of_lt_mul (by rwa [Nat.pow_succ'] at h))
      have hdiv : n / 65536 ≠ 0 := by omega
      refine ⟨n % 65536 :: groups, ?_, List.cons_ne_nil _ _, ?_⟩
      · rw [if_neg hdiv, hsplit]
        rfl
      · rw [renderGroups_cons hne, hrender, if_neg (Nat.not_lt.2 hn)]
        rw [hexGroup_mod]

/-- **The buffer** is never full before all groups of a word are noted. -/
theorem bufferedAddress_eq_ok (hn : n < Word.limit) : bufferedAddress n = .ok (address n) := by
  obtain ⟨groups, hsplit, -, hrender⟩ := exists_splitGroups 4 3 hn
  rw [bufferedAddress, hsplit, address, ← hrender]
  rfl

/-- **Addresses are written canonically.** The text of a word is the mark, a first group of one to
four upper-case hexadecimal digits without a zero in front, except for `0x0`, and at most three
groups of exactly four, each after a line. Without the lines it reads as the word, so no two words
have the same text. The groups fit the buffer from which they are written. -/
theorem address_canonical (n : Nat) (hn : n < Word.limit) :
    (∃ first later,
      (address n).toList = '0' :: 'x' :: (first ++ later.flatMap ('_' :: ·)) ∧
        Grouped first later ∧ later.length ≤ 3) ∧
      readAddress? (address n) = some n ∧ (∀ m, address m = address n → m = n) ∧
      bufferedAddress n = .ok (address n) := by
  refine ⟨?_, readAddress?_address n, fun m h ↦ ?_, bufferedAddress_eq_ok hn⟩
  · obtain ⟨first, later, htext, hgrouped, -, hcount⟩ := exists_grouped n
    refine ⟨first, later, by rw [toList_address, htext], hgrouped, Nat.le_of_not_lt fun hlt ↦ ?_⟩
    have hne : later ≠ [] := List.ne_nil_of_length_pos (by omega)
    have hpow : 65536 ^ 4 ≤ 65536 ^ later.length := Nat.pow_le_pow_right (by decide) hlt
    exact Nat.not_lt.2 (Nat.le_trans hpow (hcount hne)) hn
  · exact Option.some.inj ((readAddress?_address m).symm.trans (h ▸ readAddress?_address n))

/-- An address with a group of zeros inside. -/
theorem address_canonical_high :
    0xFFFF800000001000 < Word.limit ∧
      address 0xFFFF800000001000 = "0xFFFF_8000_0000_1000" ∧
      readAddress? "0xFFFF_8000_0000_1000" = some 0xFFFF800000001000 := by
  have hword : 0xFFFF800000001000 < Word.limit := by decide
  have htext : address 0xFFFF800000001000 = "0xFFFF_8000_0000_1000" := by decide +kernel
  exact ⟨hword, htext, htext ▸ (address_canonical _ hword).2.1⟩

end FramePool.Text
