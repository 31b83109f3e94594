import FramePool.Proofs.Outcome
import FramePool.Proofs.UsableRuns
import Mathlib.Algebra.GroupWithZero.Nat
import Mathlib.Data.List.Pairwise
import Mathlib.Data.List.Sort

/-!
# The maximal runs of usable frames

The runs of a table can be had one after the other, without a list of them. A step makes two scans
from a cursor on, one over reserved frames and one over usable ones (`Scanned`), and leaves the
cursor behind both. What it passes is the first run (`FirstRun`); this has a frame, so the cursor
moves up, and that is why an iteration ends (`collectRuns`). The second scan stops at no usable
frame, and that is why no run continues the one before it (`exists_collectRuns`).

What remains is about lists of runs. If they ascend with gaps between them and have just the usable
frames, then their members are **just the maximal runs** (`Ascending.mem_iff_maximalRun`), and there
is one such list only. So **an iteration gives the maximal runs of usable frames**, those that are
also found from the end of the table (`usableRuns_maximal`).
-/

namespace FramePool.FrameTable

variable {t : FrameTable} {runs runs' : List (Frame × Nat)} {run : Frame × Nat}
  {cursor f g first count : Nat} {b : Bool}

/-- A run of usable frames of the table that is part of no longer one. -/
structure MaximalRun (t : FrameTable) (first count : Nat) : Prop where
  /-- It has a frame. -/
  pos : 0 < count
  /-- Its frames are frames of the table, and none of them is reserved. -/
  usable : ∀ g, first ≤ g → g < first + count → g < t.length ∧ t.isReserved g = false
  /-- The frame in front of it, if there is one, is reserved. -/
  below : ∀ g, g + 1 = first → t.isReserved g = true
  /-- The frame behind it, if there is one, is reserved. -/
  above : first + count < t.length → t.isReserved (first + count) = true

/-! ### Scans -/

/-- A scan from frame `f` up that passes `k` frames: all of them are reserved, or none is, and the
one behind them, if there is one, is different. -/
structure Scanned (t : FrameTable) (b : Bool) (f k : Nat) : Prop where
  /-- It stays in the table. -/
  le_length : f + k ≤ t.length
  /-- It passes frames that are alike. -/
  passed : ∀ g, f ≤ g → g < f + k → t.isReserved g = b
  /-- It stops at one that is not. -/
  stopped : f + k < t.length → t.isReserved (f + k) = !b

theorem length_drop (t : FrameTable) (f : Nat) :
    (t.frames.toList.drop f).length = t.length - f := by
  rw [List.length_drop, Array.length_toList, length]

/-- A descriptor that is read from a frame on belongs to the frame that is as far up. -/
theorem reserved_getElem_drop {i : Nat} (hi : i < (t.frames.toList.drop f).length) :
    (t.frames.toList.drop f)[i].reserved = t.isReserved (f + i) := by
  have hlt : f + i < t.frames.size := by
    rw [length_drop, length] at hi
    omega
  rw [List.getElem_drop, Array.getElem_toList, isReserved, get?, Array.getElem?_eq_getElem hlt,
    Option.any_some]

/-- The first descriptor that is different is where a scan stops. -/
theorem scanned_findIdx {p : Descriptor → Bool} (hp : ∀ d, p d = (d.reserved != b))
    (hf : f ≤ t.length) : t.Scanned b f ((t.frames.toList.drop f).findIdx p) where
  le_length := by
    have hle : (t.frames.toList.drop f).findIdx p ≤ (t.frames.toList.drop f).length :=
      List.findIdx_le_length
    rw [length_drop] at hle
    omega
  passed g hfg hg := by
    obtain ⟨i, rfl⟩ := Nat.exists_eq_add_of_le hfg
    have hi := List.not_of_lt_findIdx (Nat.lt_of_add_lt_add_left hg)
    rwa [hp, reserved_getElem_drop, bne_eq_false_iff_eq] at hi
  stopped hlt := by
    have hi : (t.frames.toList.drop f).findIdx p < (t.frames.toList.drop f).length := by
      rw [length_drop]
      omega
    have hstop := List.findIdx_getElem (w := hi)
    rwa [hp, reserved_getElem_drop, bne_iff_ne, ← Bool.eq_not_iff] at hstop

/-- A scan over reserved frames, by the place of the first usable one. -/
theorem scanned_findIdx_usable (hf : f ≤ t.length) :
    t.Scanned true f ((t.frames.toList.drop f).findIdx fun d ↦ !d.reserved) :=
  scanned_findIdx (fun d ↦ by rw [Bool.bne_true]) hf

/-- A scan over usable frames, by their number. -/
theorem scanned_takeWhile_usable (hf : f ≤ t.length) :
    t.Scanned false f ((t.frames.toList.drop f).takeWhile fun d ↦ !d.reserved).length := by
  rw [List.takeWhile_eq_take_findIdx_not, List.length_take_of_le List.findIdx_le_length]
  exact scanned_findIdx (fun d ↦ by rw [Bool.not_not, Bool.bne_false]) hf

/-! ### One step -/

/-- The first run of usable frames from a cursor on. -/
structure FirstRun (t : FrameTable) (cursor first count : Nat) : Prop where
  /-- It starts at the cursor or above it. -/
  le : cursor ≤ first
  /-- The frames in between are reserved. -/
  skipped : ∀ g, cursor ≤ g → g < first → t.isReserved g = true
  /-- It has a frame. -/
  pos : 0 < count
  /-- Its frames are usable, and the one behind it is not. -/
  scanned : t.Scanned false first count

/-- The run ends inside the table, above the cursor. -/
theorem FirstRun.bounds (h : t.FirstRun cursor first count) :
    cursor < first + count ∧ first + count ≤ t.length := by
  have hle := h.le
  have hpos := h.pos
  exact ⟨by omega, h.scanned.le_length⟩

/-- Two scans, one behind the other, find the first run: the first one stopped at a usable frame, so
the second one passes it. -/
theorem Scanned.firstRun {skip : Nat} (hover : t.Scanned true cursor skip)
    (hlt : cursor + skip < t.length) (hrun : t.Scanned false (cursor + skip) count) :
    t.FirstRun cursor (cursor + skip) count where
  le := Nat.le_add_right cursor skip
  skipped := hover.passed
  pos := Nat.pos_of_ne_zero fun hzero ↦ by
    subst hzero
    cases (hover.stopped hlt).symm.trans (hrun.stopped hlt)
  scanned := hrun

/-- **A step that answers a run** answers the first one, and goes on behind it. -/
theorem of_nextRun_eq_some {next : Nat} (h : t.nextRun cursor = .ok (some (run, next))) :
    t.FirstRun cursor run.1 run.2 ∧ next = run.1 + run.2 := by
  obtain ⟨rest, hrest, h⟩ := bind_eq_ok_iff.1 h
  obtain ⟨hcursor, rfl⟩ := readFrom_eq_ok_iff.1 hrest
  split at h
  · cases h
  · rename_i skip hskip
    obtain ⟨first, hfirst, h⟩ := bind_eq_ok_iff.1 h
    obtain ⟨frames, hframes, h⟩ := bind_eq_ok_iff.1 h
    obtain ⟨next', hnext, h⟩ := bind_eq_ok_iff.1 h
    obtain ⟨-, rfl⟩ := Word.add_eq_ok_iff.1 hfirst
    obtain ⟨hle, rfl⟩ := readFrom_eq_ok_iff.1 hframes
    obtain ⟨-, rfl⟩ := Word.add_eq_ok_iff.1 hnext
    obtain ⟨rfl, rfl⟩ := Prod.mk.inj (Option.some.inj (Except.ok.inj h))
    obtain ⟨hlt, rfl⟩ := List.findIdx?_eq_some_iff_findIdx_eq.1 hskip
    rw [length_drop] at hlt
    exact ⟨(scanned_findIdx_usable hcursor).firstRun (by omega) (scanned_takeWhile_usable hle), rfl⟩

/-- **A step that answers no run** found none: from the cursor on, all frames are reserved. -/
theorem of_nextRun_eq_none (h : t.nextRun cursor = .ok none) :
    ∀ g, cursor ≤ g → g < t.length → t.isReserved g = true := by
  obtain ⟨rest, hrest, h⟩ := bind_eq_ok_iff.1 h
  obtain ⟨hcursor, rfl⟩ := readFrom_eq_ok_iff.1 hrest
  split at h
  · rename_i hnone
    have hover := scanned_findIdx_usable hcursor
    rw [List.findIdx?_eq_none_iff_findIdx_eq.1 hnone, length_drop] at hover
    exact fun g hle hlt ↦ hover.passed g hle (by omega)
  · obtain ⟨_, -, h⟩ := bind_eq_ok_iff.1 h
    obtain ⟨_, -, h⟩ := bind_eq_ok_iff.1 h
    obtain ⟨_, -, h⟩ := bind_eq_ok_iff.1 h
    cases h

/-- **No step faults** while the cursor is in the table or at its end. -/
theorem exists_nextRun (ht : t.length < Word.limit) (hcursor : cursor ≤ t.length) :
    ∃ next, t.nextRun cursor = .ok next := by
  rw [nextRun, readFrom_eq_ok_iff.2 ⟨hcursor, rfl⟩, ok_bind]
  split
  · exact ⟨none, rfl⟩
  · rename_i skip hskip
    obtain ⟨hlt, -⟩ := List.findIdx?_eq_some_iff_findIdx_eq.1 hskip
    rw [length_drop] at hlt
    have hle : cursor + skip ≤ t.length := by omega
    have hrun := (scanned_takeWhile_usable hle).le_length
    have hfirst : Frame.add cursor skip = .ok (cursor + skip) :=
      Word.add_eq_ok_iff.2 ⟨Nat.lt_of_le_of_lt hle ht, rfl⟩
    have hnext : Frame.add (cursor + skip) _ = .ok _ :=
      Word.add_eq_ok_iff.2 ⟨Nat.lt_of_le_of_lt hrun ht, rfl⟩
    rw [hfirst, ok_bind, readFrom_eq_ok_iff.2 ⟨hle, rfl⟩, ok_bind]
    exact ⟨_, bind_eq_ok_iff.2 ⟨_, hnext, rfl⟩⟩

/-! ### The iteration -/

/-- The runs that the steps answer from a cursor on, until one of them answers none. A run has a
frame, so the cursor moves up, and it does not leave the table. -/
def collectRuns (t : FrameTable) (cursor : Frame) : Except Fault (List (Frame × Nat)) :=
  match _h : t.nextRun cursor with
  | .error fault => .error fault
  | .ok none => .ok []
  | .ok (some (run, next)) => (t.collectRuns next).map (run :: ·)
termination_by t.length - cursor
decreasing_by
  obtain ⟨hfirst, rfl⟩ := of_nextRun_eq_some _h
  have hbounds := hfirst.bounds
  omega

/-- The first frame of a run is in it. -/
theorem Ascending.covers_first (h : Ascending f runs) (hrun : run ∈ runs) : Covers runs run.1 :=
  ⟨run, hrun, Nat.le_refl _, Nat.lt_add_of_pos_right (h.pos run hrun)⟩

/-- What is known of the runs from behind a run on is that they ascend and have the usable frames
there. As the frame right behind it is not usable, the run stands apart from them. -/
theorem FirstRun.ascending_cons (h : t.FirstRun cursor first count)
    (hrest : Ascending (first + count) runs)
    (hcovers : ∀ g, Covers runs g ↔ first + count ≤ g ∧ g < t.length ∧ t.isReserved g = false) :
    Ascending cursor ((first, count) :: runs) where
  le := List.forall_mem_cons.2 ⟨h.le, fun run hrun ↦
    Nat.le_trans (Nat.le_of_lt h.bounds.1) (hrest.le run hrun)⟩
  pos := List.forall_mem_cons.2 ⟨h.pos, hrest.pos⟩
  gaps := by
    refine List.pairwise_cons.2 ⟨fun run hrun ↦ ?_, hrest.gaps⟩
    obtain ⟨hle, hlt, husable⟩ := (hcovers run.1).1 (hrest.covers_first hrun)
    refine Nat.lt_of_le_of_ne hle fun heq ↦ ?_
    have hreserved := h.scanned.stopped (heq ▸ hlt)
    rw [heq, husable] at hreserved
    cases hreserved

/-- The frames that are usable from the cursor on are those of the first run, and the usable ones
behind it. -/
theorem FirstRun.usable_iff (h : t.FirstRun cursor first count) :
    (cursor ≤ g ∧ g < t.length ∧ t.isReserved g = false) ↔
      (first ≤ g ∧ g < first + count) ∨
        (first + count ≤ g ∧ g < t.length ∧ t.isReserved g = false) := by
  obtain ⟨hcursor, hlength⟩ := h.bounds
  constructor
  · rintro ⟨hle, hlt, husable⟩
    have hfirst : first ≤ g := Nat.le_of_not_lt fun hg ↦ by
      rw [h.skipped g hle hg] at husable
      cases husable
    rcases Nat.lt_or_ge g (first + count) with hg | hg
    · exact Or.inl ⟨hfirst, hg⟩
    · exact Or.inr ⟨hg, hlt, husable⟩
  · rintro (⟨hfirst, hg⟩ | ⟨hg, hlt, husable⟩)
    · exact ⟨Nat.le_trans h.le hfirst, Nat.lt_of_lt_of_le hg hlength, h.scanned.passed g hfirst hg⟩
    · exact ⟨Nat.le_trans (Nat.le_of_lt hcursor) hg, hlt, husable⟩

/-- **An iteration ends without a fault.** The runs that it gives ascend from the cursor on, and
they have the usable frames from there on. -/
theorem exists_collectRuns (ht : t.length < Word.limit) (hcursor : cursor ≤ t.length) :
    ∃ runs, t.collectRuns cursor = .ok runs ∧ Ascending cursor runs ∧
      ∀ g, Covers runs g ↔ cursor ≤ g ∧ g < t.length ∧ t.isReserved g = false := by
  -- The induction is on what is left of the table above the cursor, along the steps.
  induction cursor using collectRuns.induct t with
  | case1 cursor fault h =>
    obtain ⟨next, hnext⟩ := exists_nextRun ht hcursor
    cases h.symm.trans hnext
  | case2 cursor h =>
    have hcollect : t.collectRuns cursor = .ok [] := by rw [collectRuns, h]
    refine ⟨[], hcollect, ⟨by simp, by simp, List.Pairwise.nil⟩, fun g ↦ ?_⟩
    constructor
    · rintro ⟨run, hrun, -⟩
      cases hrun
    · rintro ⟨hle, hlt, husable⟩
      rw [of_nextRun_eq_none h g hle hlt] at husable
      cases husable
  | case3 cursor run next h ih =>
    obtain ⟨hfirst, rfl⟩ := of_nextRun_eq_some h
    obtain ⟨runs, hruns, hascending, hcovers⟩ := ih hfirst.bounds.2
    have hcollect : t.collectRuns cursor = .ok (run :: runs) := by
      rw [collectRuns, h]
      exact map_eq_ok_iff.2 ⟨runs, hruns, rfl⟩
    refine ⟨run :: runs, hcollect, hfirst.ascending_cons hascending hcovers, fun g ↦ ?_⟩
    rw [covers_cons, hcovers, hfirst.usable_iff]

/-! ### Lists of runs -/

/-- Of two maximal runs with a frame in common neither starts above the other one. -/
theorem MaximalRun.first_le {first' count' : Nat} (h : t.MaximalRun first count)
    (h' : t.MaximalRun first' count') (hg : first ≤ g) (hg' : g < first' + count') :
    first ≤ first' := by
  refine Nat.le_of_not_lt fun hlt ↦ ?_
  obtain ⟨below, rfl⟩ := Nat.exists_eq_add_of_lt hlt
  have husable := (h'.usable (first' + below) (by omega) (by omega)).2
  rw [h.below _ rfl] at husable
  cases husable

/-- Nor does it end above the other one. -/
theorem MaximalRun.end_le {first' count' : Nat} (h : t.MaximalRun first count)
    (h' : t.MaximalRun first' count') (hg : first ≤ g) (hg' : g < first' + count') :
    first + count ≤ first' + count' := by
  refine Nat.le_of_not_lt fun hlt ↦ ?_
  obtain ⟨hlength, husable⟩ := h.usable (first' + count') (by omega) hlt
  rw [h'.above hlength] at husable
  cases husable

/-- **Maximal runs with a frame in common** are the same. -/
theorem MaximalRun.eq {first' count' : Nat} (h : t.MaximalRun first count)
    (h' : t.MaximalRun first' count') (hg : first ≤ g ∧ g < first + count)
    (hg' : first' ≤ g ∧ g < first' + count') : first = first' ∧ count = count' := by
  have hfirst := h.first_le h' hg.1 hg'.2
  have hfirst' := h'.first_le h hg'.1 hg.2
  have hend := h.end_le h' hg.1 hg'.2
  have hend' := h'.end_le h hg'.1 hg.2
  omega

/-- The frames of the runs, by first frame and length. -/
theorem covers_iff :
    Covers runs g ↔ ∃ first count : Nat, (first, count) ∈ runs ∧ first ≤ g ∧ g < first + count :=
  Prod.exists

/-- Of two runs of a list one ends with a gap below the other. -/
theorem Ascending.gap {first' count' : Nat} (h : Ascending f runs) (hrun : (first, count) ∈ runs)
    (hrun' : (first', count') ∈ runs) (hne : (first, count) ≠ (first', count')) :
    first + count < first' ∨ first' + count' < first := by
  let R : Frame × Nat → Frame × Nat → Prop := fun a b ↦ a.1 + a.2 < b.1 ∨ b.1 + b.2 < a.1
  have hsymm : Std.Symm R := ⟨fun _ _ ↦ Or.symm⟩
  have hpairwise : runs.Pairwise R := h.gaps.imp Or.inl
  exact hpairwise.forall hrun hrun' hne

/-- Where the frames of a list that ascends with gaps are the usable ones, a frame next to a run is
not usable: it would be in another run, and there would be no gap to that. -/
theorem Ascending.isReserved_of_adjacent (h : Ascending f runs)
    (hcovers : ∀ g, Covers runs g ↔ g < t.length ∧ t.isReserved g = false)
    (hrun : (first, count) ∈ runs) (hg : g < t.length)
    (hadjacent : g + 1 = first ∨ g = first + count) : t.isReserved g = true := by
  by_contra hnot
  rw [Bool.not_eq_true] at hnot
  obtain ⟨first', count', hrun', hle, hlt⟩ := covers_iff.1 ((hcovers g).2 ⟨hg, hnot⟩)
  have hpos : 0 < count := h.pos _ hrun
  rcases eq_or_ne (first, count) (first', count') with heq | hne
  · obtain ⟨rfl, rfl⟩ := Prod.mk.inj heq
    omega
  · rcases h.gap hrun hrun' hne with hgap | hgap <;> omega

/-- A member of a list that ascends with gaps and has just the usable frames is a maximal run. -/
theorem Ascending.maximalRun (h : Ascending f runs)
    (hcovers : ∀ g, Covers runs g ↔ g < t.length ∧ t.isReserved g = false)
    (hrun : (first, count) ∈ runs) : t.MaximalRun first count := by
  have husable : ∀ g, first ≤ g → g < first + count → g < t.length ∧ t.isReserved g = false :=
    fun g hle hlt ↦ (hcovers g).1 (covers_iff.2 ⟨first, count, hrun, hle, hlt⟩)
  have hpos : 0 < count := h.pos _ hrun
  have hfirst := (husable first (Nat.le_refl _) (Nat.lt_add_of_pos_right hpos)).1
  refine ⟨hpos, husable, fun g hg ↦ ?_, fun hlt ↦ ?_⟩
  · exact h.isReserved_of_adjacent hcovers hrun (by omega) (Or.inl hg)
  · exact h.isReserved_of_adjacent hcovers hrun hlt (Or.inr rfl)

/-- **The members** of a list that ascends with gaps and has just the usable frames are the maximal
runs. -/
theorem Ascending.mem_iff_maximalRun (h : Ascending f runs)
    (hcovers : ∀ g, Covers runs g ↔ g < t.length ∧ t.isReserved g = false) :
    (first, count) ∈ runs ↔ t.MaximalRun first count := by
  refine ⟨h.maximalRun hcovers, fun hmaximal ↦ ?_⟩
  have hfirst : first ≤ first ∧ first < first + count :=
    ⟨Nat.le_refl _, Nat.lt_add_of_pos_right hmaximal.pos⟩
  obtain ⟨first', count', hrun', hin⟩ :=
    covers_iff.1 ((hcovers first).2 (hmaximal.usable first hfirst.1 hfirst.2))
  obtain ⟨rfl, rfl⟩ := hmaximal.eq (h.maximalRun hcovers hrun') hfirst hin
  exact hrun'

/-- Lists that ascend with gaps and have the same members are the same. -/
theorem Ascending.eq_of_mem_iff (h : Ascending f runs) (h' : Ascending g runs')
    (hmem : ∀ first count, (first, count) ∈ runs ↔ (first, count) ∈ runs') : runs = runs' := by
  let R : Frame × Nat → Frame × Nat → Prop := fun a b ↦ a.1 + a.2 < b.1
  have hlt : ∀ a b, R a b → a.1 < b.1 := fun a b hab ↦ Nat.lt_of_le_of_lt (Nat.le_add_right _ _) hab
  have hirrefl : Std.Irrefl R := ⟨fun a haa ↦ Nat.lt_irrefl _ (hlt a a haa)⟩
  have hantisymm : Std.Antisymm R :=
    ⟨fun a b hab hba ↦ absurd (hlt a b hab) (Nat.lt_asymm (hlt b a hba))⟩
  have hgaps : runs.Pairwise R := h.gaps
  exact hgaps.eq_of_mem_iff h'.gaps fun run ↦ hmem run.1 run.2

/-! ### The runs of a table -/

theorem sum_extendRuns (f : Frame) (runs : List (Frame × Nat)) :
    ((extendRuns f runs).map (·.2)).sum = (runs.map (·.2)).sum + 1 := by
  rcases runs with - | ⟨⟨first, count⟩, runs⟩
  · rfl
  · rw [extendRuns]
    split <;> simp only [List.map_cons, List.sum_cons] <;> omega

theorem sum_runsFrom (f : Frame) (ds : List Descriptor) :
    ((runsFrom f ds).map (·.2)).sum = ds.countP fun d ↦ !d.reserved := by
  induction ds generalizing f with
  | nil => rfl
  | cons d ds ih =>
    rw [runsFrom_cons, List.countP_cons]
    by_cases hres : d.reserved = true
    · rw [if_pos hres, ih, hres]
      rfl
    · rw [if_neg hres, sum_extendRuns, ih, if_pos (by simpa using hres)]

/-- The runs have as many frames as are usable. -/
theorem sum_usableRuns (t : FrameTable) : (t.usableRuns.map (·.2)).sum = t.usableCount := by
  rw [usableCount, ← Array.countP_toList]
  exact sum_runsFrom 0 t.frames.toList

/-- **The runs of a table are its maximal runs of usable frames.** For every table an iteration with
a cursor, from frame 0 on, ends without a fault and gives the runs that are also found from the end
of the table (the number of frames being a word, as the length of anything in memory is). The first
frames of the runs ascend, and each run ends below the frame in front of the next one, so that no two
of them meet or continue each other. They are just the maximal runs: such a run has a frame at least,
all its frames are usable, and the frame in front of it and the one behind it are reserved where the
table has them. The frames of all runs are the usable ones of the table, and so many their lengths
add up to. -/
theorem usableRuns_maximal (t : FrameTable) :
    (t.length < Word.limit → t.collectRuns 0 = .ok t.usableRuns) ∧
      (t.usableRuns.map (·.1)).Pairwise (· < ·) ∧
      (t.usableRuns.Pairwise fun a b ↦ a.1 + a.2 < b.1) ∧
      (∀ first count, (first, count) ∈ t.usableRuns ↔ t.MaximalRun first count) ∧
      (∀ f, Covers t.usableRuns f ↔ f < t.length ∧ t.isReserved f = false) ∧
      (t.usableRuns.map (·.2)).sum = t.usableCount := by
  have hascending := ascending_usableRuns t
  have hmaximal : ∀ first count, (first, count) ∈ t.usableRuns ↔ t.MaximalRun first count :=
    fun first count ↦ hascending.mem_iff_maximalRun fun _ ↦ covers_usableRuns_iff
  refine ⟨fun ht ↦ ?_, ?_, hascending.gaps, hmaximal, fun f ↦ covers_usableRuns_iff,
    sum_usableRuns t⟩
  · obtain ⟨runs, hruns, hascending', hcovers⟩ := exists_collectRuns ht (Nat.zero_le t.length)
    have hcovers' : ∀ g, Covers runs g ↔ g < t.length ∧ t.isReserved g = false := fun g ↦ by
      rw [hcovers, and_iff_right (Nat.zero_le g)]
    obtain rfl : runs = t.usableRuns := hascending'.eq_of_mem_iff hascending fun first count ↦ by
      rw [hmaximal, hascending'.mem_iff_maximalRun hcovers']
    exact hruns
  · rw [List.pairwise_map]
    exact hascending.gaps.imp fun hgap ↦ Nat.lt_of_le_of_lt (Nat.le_add_right _ _) hgap

/-- A table of six frames with a hole in the middle, and with a reserved frame at the end. -/
def holed : FrameTable where
  frames := #[{}, {}, { reserved := true }, { reserved := true }, {}, { reserved := true }]

/-- The second run of the table is a maximal one, although it has a single frame. -/
theorem usableRuns_maximal_holed :
    holed.length < Word.limit ∧ holed.collectRuns 0 = .ok [(0, 2), (4, 1)] ∧
      holed.MaximalRun 4 1 ∧ holed.usableCount = 3 := by
  have hlength : holed.length < Word.limit := by decide
  have hruns : holed.usableRuns = [(0, 2), (4, 1)] := rfl
  obtain ⟨hcollect, -, -, hmaximal, -, hsum⟩ := usableRuns_maximal holed
  rw [hruns] at hcollect hmaximal hsum
  exact ⟨hlength, hcollect hlength, (hmaximal 4 1).1 (by decide), hsum.symm⟩

end FramePool.FrameTable
