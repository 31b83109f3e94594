import FramePool.BootMap

/-!
# Runs of usable frames

The runs of a table are found from its end: a usable frame lengthens the run that starts right above
it, and otherwise it is a run of its own. What that keeps is that the runs ascend with a gap between
any two of them (`Ascending.extend`), and that they have just the usable frames that were gone
through (`covers_extendRuns`).

So **the runs of a table ascend** (`ascending_usableRuns`), and **their frames are the usable ones**
(`covers_usableRuns_iff`).
-/

namespace FramePool.FrameTable

variable {f g : Nat} {runs : List (Frame × Nat)} {t : FrameTable}

/-- Runs from frame `f` up, none of them empty, in ascending order and with a gap between any two of
them. -/
structure Ascending (f : Nat) (runs : List (Frame × Nat)) : Prop where
  /-- They start at the frame or above it. -/
  le : ∀ run ∈ runs, f ≤ run.1
  /-- They have frames. -/
  pos : ∀ run ∈ runs, 0 < run.2
  /-- A later one neither meets an earlier one nor continues it. -/
  gaps : runs.Pairwise fun a b ↦ a.1 + a.2 < b.1

/-- The frame is in one of the runs. -/
def Covers (runs : List (Frame × Nat)) (g : Nat) : Prop :=
  ∃ run ∈ runs, run.1 ≤ g ∧ g < run.1 + run.2

theorem covers_cons {first count : Nat} :
    Covers ((first, count) :: runs) g ↔ (first ≤ g ∧ g < first + count) ∨ Covers runs g := by
  simp only [Covers, List.mem_cons, exists_eq_or_imp]

/-! ### One more frame -/

/-- **A frame below the runs** lengthens the first of them or stands apart from all of them. -/
theorem Ascending.extend (h : Ascending (f + 1) runs) : Ascending f (extendRuns f runs) := by
  have hbelow : ∀ run ∈ runs, f ≤ run.1 := fun run hrun ↦ Nat.le_of_succ_le (h.le run hrun)
  rcases runs with - | ⟨⟨first, count⟩, runs⟩
  · exact ⟨by simp [extendRuns], by simp [extendRuns], List.pairwise_singleton _ _⟩
  · obtain ⟨-, hpos⟩ := List.forall_mem_cons.1 h.pos
    obtain ⟨-, hrest⟩ := List.forall_mem_cons.1 hbelow
    obtain ⟨hgap, hgaps⟩ := List.pairwise_cons.1 h.gaps
    have hfirst : f + 1 ≤ first := h.le _ List.mem_cons_self
    rw [extendRuns]
    split
    · rename_i heq
      subst heq
      refine ⟨List.forall_mem_cons.2 ⟨Nat.le_refl f, hrest⟩,
        List.forall_mem_cons.2 ⟨Nat.succ_pos count, hpos⟩,
        List.pairwise_cons.2 ⟨fun run hrun ↦ ?_, hgaps⟩⟩
      have hlt : f + 1 + count < run.1 := hgap run hrun
      show f + (count + 1) < run.1
      omega
    · rename_i hne
      have hlt : f + 1 < first := Nat.lt_of_le_of_ne hfirst (Ne.symm hne)
      refine ⟨List.forall_mem_cons.2 ⟨Nat.le_refl f, hbelow⟩,
        List.forall_mem_cons.2 ⟨Nat.one_pos, h.pos⟩,
        List.pairwise_cons.2 ⟨List.forall_mem_cons.2 ⟨hlt, fun run hrun ↦ ?_⟩, h.gaps⟩⟩
      exact Nat.lt_trans hlt (Nat.lt_of_le_of_lt (Nat.le_add_right first count) (hgap run hrun))

/-- The frame is added to those of the runs. -/
theorem covers_extendRuns : Covers (extendRuns f runs) g ↔ g = f ∨ Covers runs g := by
  have hone : (f ≤ g ∧ g < f + 1) ↔ g = f := by omega
  rcases runs with - | ⟨⟨first, count⟩, runs⟩
  · rw [extendRuns, covers_cons, hone]
  · rw [extendRuns]
    split
    · rename_i heq
      subst heq
      rw [covers_cons, covers_cons, ← or_assoc]
      exact or_congr_left (by omega)
    · rw [covers_cons, hone]

/-! ### All frames -/

/-- The runs of frames for which some descriptors stand, the first of them for frame `f`. -/
def runsFrom (f : Frame) (ds : List Descriptor) : List (Frame × Nat) :=
  (ds.zipIdx f).foldr (fun (d, f) runs ↦ if d.reserved then runs else extendRuns f runs) []

theorem runsFrom_cons (f : Frame) (d : Descriptor) (ds : List Descriptor) :
    runsFrom f (d :: ds) =
      if d.reserved then runsFrom (f + 1) ds else extendRuns f (runsFrom (f + 1) ds) := rfl

theorem ascending_runsFrom (f : Frame) (ds : List Descriptor) : Ascending f (runsFrom f ds) := by
  induction ds generalizing f with
  | nil => exact ⟨by simp [runsFrom], by simp [runsFrom], List.Pairwise.nil⟩
  | cons d ds ih =>
    rw [runsFrom_cons]
    split
    · exact { ih (f + 1) with
        le := fun run hrun ↦ Nat.le_of_succ_le ((ih (f + 1)).le run hrun) }
    · exact (ih (f + 1)).extend

theorem covers_runsFrom_iff {ds : List Descriptor} :
    Covers (runsFrom f ds) g ↔ ∃ i d, ds[i]? = some d ∧ g = f + i ∧ d.reserved = false := by
  induction ds generalizing f with
  | nil => simp [runsFrom, Covers]
  | cons d ds ih =>
    have hsplit : (∃ i e, (d :: ds)[i]? = some e ∧ g = f + i ∧ e.reserved = false) ↔
        (g = f ∧ d.reserved = false) ∨
          ∃ i e, ds[i]? = some e ∧ g = f + 1 + i ∧ e.reserved = false := by
      constructor
      · rintro ⟨- | i, e, he, rfl, hres⟩
        · obtain rfl := Option.some.inj he
          exact Or.inl ⟨rfl, hres⟩
        · exact Or.inr ⟨i, e, he, by omega, hres⟩
      · rintro (⟨rfl, hres⟩ | ⟨i, e, he, rfl, hres⟩)
        · exact ⟨0, d, rfl, rfl, hres⟩
        · exact ⟨i + 1, e, he, by omega, hres⟩
    rw [hsplit, runsFrom_cons]
    split
    · rename_i hres
      rw [ih, hres]
      simp only [Bool.true_eq_false, and_false, false_or]
    · rename_i hres
      rw [Bool.not_eq_true] at hres
      rw [covers_extendRuns, ih, hres]
      simp only [and_true]

/-- **The runs of a table ascend.** -/
theorem ascending_usableRuns (t : FrameTable) : Ascending 0 t.usableRuns :=
  ascending_runsFrom 0 t.frames.toList

/-- **The frames of the runs** are the frames of the table that are not reserved. -/
theorem covers_usableRuns_iff : Covers t.usableRuns g ↔ g < t.length ∧ t.isReserved g = false := by
  show Covers (runsFrom 0 t.frames.toList) g ↔ _
  rw [covers_runsFrom_iff]
  simp only [Nat.zero_add, Array.getElem?_toList]
  constructor
  · rintro ⟨_, d, hd, rfl, hres⟩
    exact ⟨get?_isSome.1 (Option.isSome_iff_exists.2 ⟨d, hd⟩), by simp [isReserved, get?, hd, hres]⟩
  · rintro ⟨hg, hres⟩
    obtain ⟨d, hd⟩ := Option.isSome_iff_exists.1 (get?_isSome.2 hg)
    rw [isReserved, hd, Option.any_some] at hres
    exact ⟨g, d, hd, rfl, hres⟩

end FramePool.FrameTable
