import Mathlib.Data.Nat.Find

/-!
# Searching from above

The orders of blocks and the units of sizes are searched from the largest down, and the smallest is
taken where none fits. That is the greatest number up to a bound with a property, for which the
library has the theory.
-/

namespace FramePool

/-- **The first hit from above** is the greatest one. -/
theorem getD_find?_reverse_range (p : Nat → Prop) [DecidablePred p] (k : Nat) :
    ((List.range (k + 1)).reverse.find? fun i ↦ p i).getD 0 = Nat.findGreatest p k := by
  induction k with
  | zero =>
    rw [List.range_succ, List.range_zero, List.nil_append, List.reverse_singleton,
      List.find?_singleton, Nat.findGreatest_zero]
    split <;> rfl
  | succ k ih =>
    rw [List.range_succ, List.reverse_append, List.reverse_singleton, List.singleton_append,
      List.find?_cons, Nat.findGreatest_succ, ← ih]
    by_cases hk : p (k + 1)
    · rw [decide_eq_true hk, if_pos hk]
      rfl
    · rw [decide_eq_false hk, if_neg hk]

end FramePool
