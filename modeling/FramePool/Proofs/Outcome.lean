import FramePool.Trace

/-!
# Sequencing computations that may fault

What a sequence of steps answers, in terms of what its steps answer. A traced computation is read
through its result, which is how it ends when nobody looks at the events.
-/

namespace FramePool

variable {α β : Type}

@[simp] theorem ok_bind (a : α) (f : α → Except Fault β) : (Except.ok a >>= f) = f a := rfl

@[simp] theorem error_bind (fault : Fault) (f : α → Except Fault β) :
    (Except.error fault >>= f) = .error fault := rfl

theorem pure_eq_ok_iff {a b : α} : (pure a : Except Fault α) = .ok b ↔ b = a :=
  ⟨fun h ↦ (Except.ok.inj h).symm, fun h ↦ congrArg Except.ok h.symm⟩

/-- A sequence answers when both of its steps do. -/
theorem bind_eq_ok_iff {x : Except Fault α} {f : α → Except Fault β} {b : β} :
    (x >>= f) = .ok b ↔ ∃ a, x = .ok a ∧ f a = .ok b := by
  cases x with
  | error fault => simp
  | ok a => simp

theorem map_eq_ok_iff {x : Except Fault α} {f : α → β} {b : β} :
    x.map f = .ok b ↔ ∃ a, x = .ok a ∧ f a = b := by
  cases x with
  | error fault => simp [Except.map]
  | ok a => simp [Except.map]

/-- A list is gone through when each of its members is answered. -/
theorem mapM_eq_ok_iff {f : α → Except Fault β} {g : α → β} {R : α → Prop} {l : List α}
    {bs : List β} (hf : ∀ a b, f a = .ok b ↔ R a ∧ b = g a) :
    l.mapM f = .ok bs ↔ (∀ a ∈ l, R a) ∧ bs = l.map g := by
  induction l generalizing bs with
  | nil =>
    rw [List.mapM_nil]
    exact ⟨fun h ↦ ⟨fun a ha ↦ absurd ha List.not_mem_nil, (Except.ok.inj h).symm⟩,
      fun h ↦ congrArg Except.ok h.2.symm⟩
  | cons a l ih =>
    rw [List.mapM_cons, List.forall_mem_cons, List.map_cons]
    constructor
    · intro h
      obtain ⟨b, hb, h⟩ := bind_eq_ok_iff.1 h
      obtain ⟨rest, hrest, h⟩ := bind_eq_ok_iff.1 h
      obtain rfl := Except.ok.inj h
      obtain ⟨ha, rfl⟩ := (hf a b).1 hb
      obtain ⟨hl, rfl⟩ := ih.1 hrest
      exact ⟨⟨ha, hl⟩, rfl⟩
    · rintro ⟨⟨ha, hl⟩, rfl⟩
      rw [(hf a (g a)).2 ⟨ha, rfl⟩, ok_bind, ih.2 ⟨hl, rfl⟩]
      rfl

theorem require_eq_ok_iff {c : Prop} [Decidable c] {fault : Fault} {u : Unit} :
    require c fault = .ok u ↔ c := by
  by_cases h : c
  · simp [h]
  · simp [h]

/-- What is guarded is answered when the guard holds. -/
theorem require_bind_eq_ok_iff {c : Prop} [Decidable c] {fault : Fault} {x : Except Fault α}
    {a : α} : (require c fault >>= fun _ ↦ x) = .ok a ↔ c ∧ x = .ok a := by
  by_cases h : c
  · simp [h]
  · simp [h]

namespace Traced

@[simp] theorem result_liftM (x : Except Fault α) : (liftM x : Traced α).result = x := rfl

@[simp] theorem result_map (f : α → β) (x : Traced α) : (f <$> x).result = f <$> x.result := by
  rw [← bind_pure_comp, result_bind]
  cases x.result with
  | error fault => rfl
  | ok a => rfl

theorem map_eq_ok_iff {x : Traced α} {f : α → β} {b : β} :
    (f <$> x).result = .ok b ↔ ∃ a, x.result = .ok a ∧ f a = b := by
  rw [result_map]
  exact FramePool.map_eq_ok_iff

/-- Two sequences with the same first step are the same when they go on alike from whatever that
step can answer. -/
theorem bind_congr_of_result {x : Traced α} {f g : α → Traced β}
    (h : ∀ a, x.result = .ok a → f a = g a) : x >>= f = x >>= g := by
  cases hx : x.result with
  | error fault => rw [bind_of_error hx, bind_of_error hx]
  | ok a => rw [bind_of_ok hx, bind_of_ok hx, h a hx]

end Traced

end FramePool
