import FramePool.Proofs.Effects
import FramePool.Proofs.Extent

/-!
# Events and the addresses that they show

With an observer, a computation ends well when it ends well without one and each of its events has a
text (`Traced.run_eq_ok_iff`). The text of an event shows addresses of frames, so it exists just
when these frames have addresses (`Event.exists_render_iff`).

Only two events show an address: a free block was found, or a page was given back. Merging and
halving show none, whatever they do. Hence the events of an operation are legible as soon as the
block that it finds, or the page that it is given, has an address; and in a table that fits into the
physical address space each frame has one.
-/

namespace FramePool

variable {α β : Type} {C : Config} {P : Platform} {f : Frame}

/-! ### Texts of events -/

/-- The frames whose addresses the text of an event shows. -/
def Event.shown : Event → List Frame
  | found _ head _ => [head]
  | freed page _ head => [head, page]
  | _ => []

section Shown

variable {n head page : Nat}

theorem Event.forall_shown_of_nil {e : Event} (h : e.shown = []) : ∀ f ∈ e.shown, f < n :=
  h ▸ fun _ hf ↦ absurd hf List.not_mem_nil

theorem Event.forall_shown_found (h : head < n) (k order : Nat) :
    ∀ f ∈ (Event.found k head order).shown, f < n :=
  List.forall_mem_singleton.2 h

theorem Event.forall_shown_freed (hpage : page < n) (hle : head ≤ page) (order : Nat) :
    ∀ f ∈ (Event.freed page order head).shown, f < n :=
  List.forall_mem_cons.2 ⟨Nat.lt_of_le_of_lt hle hpage, List.forall_mem_singleton.2 hpage⟩

end Shown

theorem Frame.exists_addressText_iff : (∃ x, f.addressText P = .ok x) ↔ f < P.frameLimit := by
  constructor
  · rintro ⟨x, h⟩
    obtain ⟨a, ha, -⟩ := map_eq_ok_iff.1 h
    rw [← Frame.mul_pageSize_lt_iff, Frame.start_eq_ok_iff.1 ha]
    exact a.value_lt
  · intro hf
    exact ⟨_, map_eq_ok_iff.2 ⟨_, Frame.start_of_lt (Frame.mul_pageSize_lt_iff.2 hf), rfl⟩⟩

/-- **An event has a text** exactly when the frames that it shows have addresses. -/
theorem Event.exists_render_iff {e : Event} :
    (∃ r, e.render P = .ok r) ↔ ∀ f ∈ e.shown, f < P.frameLimit := by
  cases e with
  | found order head requested =>
    simp only [shown, List.forall_mem_singleton, ← Frame.exists_addressText_iff]
    constructor
    · rintro ⟨r, h⟩
      obtain ⟨x, hx, -⟩ := bind_eq_ok_iff.1 h
      exact ⟨x, hx⟩
    · rintro ⟨x, hx⟩
      exact ⟨_, bind_eq_ok_iff.2 ⟨x, hx, rfl⟩⟩
  | freed page order head =>
    simp only [shown, List.forall_mem_cons, ← Frame.exists_addressText_iff]
    constructor
    · rintro ⟨r, h⟩
      obtain ⟨x, hx, h⟩ := bind_eq_ok_iff.1 h
      obtain ⟨y, hy, -⟩ := bind_eq_ok_iff.1 h
      exact ⟨⟨x, hx⟩, ⟨y, hy⟩, fun _ hf ↦ absurd hf List.not_mem_nil⟩
    · rintro ⟨⟨x, hx⟩, ⟨y, hy⟩, -⟩
      exact ⟨_, bind_eq_ok_iff.2 ⟨x, hx, bind_eq_ok_iff.2 ⟨y, hy, rfl⟩⟩⟩
  | _ => exact ⟨fun _ f hf ↦ absurd hf List.not_mem_nil, fun _ ↦ ⟨_, rfl⟩⟩

/-! ### Legible computations -/

namespace Traced

variable {x : Traced α}

/-- Each frame that the events show has an address. -/
def Legible (P : Platform) (x : Traced α) : Prop := ∀ e ∈ x.events, ∀ f ∈ e.shown, f < P.frameLimit

/-- Events can be rendered when each of them has a text. -/
theorem renderAll_eq_ok_iff {es : List Event} :
    (renderAll P es).2 = .ok () ↔ ∀ e ∈ es, ∀ f ∈ e.shown, f < P.frameLimit := by
  induction es with
  | nil => exact ⟨fun _ e he ↦ absurd he List.not_mem_nil, fun _ ↦ rfl⟩
  | cons e es ih =>
    rw [List.forall_mem_cons, ← Event.exists_render_iff, ← ih, renderAll]
    cases e.render P with
    | error fault => simp
    | ok r => simp

/-- **With an observer** a computation answers what it answers without one, unless an event has no
text. -/
theorem run_eq_ok_iff {tracing : Bool} {a : α} :
    (x.run P tracing).2 = .ok a ↔ x.result = .ok a ∧ (tracing = true → x.Legible P) := by
  cases tracing with
  | false => simp [run]
  | true =>
    simp only [run, if_true, forall_const, Legible, ← renderAll_eq_ok_iff]
    show ((renderAll P x.events).2 >>= fun _ ↦ x.result) = .ok a ↔ _
    rw [bind_eq_ok_iff]
    constructor
    · rintro ⟨⟨⟩, hrender, hresult⟩
      exact ⟨hresult, hrender⟩
    · rintro ⟨hresult, hrender⟩
      exact ⟨(), hrender, hresult⟩

/-- Where each text can be made, an observer changes nothing. -/
theorem Legible.run_eq (h : x.Legible P) (tracing : Bool) :
    (x.run P tracing).2 = (x.run P false).2 := by
  cases tracing with
  | false => rfl
  | true =>
    show ((renderAll P x.events).2 >>= fun _ ↦ x.result) = x.result
    rw [renderAll_eq_ok_iff.2 h, ok_bind]

theorem Within.legible {Q : α → Prop} (h : x.Within (fun e ↦ ∀ f ∈ e.shown, f < P.frameLimit) Q) :
    x.Legible P :=
  h.events

/-- The steps of a legible sequence are legible. -/
theorem Legible.of_bind {g : α → Traced β} {a : α} (h : (x >>= g).Legible P)
    (hx : x.result = .ok a) : x.Legible P ∧ (g a).Legible P := by
  rw [bind_of_ok hx] at h
  exact ⟨fun e he ↦ h e (List.mem_append_left _ he), fun e he ↦ h e (List.mem_append_right _ he)⟩

end Traced

open Traced

/-! ### The events of a pool -/

namespace Pool

variable {p p' : Pool} {page : Page}

/-- The block that was found has an address, if it was shown. -/
theorem lt_frameLimit_of_legible_take {order : Nat} (h : (take P p order).Legible P)
    (hresult : (take P p order).result = .ok (some f, p')) : f < P.frameLimit := by
  rcases hfit : p.firstFit order with - | k
  · rw [take, hfit] at hresult
    cases hresult
  · rw [take, hfit] at h hresult
    simp only [result_bind] at hresult
    obtain ⟨⟨head | head, p₁⟩, hpop, hresult⟩ := bind_eq_ok_iff.1 hresult
    · cases hresult
    · have hemit : (emit (.found k head order)).Legible P :=
        (Legible.of_bind (h.of_bind hpop).2 rfl).1
      have hhead : head < P.frameLimit :=
        hemit _ (List.mem_singleton_self _) head List.mem_cons_self
      have heq : head = f := by
        simp only [result_bind, result_emit, ok_bind] at hresult
        split at hresult
        · rw [result_bind] at hresult
          obtain ⟨p₂, -, hresult⟩ := bind_eq_ok_iff.1 hresult
          exact Option.some.inj (Prod.mk.inj (Except.ok.inj hresult)).1
        · exact Option.some.inj (Prod.mk.inj (Except.ok.inj hresult)).1
      exact heq ▸ hhead

/-- **Giving a block back** shows the addresses of the page and of the block that it is then part
of. -/
theorem legible_free (p : Pool) (hpage : page.frame < P.frameLimit) (selfCheck : Bool) :
    (p.free ⟨P, selfCheck⟩ page).Legible P :=
  (within_free (fun _ _ _ ↦ Event.forall_shown_of_nil rfl) fun order _ _ hle ↦
    Event.forall_shown_freed hpage hle order).legible

theorem legible_decref (p : Pool) (hpage : page.frame < P.frameLimit) (selfCheck : Bool) :
    (p.decref ⟨P, selfCheck⟩ page).Legible P :=
  (within_decref (fun _ _ _ ↦ Event.forall_shown_of_nil rfl) fun order _ _ hle ↦
    Event.forall_shown_freed hpage hle order).legible

/-- **Handing over** a range shows no address. -/
theorem legible_releaseRange (p : Pool) (first count : Nat) (selfCheck : Bool) :
    (p.releaseRange ⟨P, selfCheck⟩ first count).Legible P :=
  (within_releaseRange (fun _ _ _ ↦ Event.forall_shown_of_nil rfl) p first count).legible

end Pool

/-- **A request for a block** shows the address of the block that is found. -/
theorem Machine.legible_allocOrder {m : Machine} (hlen : m.pool.table.length ≤ P.frameLimit)
    (order : Nat) (flags : AllocFlags) (selfCheck : Bool) :
    (m.allocOrder ⟨P, selfCheck⟩ order flags).Legible P :=
  (within_allocOrder (fun _ _ ↦ Event.forall_shown_of_nil rfl)
    (fun k _ hlt ↦ Event.forall_shown_found (Nat.lt_of_lt_of_le hlt hlen) k order)
    (fun _ ↦ Event.forall_shown_of_nil rfl) flags).legible

theorem Machine.legible_drain {m : Machine} (hlen : m.pool.table.length ≤ P.frameLimit)
    (order limit : Nat) (selfCheck : Bool) : (m.drain ⟨P, selfCheck⟩ order limit).Legible P :=
  (within_drain (fun _ _ ↦ Event.forall_shown_of_nil rfl)
    (fun k _ hlt ↦ Event.forall_shown_found (Nat.lt_of_lt_of_le hlt hlen) k order)
    (fun _ ↦ Event.forall_shown_of_nil rfl) limit).legible

end FramePool
