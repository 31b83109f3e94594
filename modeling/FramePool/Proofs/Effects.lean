import FramePool.Machine
import FramePool.Proofs.Outcome

/-!
# What an operation does to any pool

Little can be said of an operation on a pool whose lists may be corrupt, but two things always can:
which events it may report, and that the table keeps its length. Both come from the same walk
through its steps, so they are stated together. `Traced.Within S Q` says of a computation that all
its events are of a kind `S` and what it answers, if it does, satisfies `Q`; a sequence is within
bounds when its steps are (`Within.bind`).

There is one theorem for each operation. It takes the events that the operation may report as
hypotheses on `S`, with what is known of their frames: a block that is found is in the table, and a
block that comes back is part of one that starts no higher.
-/

namespace FramePool

variable {α β : Type}

/-! ### Computations within bounds -/

/-- The events are of the kind `S`, and the answer satisfies `Q`. -/
structure Traced.Within (S : Event → Prop) (Q : α → Prop) (x : Traced α) : Prop where
  /-- No event is of another kind. -/
  events : ∀ e ∈ x.events, S e
  /-- Where there is an answer, it is as it should be. -/
  answers : ∀ a, x.result = .ok a → Q a

namespace Traced

variable {S : Event → Prop} {Q Q' : α → Prop} {R : β → Prop} {x : Traced α}

theorem Within.imp (h : x.Within S Q) (hQ : ∀ a, Q a → Q' a) : x.Within S Q' :=
  ⟨h.events, fun a ha ↦ hQ a (h.answers a ha)⟩

/-- What is answered is the answer. -/
theorem Within.and_result (h : x.Within S Q) : x.Within S fun a ↦ Q a ∧ x.result = .ok a :=
  ⟨h.events, fun a ha ↦ ⟨h.answers a ha, ha⟩⟩

/-- Nothing is asked of any computation here. -/
theorem within_true (x : Traced α) : x.Within (fun _ ↦ True) fun _ ↦ True :=
  ⟨fun _ _ ↦ trivial, fun _ _ ↦ trivial⟩

theorem within_pure {a : α} (h : Q a) : (pure a : Traced α).Within S Q :=
  ⟨fun _ he ↦ absurd he List.not_mem_nil, fun _ ha ↦ Except.ok.inj ha ▸ h⟩

theorem within_liftM {x : Except Fault α} (h : ∀ a, x = .ok a → Q a) :
    (liftM x : Traced α).Within S Q :=
  ⟨fun _ he ↦ absurd he List.not_mem_nil, h⟩

theorem within_emit {e : Event} (h : S e) : (emit e).Within S fun _ ↦ True :=
  ⟨fun _ he ↦ List.mem_singleton.1 he ▸ h, fun _ _ ↦ trivial⟩

/-- **A sequence** is within bounds when its first step is, and when it goes on within bounds from
whatever that step may answer. -/
theorem Within.bind {g : α → Traced β} (h : x.Within S Q) (hg : ∀ a, Q a → (g a).Within S R) :
    (x >>= g).Within S R := by
  rcases hx : x.result with fault | a
  · rw [bind_of_error hx]
    exact ⟨h.events, fun b hb ↦ by cases hb⟩
  · have ha := hg a (h.answers a hx)
    rw [bind_of_ok hx]
    refine ⟨fun e he ↦ ?_, ha.answers⟩
    rcases List.mem_append.1 he with he | he
    · exact h.events e he
    · exact ha.events e he

theorem Within.map {g : α → β} (h : x.Within S Q) (hg : ∀ a, Q a → R (g a)) :
    (g <$> x).Within S R := by
  rw [← bind_pure_comp]
  exact h.bind fun a ha ↦ within_pure (hg a ha)

end Traced

/-! ### The table keeps its length -/

variable {t t' : FrameTable} {l l' : FreeList} {f : Frame}

theorem FrameTable.length_of_write {u : Descriptor → Descriptor} (h : t.write f u = .ok t') :
    t'.length = t.length := by
  rw [write] at h
  split at h
  · obtain rfl := Except.ok.inj h
    exact length_update t f u
  · cases h

theorem FrameTable.length_of_writeLink {link : Option Frame} {u : Descriptor → Descriptor}
    (h : t.writeLink link u = .ok t') : t'.length = t.length := by
  rcases link with - | f
  · obtain rfl := Except.ok.inj h
    rfl
  · exact length_of_write h

namespace FreeList

open FrameTable

theorem length_of_push (h : l.push t f = .ok (t', l')) : t'.length = t.length := by
  obtain ⟨d, -, h⟩ := bind_eq_ok_iff.1 h
  obtain ⟨_, -, h⟩ := bind_eq_ok_iff.1 h
  obtain ⟨t₁, hwrite, h⟩ := bind_eq_ok_iff.1 h
  obtain ⟨rfl, -⟩ := Prod.mk.inj (Except.ok.inj h)
  exact (length_of_writeLink hwrite).trans (length_update ..)

/-- A frame that is removed is in the table. -/
theorem length_of_remove (h : l.remove t f = .ok (t', l')) :
    t'.length = t.length ∧ f < t.length := by
  obtain ⟨d, hread, h⟩ := bind_eq_ok_iff.1 h
  obtain ⟨_, -, h⟩ := bind_eq_ok_iff.1 h
  obtain ⟨_, -, h⟩ := bind_eq_ok_iff.1 h
  obtain ⟨t₁, hwrite₁, h⟩ := bind_eq_ok_iff.1 h
  obtain ⟨t₂, hwrite₂, h⟩ := bind_eq_ok_iff.1 h
  obtain ⟨_, -, h⟩ := bind_eq_ok_iff.1 h
  obtain ⟨rfl, -⟩ := Prod.mk.inj (Except.ok.inj h)
  refine ⟨((length_of_writeLink hwrite₂).trans (length_of_writeLink hwrite₁)).trans
    (length_update ..), get?_isSome.1 ?_⟩
  rw [read_eq_ok_iff.1 hread]
  rfl

/-- A frame that is popped was in the table. -/
theorem length_of_pop {r : Option Frame} (h : l.pop t = .ok (r, t', l')) :
    t'.length = t.length ∧ ∀ f, r = some f → f < t.length := by
  rw [pop] at h
  split at h
  · obtain ⟨rfl, hrest⟩ := Prod.mk.inj (Except.ok.inj h)
    obtain ⟨rfl, -⟩ := Prod.mk.inj hrest
    exact ⟨rfl, fun f hf ↦ by cases hf⟩
  · rename_i head _
    obtain ⟨⟨t₁, l₁⟩, hremove, heq⟩ := map_eq_ok_iff.1 h
    obtain ⟨rfl, hrest⟩ := Prod.mk.inj heq
    obtain ⟨rfl, -⟩ := Prod.mk.inj hrest
    obtain ⟨hlength, hlt⟩ := length_of_remove hremove
    exact ⟨hlength, fun f hf ↦ Option.some.inj hf ▸ hlt⟩

end FreeList

namespace Pool

variable {P : Platform} {C : Config} {p p' : Pool} {order levels : Nat} {head : Frame}
  {page : Page}

/-- A change to one list is one to the table together with that list. -/
theorem of_withList {a : α}
    {change : FrameTable → FreeList → Except Fault (α × FrameTable × FreeList)}
    (h : p.withList order change = .ok (a, p')) :
    ∃ l l', change p.table l = .ok (a, p'.table, l') := by
  obtain ⟨t, lists, total⟩ := p
  rw [withList] at h
  split at h
  · obtain ⟨⟨a', t', l'⟩, hchange, heq⟩ := bind_eq_ok_iff.1 h
    obtain ⟨rfl, rfl⟩ := Prod.mk.inj (Except.ok.inj heq)
    exact ⟨_, l', hchange⟩
  · cases h

theorem of_link (h : p.link order f = .ok p') :
    ∃ l l', FreeList.push p.table l f = .ok (p'.table, l') := by
  obtain ⟨⟨_, p₁⟩, hwith, rfl⟩ := map_eq_ok_iff.1 h
  obtain ⟨l, l', hchange⟩ := of_withList hwith
  obtain ⟨⟨t', l'⟩, hpush, heq⟩ := map_eq_ok_iff.1 hchange
  obtain rfl : t' = p₁.table := (Prod.mk.inj (Prod.mk.inj heq).2).1
  exact ⟨l, l', hpush⟩

theorem of_unlink (h : p.unlink order f = .ok p') :
    ∃ l l', FreeList.remove p.table l f = .ok (p'.table, l') := by
  obtain ⟨⟨_, p₁⟩, hwith, rfl⟩ := map_eq_ok_iff.1 h
  obtain ⟨l, l', hchange⟩ := of_withList hwith
  obtain ⟨⟨t', l'⟩, hremove, heq⟩ := map_eq_ok_iff.1 hchange
  obtain rfl : t' = p₁.table := (Prod.mk.inj (Prod.mk.inj heq).2).1
  exact ⟨l, l', hremove⟩

theorem length_of_link (h : p.link order f = .ok p') : p'.table.length = p.table.length := by
  obtain ⟨l, l', hpush⟩ := of_link h
  exact FreeList.length_of_push hpush

theorem length_of_unlink (h : p.unlink order f = .ok p') :
    p'.table.length = p.table.length := by
  obtain ⟨l, l', hremove⟩ := of_unlink h
  exact (FreeList.length_of_remove hremove).1

theorem length_of_popFirst {r : Option Frame} (h : p.popFirst order = .ok (r, p')) :
    p'.table.length = p.table.length ∧ ∀ f, r = some f → f < p.table.length := by
  obtain ⟨l, l', hpop⟩ := of_withList h
  exact FreeList.length_of_pop hpop

theorem length_of_write {u : Descriptor → Descriptor} (h : p.write f u = .ok p') :
    p'.table.length = p.table.length := by
  obtain ⟨t', hwrite, rfl⟩ := map_eq_ok_iff.1 h
  exact FrameTable.length_of_write hwrite

theorem length_of_halveDown (h : halveDown P head order levels p = .ok p') :
    p'.table.length = p.table.length := by
  induction levels generalizing p with
  | zero =>
    obtain rfl := Except.ok.inj h
    rfl
  | succ levels ih =>
    obtain ⟨buddy, -, h⟩ := bind_eq_ok_iff.1 h
    obtain ⟨p₁, hset₁, h⟩ := bind_eq_ok_iff.1 h
    obtain ⟨p₂, hset₂, h⟩ := bind_eq_ok_iff.1 h
    obtain ⟨p₃, hlink, h⟩ := bind_eq_ok_iff.1 h
    calc p'.table.length = p₃.table.length := ih h
      _ = p₂.table.length := length_of_link hlink
      _ = p₁.table.length := length_of_write hset₂
      _ = p.table.length := length_of_write hset₁

theorem lt_length_of_describe {d : Descriptor} (h : p.describe page = .ok d) :
    page.frame < p.table.length := by
  rw [describe] at h
  split at h
  · rename_i d' hd
    exact FrameTable.get?_isSome.1 (by rw [hd]; rfl)
  · cases h

theorem length_of_incref (h : p.incref page = .ok p') : p'.table.length = p.table.length := by
  obtain ⟨d, -, h⟩ := bind_eq_ok_iff.1 h
  obtain ⟨_, -, h⟩ := bind_eq_ok_iff.1 h
  obtain ⟨refs, -, h⟩ := bind_eq_ok_iff.1 h
  exact length_of_write h

/-! ### The operations of a pool -/

open Traced

variable {S : Event → Prop}

theorem within_halve (hhalved : ∀ head order, S (.halved head order)) (p : Pool) (head : Frame)
    (order : Nat) :
    (p.halve P head order).Within S fun p' ↦ p'.table.length = p.table.length := by
  refine (within_liftM fun _ _ ↦ trivial).bind fun d _ ↦ ?_
  refine (within_liftM fun _ _ ↦ trivial).bind fun _ _ ↦ ?_
  refine (within_liftM fun _ ↦ length_of_halveDown).bind fun p' hp' ↦ ?_
  exact (within_emit (hhalved head order)).bind fun _ _ ↦ within_pure hp'

/-- **Merging.** The merged block starts no higher than the one that is merged. -/
theorem within_climb (hmerged : ∀ order head buddy, S (.merged order head buddy))
    (levels order : Nat) (head : Frame) (p : Pool) :
    (climb P levels order head p).Within S fun r ↦
      r.1 ≤ head ∧ r.2.2.table.length = p.table.length := by
  have hlink : ∀ order head p, (do
      let p' ← Pool.link p order head
      return (head, order, p') : Traced (Frame × Nat × Pool)).Within S fun r ↦
        r.1 ≤ head ∧ r.2.2.table.length = p.table.length := fun order head p ↦
    (within_liftM fun _ ↦ length_of_link).bind fun p' hp' ↦ within_pure ⟨Nat.le_refl head, hp'⟩
  induction levels generalizing order head p with
  | zero => exact hlink order head p
  | succ levels ih =>
    rw [climb]
    refine (within_liftM fun _ _ ↦ trivial).bind fun buddy _ ↦ ?_
    split
    · refine (within_liftM fun _ ↦ length_of_unlink).bind fun p₁ hp₁ ↦ ?_
      refine (within_emit (hmerged order head buddy)).bind fun _ _ ↦ ?_
      refine (within_liftM fun _ ↦ length_of_write).bind fun p₂ hp₂ ↦ ?_
      refine (ih (order + 1) (min head buddy) p₂).imp fun r ⟨hle, hlength⟩ ↦ ?_
      exact ⟨Nat.le_trans hle (Nat.min_le_left head buddy), hlength.trans (hp₂.trans hp₁)⟩
    · exact hlink order head p

theorem within_merge (hmerged : ∀ order head buddy, S (.merged order head buddy)) (p : Pool)
    (head : Frame) :
    (p.merge P head).Within S fun r ↦ r.1 ≤ head ∧ r.2.2.table.length = p.table.length :=
  (within_liftM fun _ _ ↦ trivial).bind fun d _ ↦ within_climb hmerged _ d.order head p

/-- **Taking** a block finds one in the table. -/
theorem within_take (hhalved : ∀ head order, S (.halved head order)) {order : Nat}
    (hfound : ∀ k head, head < p.table.length → S (.found k head order)) :
    (take P p order).Within S fun r ↦ r.2.table.length = p.table.length := by
  rw [take]
  split
  · exact within_pure rfl
  · rename_i k _
    refine (within_liftM fun r ↦ length_of_popFirst).bind fun r ⟨hlength, hlt⟩ ↦ ?_
    obtain ⟨head | head, p₁⟩ := r
    · exact within_pure hlength
    · refine (within_emit (hfound k head (hlt head rfl))).bind fun _ _ ↦ ?_
      split
      · exact (within_halve hhalved p₁ head order).bind fun p₂ hp₂ ↦
          within_pure (hp₂.trans hlength)
      · exact within_pure hlength

/-- **Giving a block back** reports where it is now. -/
theorem within_free (hmerged : ∀ order head buddy, S (.merged order head buddy))
    (hfreed : ∀ order head, page.frame < p.table.length → head ≤ page.frame →
      S (.freed page.frame order head)) :
    (p.free C page).Within S fun p' ↦ p'.table.length = p.table.length := by
  refine (within_liftM fun _ ↦ lt_length_of_describe).bind fun d hlt ↦ ?_
  refine (within_liftM fun _ _ ↦ trivial).bind fun _ _ ↦ ?_
  refine (within_liftM fun _ _ ↦ trivial).bind fun _ _ ↦ ?_
  refine (within_liftM fun _ _ ↦ trivial).bind fun _ _ ↦ ?_
  refine (within_liftM fun _ ↦ length_of_write).bind fun p₁ hp₁ ↦ ?_
  refine (within_merge hmerged p₁ page.frame).bind fun r ⟨hle, hlength⟩ ↦ ?_
  refine (within_emit (hfreed r.2.1 r.1 hlt hle)).bind fun _ _ ↦ ?_
  exact (within_liftM fun _ _ ↦ trivial).bind fun _ _ ↦ within_pure (hlength.trans hp₁)

/-- A reference that is taken is not reported. -/
theorem within_ref (p : Pool) (page : Page) :
    (p.ref page : Traced (PageRef × Pool)).Within S fun x ↦ x.2.table.length = p.table.length := by
  refine within_liftM fun x hx ↦ ?_
  obtain ⟨p', hincref, rfl⟩ := map_eq_ok_iff.1 hx
  exact length_of_incref hincref

theorem within_decref (hmerged : ∀ order head buddy, S (.merged order head buddy))
    (hfreed : ∀ order head, page.frame < p.table.length → head ≤ page.frame →
      S (.freed page.frame order head)) :
    (p.decref C page).Within S fun p' ↦ p'.table.length = p.table.length := by
  refine (within_liftM fun _ _ ↦ trivial).bind fun d _ ↦ ?_
  refine (within_liftM fun _ _ ↦ trivial).bind fun _ _ ↦ ?_
  refine (within_liftM fun _ _ ↦ trivial).bind fun refs _ ↦ ?_
  refine (within_liftM fun _ ↦ length_of_write).bind fun p₁ hp₁ ↦ ?_
  split
  · rw [← hp₁] at hfreed ⊢
    exact within_free hmerged hfreed
  · exact within_pure hp₁

/-- **Handing over** a block reports merges only. -/
theorem within_releaseBlock (hmerged : ∀ order head buddy, S (.merged order head buddy))
    (p : Pool) (head order : Nat) :
    (p.releaseBlock P head order).Within S fun p' ↦ p'.table.length = p.table.length := by
  refine (within_liftM fun _ _ ↦ trivial).bind fun _ _ ↦ ?_
  refine (within_liftM fun _ _ ↦ trivial).bind fun d _ ↦ ?_
  refine (within_liftM fun _ _ ↦ trivial).bind fun _ _ ↦ ?_
  refine (within_liftM fun _ _ ↦ trivial).bind fun _ _ ↦ ?_
  refine (within_liftM fun _ ↦ length_of_write).bind fun p₁ hp₁ ↦ ?_
  exact (within_merge hmerged p₁ head).bind fun r hr ↦ within_pure (hr.2.trans hp₁)

theorem within_releaseBlocks (hmerged : ∀ order head buddy, S (.merged order head buddy))
    (blocks : List (Frame × Nat)) (p : Pool) :
    (releaseBlocks P blocks p).Within S fun p' ↦ p'.table.length = p.table.length := by
  induction blocks generalizing p with
  | nil => exact within_pure rfl
  | cons b blocks ih =>
    exact (within_releaseBlock hmerged p b.1 b.2).bind fun p₁ hp₁ ↦
      (ih p₁).imp fun p₂ hp₂ ↦ hp₂.trans hp₁

theorem within_releaseRange (hmerged : ∀ order head buddy, S (.merged order head buddy))
    (p : Pool) (first count : Nat) :
    (p.releaseRange C first count).Within S fun p' ↦ p'.table.length = p.table.length := by
  refine (within_liftM fun _ _ ↦ trivial).bind fun last _ ↦ ?_
  refine (within_liftM fun _ _ ↦ trivial).bind fun _ _ ↦ ?_
  refine (within_releaseBlocks hmerged _ p).bind fun p₁ hp₁ ↦ ?_
  exact (within_liftM fun _ _ ↦ trivial).bind fun _ _ ↦ within_pure hp₁

theorem within_releaseRanges (hmerged : ∀ order head buddy, S (.merged order head buddy))
    (ranges : List (Frame × Nat)) (p : Pool) :
    (releaseRanges C ranges p).Within S fun p' ↦ p'.table.length = p.table.length := by
  induction ranges generalizing p with
  | nil => exact within_pure rfl
  | cons range ranges ih =>
    exact (within_releaseRange hmerged p range.1 range.2).bind fun p₁ hp₁ ↦
      (ih p₁).imp fun p₂ hp₂ ↦ hp₂.trans hp₁

end Pool

/-! ### Booting -/

/-- **Building a table** reports how many frames it has. -/
theorem FrameTable.within_ofBootMap {P : Platform} {S : Event → Prop} {map : List Region}
    (hbuilding : ∀ n, frameCount P map = .ok n → S (.building n)) :
    (FrameTable.ofBootMap P map).Within S fun t ↦ frameCount P map = .ok t.length := by
  refine (Traced.within_liftM fun _ h ↦ h).bind fun n hn ↦ ?_
  refine (Traced.within_emit (hbuilding n hn)).bind fun _ _ ↦ ?_
  refine (Traced.within_liftM fun _ _ ↦ trivial).bind fun _ _ ↦ ?_
  refine (Traced.within_liftM fun _ _ ↦ trivial).bind fun spans _ ↦ Traced.within_pure ?_
  rw [hn, FrameTable.length, Array.size_ofFn]

/-- **Booting** reports how many frames there are, the merges, and how many frames are free. -/
theorem Pool.within_ofBootMap {C : Config} {S : Event → Prop} {map : List Region}
    (hmerged : ∀ order head buddy, S (.merged order head buddy))
    (hbuilding : ∀ n, FrameTable.frameCount C.platform map = .ok n → S (.building n))
    (hready : ∀ t p, (FrameTable.ofBootMap C.platform map).result = .ok t →
      (releaseRanges C t.usableRuns (ofTable t)).result = .ok p →
      S (.ready p.table.length p.freePages)) :
    (Pool.ofBootMap C map).Within S fun p ↦
      FrameTable.frameCount C.platform map = .ok p.table.length := by
  refine (FrameTable.within_ofBootMap hbuilding).and_result.bind fun t ⟨hcount, ht⟩ ↦ ?_
  refine (within_releaseRanges hmerged t.usableRuns (ofTable t)).and_result.bind
    fun p ⟨hlength, hp⟩ ↦ ?_
  exact (Traced.within_emit (hready t p ht hp)).bind fun _ _ ↦
    Traced.within_pure (hlength ▸ hcount)

/-! ### The operations of a machine -/

namespace Machine

open Traced

variable {C : Config} {S : Event → Prop} {m : Machine}

theorem within_onPool {change : Pool → Traced Pool}
    (h : (change m.pool).Within S fun p ↦ p.table.length = m.pool.table.length) :
    (m.onPool change).Within S fun m' ↦ m'.pool.table.length = m.pool.table.length :=
  h.bind fun _ hp ↦ within_pure hp

/-- **Handing out a block** reports that one was found, or that there is none. -/
theorem within_allocOrder (hhalved : ∀ head order, S (.halved head order)) {order : Nat}
    (hfound : ∀ k head, head < m.pool.table.length → S (.found k head order))
    (hexhausted : order < orderCount → S (.exhausted order)) (flags : AllocFlags) :
    (m.allocOrder C order flags).Within S fun r ↦
      r.2.pool.table.length = m.pool.table.length := by
  rw [allocOrder]
  split
  · rename_i ho
    refine (Pool.within_take hhalved hfound).bind fun r hr ↦ ?_
    obtain ⟨head | head, p⟩ := r
    · exact (within_emit (hexhausted ho)).bind fun _ _ ↦ within_pure hr
    · refine (within_liftM fun _ ↦ Pool.length_of_write).bind fun p₁ hp₁ ↦ ?_
      refine (within_liftM fun _ _ ↦ trivial).bind fun direct _ ↦ ?_
      exact (within_liftM fun _ _ ↦ trivial).bind fun _ _ ↦ within_pure (hp₁.trans hr)
  · exact within_pure rfl

/-- **Draining** reports what its requests report. -/
theorem within_drain (hhalved : ∀ head order, S (.halved head order)) {order : Nat}
    (hfound : ∀ k head, head < m.pool.table.length → S (.found k head order))
    (hexhausted : order < orderCount → S (.exhausted order)) (limit : Nat) :
    (m.drain C order limit).Within S fun r ↦
      r.2.2.pool.table.length = m.pool.table.length := by
  induction limit generalizing m with
  | zero => exact within_pure rfl
  | succ limit ih =>
    refine (within_allocOrder hhalved hfound hexhausted {}).bind fun x hx ↦ ?_
    obtain ⟨e | page, m₁⟩ := x
    · exact within_pure hx
    · have hrest := ih (m := m₁) fun k head hlt ↦ hfound k head (hx ▸ hlt)
      exact hrest.bind fun r hr ↦ within_pure (hr.trans hx)

end Machine

end FramePool
