import FramePool.Proofs.Exclusivity
import FramePool.Proofs.References

/-!
# Handles: references that cannot be given back twice

A handle stands for one reference, and it is a plain value: a machine cannot tell a handle that is
still held from one that was given back. That is up to the caller. A caller is entitled to give a
reference back with a handle that it holds, and may ask for anything else but to give back one
without a handle (`Request.Entitled`). The handles that it holds are known from the requests and the
answers (`Log.live`).

This is all that a caller has to see to. `State.Handled` says that each handle names the head of an
outstanding block, and that the counter of each outstanding block is the number of handles to it
and of the references that were taken without one. A step keeps it (`State.Handled.of_step`),
because a block goes only when its counter is zero (`State.Sound.exists_mem_of_step`), and because a
block that is handed out has a head to which no handle is left. So **a handle keeps its block**
(`Run.handles_safe`).
-/

namespace FramePool

variable {C : Config} {P : Platform} {t : FrameTable} {s s' : State} {r : Request} {a : Answer}
  {k l : Loan} {x : PageRef} {held : List PageRef} {log before : List (Request × Answer)}
  {f : Frame}

/-! ### Who holds which handles -/

namespace Request

/-- What a caller may ask for that holds some handles: a reference is only given back with one of
them. -/
def Entitled (held : List PageRef) : Request → Prop
  | decref _ => False
  | unref x => x ∈ held
  | _ => True

instance (held : List PageRef) (r : Request) : Decidable (r.Entitled held) :=
  match r with
  | decref _ => inferInstanceAs (Decidable False)
  | unref x => inferInstanceAs (Decidable (x ∈ held))
  | release .. | allocOrder .. | allocPage _ | allocRef _ | free _ | incref _ | ref _ | install _ =>
    inferInstanceAs (Decidable True)

/-- The handles that the caller holds after an answer. -/
def hold : Request → Answer → List PageRef → List PageRef
  | allocRef _, .handle x, held => x :: held
  | ref _, .handle x, held => x :: held
  | unref x, _, held => held.erase x
  | _, _, held => held

/-- How many references to the block at a frame are taken without a handle. -/
def loose (f : Frame) : Request → Nat
  | incref page => if page.frame = f then 1 else 0
  | _ => 0

/-- A handle that is not held any more was given back. -/
theorem eq_unref_of_not_mem_hold (hx : x ∈ held) (h : x ∉ r.hold a held) : r = .unref x := by
  rw [hold.eq_def] at h
  split at h
  · exact absurd (List.mem_cons_of_mem _ hx) h
  · exact absurd (List.mem_cons_of_mem _ hx) h
  · rename_i y _ _
    by_contra hne
    exact h ((List.mem_erase_of_ne fun heq ↦ hne (congrArg unref heq.symm)).2 hx)
  · exact absurd hx h

/-- A handle that is held was held before, or it came with the answer. -/
theorem mem_of_mem_hold (h : x ∈ r.hold a held) :
    x ∈ held ∨ (∃ flags, r = .allocRef flags ∧ a = .handle x) ∨
      ∃ page, r = .ref page ∧ a = .handle x := by
  rw [hold.eq_def] at h
  split at h
  · rcases List.mem_cons.1 h with rfl | h
    · exact Or.inr (Or.inl ⟨_, rfl, rfl⟩)
    · exact Or.inl h
  · rcases List.mem_cons.1 h with rfl | h
    · exact Or.inr (Or.inr ⟨_, rfl, rfl⟩)
    · exact Or.inl h
  · exact Or.inl (List.mem_of_mem_erase h)
  · exact Or.inl h

theorem count_cons_handle (x : PageRef) (held : List PageRef) (f : Frame) :
    (x :: held).count ⟨⟨f⟩⟩ = held.count ⟨⟨f⟩⟩ + if x.page.frame = f then 1 else 0 := by
  obtain ⟨⟨g⟩⟩ := x
  simp [List.count_cons]

/-- A block is handed out without loose references. -/
theorem loose_of_lent {b : Extent} (h : r.lent P a = some b) (f : Frame) : r.loose f = 0 := by
  cases r with
  | incref page => cases h
  | _ => rfl

/-- **Each reference has a handle** or is loose: what is taken and given back with an answer is
taken and given back with handles, but for the loose references. -/
theorem count_hold (hr : r.Entitled held) (href : ∀ page, r = .ref page → a = .handle ⟨page⟩)
    (f : Frame) :
    (r.hold a held).count ⟨⟨f⟩⟩ + r.returned f + r.loose f =
      held.count ⟨⟨f⟩⟩ + r.taken f a := by
  cases r with
  | decref page => exact hr.elim
  | unref x =>
    have hx : x ∈ held := hr
    have hperm := (List.perm_cons_erase hx).count_eq ⟨⟨f⟩⟩
    rw [count_cons_handle] at hperm
    exact hperm.symm
  | allocRef flags =>
    cases a with
    | handle x => exact count_cons_handle x held f
    | _ => rfl
  | ref page =>
    obtain rfl := href page rfl
    exact count_cons_handle ⟨page⟩ held f
  | incref page => rfl
  | _ => cases a <;> rfl

end Request

namespace Log

/-- The handles that are held after a log, by a caller that held some before. -/
def live (held : List PageRef) (log : List (Request × Answer)) : List PageRef :=
  log.foldl (fun held entry ↦ entry.1.hold entry.2 held) held

/-- Whatever a caller asked for, it was entitled to. -/
def Entitled (held : List PageRef) : List (Request × Answer) → Prop
  | [] => True
  | (r, a) :: log => r.Entitled held ∧ Entitled (r.hold a held) log

instance decidableEntitled : (held : List PageRef) → (log : List (Request × Answer)) →
    Decidable (Entitled held log)
  | _, [] => inferInstanceAs (Decidable True)
  | held, (r, a) :: log =>
    haveI := decidableEntitled (r.hold a held) log
    inferInstanceAs (Decidable (r.Entitled held ∧ Entitled (r.hold a held) log))

/-- How many references to the block at a frame were taken without a handle. -/
def loose (f : Frame) (log : List (Request × Answer)) : Nat :=
  (log.map fun entry ↦ entry.1.loose f).sum

theorem loose_append_singleton (f : Frame) (log : List (Request × Answer)) (r : Request)
    (a : Answer) : loose f (log ++ [(r, a)]) = loose f log + r.loose f := by
  rw [loose, List.map_append, List.sum_append_nat]
  rfl

end Log

/-! ### A block with references stays outstanding -/

namespace State

/-- A reference is answered with a handle to the page that was asked for, which heads an
outstanding block. -/
theorem Sound.of_ref (hs : s.Sound C.platform t) {page : Page}
    (h : (step C s (.ref page)).result = .ok (a, s')) :
    a = .handle ⟨page⟩ ∧ ∃ l ∈ s.ledger, l.head = page.frame := by
  obtain ⟨m', hrun, -⟩ := step_eq_ok_iff.1 h
  obtain ⟨x, href, rfl⟩ := Request.of_answered hrun
  obtain ⟨rfl, p, hincref, -⟩ := Machine.ref_eq_ok_iff.1 href
  obtain ⟨l, hl, hhead, -⟩ := Pool.Sound.of_incref_eq_ok hs hincref
  exact ⟨rfl, l, hl, hhead⟩

/-- **A block with references stays outstanding**: an answer that leaves some of them leaves the
block in the ledger. -/
theorem Sound.exists_mem_of_step (hs : s.Sound C.platform t)
    (h : (step C s r).result = .ok (a, s')) (hk : k ∈ s.ledger)
    (hrefs : r.returned k.head < k.refs + r.taken k.head a) :
    ∃ l ∈ s'.ledger, l.toExtent = k.toExtent := by
  have hsound : Pool.Sound C.platform t s.machine.pool s.machine.pool.layout s.ledger := hs
  obtain ⟨m', hrun, rfl⟩ := step_eq_ok_iff.1 h
  cases r with
  | allocOrder order flags => cases a <;> exact ⟨k, by simp [Request.record, hk], rfl⟩
  | allocPage flags => cases a <;> exact ⟨k, by simp [Request.record, hk], rfl⟩
  | allocRef flags => cases a <;> exact ⟨k, by simp [Request.record, hk], rfl⟩
  | free page =>
    obtain ⟨p, hfree, -, -⟩ := Machine.of_done_onPool hrun
    obtain ⟨l, hl, hhead, hzero⟩ := hsound.of_free_eq_ok hfree
    refine ⟨k, Loan.mem_settle.2 ⟨hk, fun heq ↦ ?_⟩, rfl⟩
    obtain rfl := Loan.eq_of_head hsound.tiling_lent hl hk (heq.trans hhead.symm)
    exact absurd hrefs (by simp [hzero, Request.taken])
  | incref page => exact Loan.exists_mem_recount hk _ _
  | ref page => exact Loan.exists_mem_recount hk _ _
  | decref page => exact Loan.exists_mem_drop hk hrefs
  | unref x => exact Loan.exists_mem_drop hk hrefs
  | _ => exact ⟨k, hk, rfl⟩

end State

/-! ### Handles along a run -/

/-- Each handle names the head of an outstanding block, and the counter of each outstanding block is
the number of handles to it and of the loose references that were taken since it was handed out. -/
structure State.Handled (P : Platform) (held : List PageRef) (log : List (Request × Answer))
    (s : State) : Prop where
  /-- A handle names the head of an outstanding block. -/
  lent : ∀ x ∈ held, ∃ l ∈ s.ledger, l.head = x.page.frame
  /-- The references to an outstanding block. -/
  refs : ∀ l ∈ s.ledger, ∃ since, Log.Since P l.toExtent log since ∧
    l.refs = held.count ⟨⟨l.head⟩⟩ + Log.loose l.head since

namespace State

/-- **The references of a block after an answer** are those to which there are handles then and the
loose ones. -/
theorem Sound.count_hold_of_step (hs : s.Sound C.platform t) (hr : r.Entitled held)
    (h : (step C s r).result = .ok (a, s')) (f : Frame) :
    (r.hold a held).count ⟨⟨f⟩⟩ + r.returned f + r.loose f = held.count ⟨⟨f⟩⟩ + r.taken f a :=
  Request.count_hold hr (fun _ heq ↦ (hs.of_ref (heq ▸ h)).1) f

/-- A block to which there is a handle after an answer stays outstanding with it. -/
theorem Handled.exists_mem_of_step (hh : s.Handled C.platform held log)
    (hs : s.Sound C.platform t) (hr : r.Entitled held) (h : (step C s r).result = .ok (a, s'))
    (hk : k ∈ s.ledger) (hx : x ∈ r.hold a held) (hhead : k.head = x.page.frame) :
    ∃ l ∈ s'.ledger, l.toExtent = k.toExtent := by
  obtain ⟨since, -, hrefs⟩ := hh.refs k hk
  have hcount := hs.count_hold_of_step hr h k.head
  have hpos : 0 < (r.hold a held).count ⟨⟨k.head⟩⟩ := List.count_pos_iff.2 (hhead ▸ hx)
  exact hs.exists_mem_of_step h hk (by omega)

/-- **A step keeps the handles.** -/
theorem Handled.of_step (hh : s.Handled C.platform held log) (hs : s.Sound C.platform t)
    (hs' : s'.Sound C.platform t) (hr : r.Entitled held)
    (h : (step C s r).result = .ok (a, s')) :
    s'.Handled C.platform (r.hold a held) (log ++ [(r, a)]) where
  lent x hx := by
    rcases Request.mem_of_mem_hold hx with hx' | ⟨flags, rfl, rfl⟩ | ⟨page, rfl, rfl⟩
    · obtain ⟨k, hk, hhead⟩ := hh.lent x hx'
      obtain ⟨l, hl, hext⟩ := hh.exists_mem_of_step hs hr h hk hx hhead
      exact ⟨l, hl, (congrArg Extent.head hext).trans hhead⟩
    · obtain ⟨m', -, rfl⟩ := step_eq_ok_iff.1 h
      exact ⟨_, List.mem_cons_self, rfl⟩
    · obtain ⟨heq, k, hk, hhead⟩ := hs.of_ref h
      obtain rfl := Answer.handle.inj heq
      obtain ⟨l, hl, hext⟩ := hh.exists_mem_of_step hs hr h hk hx hhead
      exact ⟨l, hl, (congrArg Extent.head hext).trans hhead⟩
  refs l hl := by
    have hcount := hs.count_hold_of_step hr h l.head
    rcases hs'.mem_of_step h hl with ⟨k, hk, hext, hrefs, hlast⟩ | ⟨hlent, hrefs, hnew⟩
    · obtain ⟨since, hsince, hkrefs⟩ := hh.refs k hk
      rw [hext] at hsince hkrefs
      refine ⟨since ++ [(r, a)], hsince.append hlast, ?_⟩
      rw [Log.loose_append_singleton]
      omega
    · -- No handle is left to a frame that heads no outstanding block.
      have hnone : held.count ⟨⟨l.head⟩⟩ = 0 := List.count_eq_zero.2 fun hx ↦ by
        obtain ⟨k, hk, hhead⟩ := hh.lent _ hx
        exact hnew k hk hhead
      rw [hnone, (Request.counts_of_lent hlent l.head).1, Request.loose_of_lent hlent] at hcount
      refine ⟨[(r, a)], Log.since_singleton hlent, ?_⟩
      show l.refs = (r.hold a held).count ⟨⟨l.head⟩⟩ + r.loose l.head
      rw [Request.loose_of_lent hlent]
      omega

end State

/-- **A run keeps the handles**, by induction on the requests. -/
theorem Run.handled (h : Run C s log s') (hs : s.Sound C.platform t)
    (hh : s.Handled C.platform held before) (hlog : Log.Entitled held log) :
    s'.Handled C.platform (Log.live held log) (before ++ log) := by
  induction h generalizing held before with
  | nil s => rwa [List.append_nil]
  | cons hadmissible hstep _ ih =>
    obtain ⟨hr, hlog⟩ := hlog
    have hs' := hs.of_step hadmissible hstep
    rw [← List.singleton_append, ← List.append_assoc]
    exact ih hs' (hh.of_step hs hs' hr hstep) hlog

/-! ### A handle keeps its block -/

/-- **A handle keeps its block.** Take a run from a fresh table in which the caller was entitled to
all that it asked for. Each handle that it holds then names the head of an outstanding block. The
counter of the block is the number of handles to it and of loose references that were taken since it
was handed out, and its frames are in no free block and in no other outstanding one. The reference
can be given back. While no loose reference was taken, whatever the caller asks for next and is
answered leaves the frames of the block free exactly when no handle to it is held any more. -/
theorem Run.handles_safe (ht : t.Initial C.platform) {direct : Option DirectMap}
    (h : Run C (State.start t direct) log s) (hlog : Log.Entitled [] log) :
    ∀ x ∈ Log.live [] log, ∃ l ∈ s.ledger, ∃ since, Log.Since C.platform l.toExtent log since ∧
      l.head = x.page.frame ∧
      (∃ d, s.machine.pool.describe x.page = .ok d ∧
        d.refs = (Log.live [] log).count x + Log.loose x.page.frame since) ∧
      (∀ f ∈ l.toExtent, ¬s.Free f ∧ ∀ b ∈ s.outstanding, f ∈ b → b = l.toExtent) ∧
      (∃ s', (step C s (.unref x)).result = .ok (.done, s')) ∧
      (Log.loose x.page.frame since = 0 → ∀ r a s', r.Admissible s →
        r.Entitled (Log.live [] log) → (step C s r).result = .ok (a, s') →
          ∀ f ∈ l.toExtent, s'.Free f ↔ x ∉ r.hold a (Log.live [] log)) := by
  have hs : s.Sound C.platform t := h.sound (State.sound_start C.platform direct ht.fresh)
  have hsound : Pool.Sound C.platform t s.machine.pool s.machine.pool.layout s.ledger := hs
  have hnone : (State.start t direct).Handled C.platform [] [] :=
    ⟨fun x hx ↦ absurd hx List.not_mem_nil, fun l hl ↦ absurd hl List.not_mem_nil⟩
  have hh : s.Handled C.platform (Log.live [] log) log :=
    h.handled (State.sound_start C.platform direct ht.fresh) hnone hlog
  rintro ⟨⟨g⟩⟩ hx
  obtain ⟨l, hl, rfl⟩ : ∃ l ∈ s.ledger, l.head = g := hh.lent _ hx
  obtain ⟨since, hsince, hrefs⟩ := hh.refs l hl
  have hpos : 0 < (Log.live [] log).count ⟨⟨l.head⟩⟩ := List.count_pos_iff.2 hx
  refine ⟨l, hl, since, hsince, rfl, ?_, fun f hf ↦ hs.exclusive hl hf, ?_, ?_⟩
  · obtain ⟨d, hd, -, -, hdrefs⟩ := hs.books.lent l hl
    exact ⟨d, Pool.describe_eq_ok_iff.2 hd, hdrefs.trans hrefs⟩
  · obtain ⟨p, hp⟩ := (hsound.exists_decref_iff ⟨l.head⟩).2 ⟨l, hl, rfl, by omega⟩
    exact ⟨_, step_eq_ok_iff.2 ⟨_, Machine.done_onPool hp, rfl⟩⟩
  · intro hloose r a s' hadmissible hr hstep f hf
    have hs' := hs.of_step hadmissible hstep
    constructor
    · intro hfree hx'
      obtain ⟨l', hl', hext⟩ := hh.exists_mem_of_step hs hr hstep hl hx' rfl
      exact (hs'.exclusive hl' (hext ▸ hf)).1 hfree
    · intro hx'
      obtain rfl := Request.eq_unref_of_not_mem_hold hx hx'
      -- The handle was the only one, and there are no loose references.
      have hlast : (Log.live [] log).count ⟨⟨l.head⟩⟩ - 1 = 0 := by
        rw [← List.count_erase_self]
        exact List.count_eq_zero.2 hx'
      have hone : l.refs = 1 := by
        have : Log.loose l.head since = 0 := hloose
        omega
      obtain ⟨m', hrun, rfl⟩ := step_eq_ok_iff.1 hstep
      obtain ⟨p, hdecref, -, rfl⟩ := Machine.of_done_onPool hrun
      exact (hsound.covered_iff_of_decref hl hdecref f).2 (Or.inl ⟨hone, hf⟩)

/-- A page with two handles and a loose reference, and one that was given back in between and handed
out again with a handle. When that handle is given back, the page is free. -/
theorem Run.handles_safe_replayed :
    ∃ log s s', Run ⟨.scaled, true⟩ (State.start (.ofCount 4) none) log s ∧
      Log.live [] log = [⟨⟨1⟩⟩, ⟨⟨0⟩⟩, ⟨⟨0⟩⟩] ∧
      (∃ d, s.machine.pool.describe ⟨1⟩ = .ok d ∧ d.refs = 1) ∧
      (step ⟨.scaled, true⟩ s (.unref ⟨⟨1⟩⟩)).result = .ok (.done, s') ∧ s'.Free 1 := by
  let log : List (Request × Answer) :=
    [(.release 0 4, .done), (.allocRef {}, .handle ⟨⟨0⟩⟩), (.allocPage {}, .page ⟨1⟩),
      (.ref ⟨0⟩, .handle ⟨⟨0⟩⟩), (.incref ⟨0⟩, .done), (.ref ⟨1⟩, .handle ⟨⟨1⟩⟩),
      (.unref ⟨⟨1⟩⟩, .done), (.allocRef {}, .handle ⟨⟨1⟩⟩)]
  obtain ⟨s, hreplay⟩ : ∃ s, replay ⟨.scaled, true⟩ (State.start (.ofCount 4) none)
      (log.map (·.1)) = some s := Option.isSome_iff_exists.1 (by decide +kernel)
  have hlog : transcript ⟨.scaled, true⟩ (State.start (.ofCount 4) none) (log.map (·.1)) = log := by
    decide +kernel
  have hrun := (run_of_replay hreplay).2
  rw [hlog] at hrun
  obtain ⟨l, -, since, hsince, hhead, ⟨d, hd, hrefs⟩, -, ⟨s', hs'⟩, hlast⟩ :=
    Run.handles_safe (.ofCount 4) hrun (by decide) ⟨⟨1⟩⟩ (by decide)
  have hloose : Log.loose 1 since = 0 :=
    (by decide : ∀ since ∈ log.tails, Log.loose 1 since = 0) since
      ((List.mem_tails _ _).2 hsince.suffix)
  have hmem : 1 ∈ l.toExtent := (show l.head = 1 from hhead) ▸ l.head_mem
  refine ⟨log, s, s', hrun, by decide, ⟨d, hd, ?_⟩, hs', ?_⟩
  · rw [hrefs, hloose]
    decide
  · exact (hlast hloose (.unref ⟨⟨1⟩⟩) .done s' (Request.admissible_of_nil rfl) (by decide)
      hs' 1 hmem).2 (by decide)

end FramePool
