import FramePool.Proofs.BootMap
import FramePool.Proofs.Lending
import FramePool.Proofs.Release

/-!
# Runs of a machine

A run is a sequence of requests, each of them answered without a fault. Alongside the machine it
keeps a ledger of the blocks that are outstanding, which is written from requests and answers alone
(`Request.record`). A request is admissible when the frames that it hands over are in no free block
and in no outstanding one (`Request.Admissible`); that is the only thing asked of a caller.

`State.Sound` says that the invariant of the pool holds with that ledger. A fresh machine is sound
(`State.sound_start`), a step keeps a state sound (`State.Sound.of_step`), and so **every reachable
state is sound** (`Reachable.sound`). A step also covers just the frames that it is handed besides
those that blocks covered before (`Pool.Sound.run`).
-/

namespace FramePool

/-- What a machine can be asked for. -/
inductive Request where
  /-- Hands over `count` frames from `first` on. -/
  | release (first : Frame) (count : Nat)
  /-- Asks for a block of an order. -/
  | allocOrder (order : Nat) (flags : AllocFlags)
  /-- Asks for a page, or for a huge page. -/
  | allocPage (flags : AllocFlags)
  /-- Asks for a page with one reference to it. -/
  | allocRef (flags : AllocFlags)
  /-- Gives a block back. -/
  | free (page : Page)
  /-- Counts one more reference. -/
  | incref (page : Page)
  /-- Counts one reference less. -/
  | decref (page : Page)
  /-- Takes a reference. -/
  | ref (page : Page)
  /-- Gives a reference back. -/
  | unref (r : PageRef)
  /-- Installs the direct map. -/
  | install (direct : DirectMap)
deriving DecidableEq

/-- What a machine answers. -/
inductive Answer where
  /-- It was done. -/
  | done
  /-- A block that was handed out. -/
  | page (page : Page)
  /-- A reference. -/
  | handle (r : PageRef)
  /-- There is no block to hand out. -/
  | refused (e : AllocError)
deriving DecidableEq, Repr

/-- A machine, and the blocks that it handed out and did not get back. -/
structure State where
  /-- The machine. -/
  machine : Machine
  /-- The outstanding blocks, with the references to them. -/
  ledger : List Loan
deriving DecidableEq

namespace Answer

/-- The answer to a request for a page. -/
def ofPage : Except AllocError Page → Answer
  | .ok q => .page q
  | .error e => .refused e

/-- The answer to a request for a page with a reference. -/
def ofRef : Except AllocError PageRef → Answer
  | .ok r => .handle r
  | .error e => .refused e

end Answer

namespace Request

/-- Puts the request to a machine. -/
def run (C : Config) (m : Machine) : Request → Traced (Answer × Machine)
  | release first count => (.done, ·) <$> m.releaseRange C first count
  | allocOrder order flags => (fun (r, m) ↦ (.ofPage r, m)) <$> m.allocOrder C order flags
  | allocPage flags => (fun (r, m) ↦ (.ofPage r, m)) <$> m.allocPage C flags
  | allocRef flags => (fun (r, m) ↦ (.ofRef r, m)) <$> m.allocRef C flags
  | free page => (.done, ·) <$> m.free C page
  | incref page => (.done, ·) <$> m.incref page
  | decref page => (.done, ·) <$> m.decref C page
  | ref page => (fun (r, m) ↦ (.handle r, m)) <$> m.ref page
  | unref r => (.done, ·) <$> m.unref C r
  | install direct => (.done, ·) <$> (m.install direct : Except Fault Machine)

/-- The ledger after an answer to the request. A block is outstanding from the answer that hands it
out until it is given back or the last reference to it is. -/
def record (P : Platform) : Request → Answer → List Loan → List Loan
  | allocOrder order _, .page page, ledger => ⟨⟨page.frame, order⟩, 0⟩ :: ledger
  | allocPage flags, .page page, ledger => ⟨⟨page.frame, flags.order P⟩, 0⟩ :: ledger
  | allocRef flags, .handle r, ledger => ⟨⟨r.page.frame, flags.order P⟩, 1⟩ :: ledger
  | free page, _, ledger => Loan.settle page.frame ledger
  | incref page, _, ledger => Loan.recount page.frame (· + 1) ledger
  | decref page, _, ledger => Loan.drop page.frame ledger
  | ref page, _, ledger => Loan.recount page.frame (· + 1) ledger
  | unref r, _, ledger => Loan.drop r.page.frame ledger
  | _, _, ledger => ledger

/-- The frames that the request hands over. -/
def handedOver : Request → List Nat
  | release first count => List.range' first count
  | _ => []

end Request

namespace State

/-- A machine over a table with nothing handed over yet. -/
def start (t : FrameTable) (direct : Option DirectMap) : State := ⟨⟨Pool.ofTable t, direct⟩, []⟩

/-- The blocks on the free lists. -/
def freeBlocks (s : State) : List Extent := s.machine.pool.layout.extents

/-- The blocks that were handed out and not given back. -/
def outstanding (s : State) : List Extent := Loan.extents s.ledger

/-- The frame is in a free block. -/
def Free (s : State) (f : Nat) : Prop := ∃ b ∈ s.freeBlocks, f ∈ b

end State

/-- The frames that are handed over are in no free block and in no outstanding one. -/
def Request.Admissible (s : State) (r : Request) : Prop :=
  ∀ f ∈ r.handedOver, ∀ b ∈ s.freeBlocks ++ s.outstanding, f ∉ b

instance (s : State) (r : Request) : Decidable (r.Admissible s) :=
  inferInstanceAs (Decidable (∀ f ∈ r.handedOver, ∀ b ∈ s.freeBlocks ++ s.outstanding, f ∉ b))

/-- Puts a request to the machine and writes the ledger. -/
def step (C : Config) (s : State) (r : Request) : Traced (Answer × State) :=
  (fun (a, m) ↦ (a, ⟨m, r.record C.platform a s.ledger⟩)) <$> r.run C s.machine

/-- **Runs**: admissible requests, each of them answered without a fault. -/
inductive Run (C : Config) : State → List (Request × Answer) → State → Prop
  | nil (s : State) : Run C s [] s
  | cons {s s' s'' : State} {r : Request} {a : Answer} {log : List (Request × Answer)} :
    r.Admissible s → (step C s r).result = .ok (a, s') → Run C s' log s'' →
      Run C s ((r, a) :: log) s''

/-- The tables that a pool is built over: any number of usable frames, be it too many for memory or
not, or what a boot map describes. -/
inductive FrameTable.Initial (P : Platform) : FrameTable → Prop
  | ofCount (count : Nat) : Initial P (ofCount count)
  | ofBootMap {map : List Region} {t : FrameTable} : (ofBootMap P map).result = .ok t → Initial P t

/-- **The reachable states** of a machine that was built over a table. -/
def Reachable (C : Config) (t : FrameTable) (s : State) : Prop :=
  t.Initial C.platform ∧ ∃ direct log, Run C (State.start t direct) log s

/-! ### Replaying requests -/

/-- The state after some requests, if each of them is admissible and answered. -/
def replay (C : Config) : State → List Request → Option State
  | s, [] => some s
  | s, r :: rs =>
    if r.Admissible s then
      match (step C s r).result with
      | .ok (_, s') => replay C s' rs
      | .error _ => none
    else
      none

/-- The requests of a replay with their answers. -/
def transcript (C : Config) : State → List Request → List (Request × Answer)
  | _, [] => []
  | s, r :: rs =>
    match (step C s r).result with
    | .ok (a, s') => (r, a) :: transcript C s' rs
    | .error _ => []

/-- A replay is a run with the requests that are replayed. -/
theorem run_of_replay {C : Config} {s s' : State} {rs : List Request}
    (h : replay C s rs = some s') :
    (transcript C s rs).map (·.1) = rs ∧ Run C s (transcript C s rs) s' := by
  induction rs generalizing s with
  | nil =>
    obtain rfl : s = s' := Option.some.inj h
    exact ⟨rfl, .nil s⟩
  | cons r rs ih =>
    rw [replay] at h
    rw [transcript]
    split at h
    · rename_i hadmissible
      split at h
      · rename_i a s₁ hstep
        obtain ⟨hlog, hrun⟩ := ih h
        exact ⟨congrArg (r :: ·) hlog, .cons hadmissible hstep hrun⟩
      · cases h
    · cases h

theorem exists_run_of_replay {C : Config} {s s' : State} {rs : List Request}
    (h : replay C s rs = some s') : ∃ log, log.map (·.1) = rs ∧ Run C s log s' :=
  ⟨transcript C s rs, run_of_replay h⟩

/-! ### Initial tables -/

/-- A fresh table is all that is ever built. -/
theorem FrameTable.Initial.fresh {P : Platform} {t : FrameTable} (h : t.Initial P) : t.Fresh := by
  cases h with
  | ofCount count =>
    intro f d hd
    obtain ⟨-, rfl⟩ := Array.getElem?_eq_some_iff.1 hd
    simp [FrameTable.ofCount]
  | ofBootMap h =>
    obtain ⟨-, -, rfl⟩ := FrameTable.ofBootMap_eq_ok_iff.1 h
    intro f d hd
    rw [FrameTable.get?_described] at hd
    split at hd
    · obtain rfl := Option.some.inj hd
      rfl
    · cases hd

/-! ### A step keeps a state sound -/

/-- The invariant of the pool holds with the ledger. -/
def State.Sound (P : Platform) (t : FrameTable) (s : State) : Prop :=
  Pool.Sound P t s.machine.pool s.machine.pool.layout s.ledger

section Step

variable {C : Config} {P : Platform} {t : FrameTable} {s s' : State} {m m' : Machine} {L : Layout}
  {ledger : List Loan} {r : Request} {a : Answer}

theorem step_eq_ok_iff : (step C s r).result = .ok (a, s') ↔
    ∃ m', (r.run C s.machine).result = .ok (a, m') ∧ s' = ⟨m', r.record C.platform a s.ledger⟩ := by
  rw [step, Traced.map_eq_ok_iff]
  constructor
  · rintro ⟨⟨a', m'⟩, hrun, heq⟩
    obtain ⟨rfl, rfl⟩ := Prod.mk.inj heq
    exact ⟨m', hrun, rfl⟩
  · rintro ⟨m', hrun, rfl⟩
    exact ⟨(a, m'), hrun, rfl⟩

/-- Only one layout is that of the pool. -/
theorem State.sound_of_layout (h : Pool.Sound P t s.machine.pool L s.ledger) : s.Sound P t := by
  show Pool.Sound P t s.machine.pool s.machine.pool.layout s.ledger
  rw [h.threads.layout_eq]
  exact h

theorem Machine.onPool_eq_ok_iff {change : Pool → Traced Pool} :
    (m.onPool change).result = .ok m' ↔
      ∃ p, (change m.pool).result = .ok p ∧ m' = ⟨p, m.directMap⟩ := by
  simp only [Machine.onPool, Traced.result_bind, Traced.result_pure, bind_eq_ok_iff,
    Except.ok.injEq]
  simp only [eq_comm]

theorem Machine.onPool_eq_error_iff {change : Pool → Traced Pool} {fault : Fault} :
    (m.onPool change).result = .error fault ↔ (change m.pool).result = .error fault := by
  rw [Machine.onPool, Traced.result_bind]
  rcases (change m.pool).result with fault' | p
  · rw [error_bind, Except.error.injEq, Except.error.injEq]
  · exact iff_of_false (fun h ↦ by cases h) fun h ↦ by cases h

/-- What an operation answers, written as an answer of the machine. -/
theorem Request.of_answered {α : Type} {x : Traced (α × Machine)} {g : α → Answer}
    (h : ((fun (y, m) ↦ (g y, m)) <$> x).result = .ok (a, m')) :
    ∃ y, x.result = .ok (y, m') ∧ a = g y := by
  obtain ⟨⟨y, m''⟩, hx, heq⟩ := Traced.map_eq_ok_iff.1 h
  obtain ⟨rfl, rfl⟩ := Prod.mk.inj heq
  exact ⟨y, hx, rfl⟩

/-- A change to the pool that has nothing to answer. -/
theorem Machine.of_done_onPool {change : Pool → Traced Pool}
    (h : ((Answer.done, ·) <$> m.onPool change).result = .ok (a, m')) :
    ∃ p, (change m.pool).result = .ok p ∧ a = .done ∧ m' = ⟨p, m.directMap⟩ := by
  obtain ⟨m'', hchange, heq⟩ := Traced.map_eq_ok_iff.1 h
  obtain ⟨rfl, rfl⟩ := Prod.mk.inj heq
  obtain ⟨p, hp, hm⟩ := Machine.onPool_eq_ok_iff.1 hchange
  exact ⟨p, hp, rfl, hm⟩

/-- A change to the pool that succeeds is answered. -/
theorem Machine.done_onPool {change : Pool → Traced Pool} {p : Pool}
    (h : (change m.pool).result = .ok p) :
    ((Answer.done, ·) <$> m.onPool change).result = .ok (.done, ⟨p, m.directMap⟩) :=
  Traced.map_eq_ok_iff.2 ⟨⟨p, m.directMap⟩, Machine.onPool_eq_ok_iff.2 ⟨p, h, rfl⟩, rfl⟩

/-- Taking a reference counts it. -/
theorem Pool.ref_eq_ok_iff {p p' : Pool} {page : Page} {x : PageRef} :
    p.ref page = .ok (x, p') ↔ x = ⟨page⟩ ∧ p.incref page = .ok p' := by
  rw [Pool.ref, map_eq_ok_iff]
  constructor
  · rintro ⟨p₁, hincref, heq⟩
    obtain ⟨rfl, rfl⟩ := Prod.mk.inj heq
    exact ⟨rfl, hincref⟩
  · rintro ⟨rfl, hincref⟩
    exact ⟨p', hincref, rfl⟩

/-- Taking a reference changes nothing but the pool. -/
theorem Machine.ref_eq_ok_iff {page : Page} {x : PageRef} :
    (m.ref page).result = .ok (x, m') ↔
      x = ⟨page⟩ ∧ ∃ p, m.pool.incref page = .ok p ∧ m' = ⟨p, m.directMap⟩ := by
  simp only [Machine.ref, Traced.result_bind, Traced.result_liftM, Traced.result_pure]
  constructor
  · intro h
    obtain ⟨⟨y, p⟩, hpool, hpure⟩ := bind_eq_ok_iff.1 h
    obtain ⟨rfl, hincref⟩ := Pool.ref_eq_ok_iff.1 hpool
    obtain ⟨rfl, rfl⟩ := Prod.mk.inj (Except.ok.inj hpure)
    exact ⟨rfl, p, hincref, rfl⟩
  · rintro ⟨rfl, p, hincref, rfl⟩
    exact bind_eq_ok_iff.2 ⟨(⟨page⟩, p), Pool.ref_eq_ok_iff.2 ⟨rfl, hincref⟩, rfl⟩

/-- A request for a page with a reference is a request for a page and then one for a reference. -/
theorem Machine.of_allocRef_eq_ok {flags : AllocFlags} {x : Except AllocError PageRef}
    (h : (m.allocRef C flags).result = .ok (x, m')) :
    (∃ e, x = .error e ∧ (m.allocPage C flags).result = .ok (.error e, m')) ∨
      ∃ q m₁, x = .ok ⟨q⟩ ∧ (m.allocPage C flags).result = .ok (.ok q, m₁) ∧
        m₁.pool.incref q = .ok m'.pool ∧ m'.directMap = m₁.directMap := by
  rw [Machine.allocRef, Traced.result_bind] at h
  obtain ⟨⟨y, m₁⟩, halloc, h⟩ := bind_eq_ok_iff.1 h
  cases y with
  | error e =>
    rw [Traced.result_pure, Except.ok.injEq, Prod.mk.injEq] at h
    obtain ⟨rfl, rfl⟩ := h
    exact Or.inl ⟨e, rfl, halloc⟩
  | ok q =>
    simp only [Traced.result_bind, Traced.result_liftM] at h
    obtain ⟨⟨r, p⟩, href, h⟩ := bind_eq_ok_iff.1 h
    obtain ⟨rfl, hincref⟩ := Pool.ref_eq_ok_iff.1 href
    rw [Traced.result_pure, Except.ok.injEq, Prod.mk.injEq] at h
    obtain ⟨rfl, rfl⟩ := h
    exact Or.inr ⟨q, m₁, rfl, halloc, hincref, rfl⟩

/-- **A block that is handed out** is recorded with its order and no reference, a refusal not at
all. -/
theorem Pool.Sound.allocOrder {order : Nat} {flags : AllocFlags} {x : Except AllocError Page}
    (hs : Pool.Sound C.platform t m.pool L ledger)
    (h : (m.allocOrder C order flags).result = .ok (x, m')) :
    ∃ L', Pool.Sound C.platform t m'.pool L'
        (Request.record C.platform (.allocOrder order flags) (.ofPage x) ledger) ∧
      Regroup (L.extents ++ Loan.extents ledger) (L'.extents ++
        Loan.extents (Request.record C.platform (.allocOrder order flags) (.ofPage x) ledger)) := by
  cases x with
  | error e =>
    obtain ⟨rfl, -⟩ := Machine.of_allocOrder_eq_error hs h
    exact ⟨L, hs, .refl _⟩
  | ok q =>
    obtain ⟨k, hoffers, hs'⟩ := Machine.sound_of_allocOrder hs h
    have hregroup := (hs.regroup_takeOff hoffers).append_right (Loan.extents ledger)
    exact ⟨_, hs', hregroup.trans (.perm List.perm_middle.symm)⟩

/-- Moving blocks about covers no frame and uncovers none. -/
theorem Request.covered_iff_of_regroup {L' : Layout} {ledger' : List Loan}
    (hr : r.handedOver = [])
    (h : Regroup (L.extents ++ Loan.extents ledger) (L'.extents ++ Loan.extents ledger'))
    (f : Nat) :
    (∃ b ∈ L'.extents ++ Loan.extents ledger', f ∈ b) ↔
      f ∈ r.handedOver ∨ ∃ b ∈ L.extents ++ Loan.extents ledger, f ∈ b := by
  rw [hr, ← h.covered_iff f]
  simp only [List.not_mem_nil, false_or]

/-- **A step of the pool**: whatever is asked and answered, the invariant holds with the ledger that
is written, and the frames that the blocks cover are those that they covered before and those that
are handed over. -/
theorem Pool.Sound.run (hs : Pool.Sound C.platform t m.pool L ledger)
    (hfree : ∀ f ∈ r.handedOver, Extent.depth (L.extents ++ Loan.extents ledger) f = 0)
    (h : (r.run C m).result = .ok (a, m')) :
    ∃ L', Pool.Sound C.platform t m'.pool L' (r.record C.platform a ledger) ∧
      ∀ f, (∃ b ∈ L'.extents ++ Loan.extents (r.record C.platform a ledger), f ∈ b) ↔
        f ∈ r.handedOver ∨ ∃ b ∈ L.extents ++ Loan.extents ledger, f ∈ b := by
  have hrecount : ∀ (f : Nat) (u : Nat → Nat), Regroup (L.extents ++ Loan.extents ledger)
      (L.extents ++ Loan.extents (Loan.recount f u ledger)) := fun f u ↦ by
    rw [Loan.extents_recount]
    exact .refl _
  cases r with
  | release first count =>
    obtain ⟨p, hrelease, rfl, rfl⟩ := Machine.of_done_onPool h
    obtain ⟨L', hs', hcovered⟩ := hs.releaseRange (fun f hle hlt ↦
      hfree f (List.mem_range'_1.2 ⟨hle, hlt⟩)) hrelease
    refine ⟨L', hs', fun f ↦ ?_⟩
    have hranges : f ∈ (Request.release first count).handedOver ↔
        first ≤ f ∧ f < first + count := List.mem_range'_1
    rw [hranges]
    simp only [Request.record, List.mem_append, or_and_right, exists_or, hcovered f, or_assoc]
  | allocOrder order flags =>
    obtain ⟨x, halloc, rfl⟩ := Request.of_answered h
    obtain ⟨L', hs', hregroup⟩ := hs.allocOrder halloc
    exact ⟨L', hs', Request.covered_iff_of_regroup rfl hregroup⟩
  | allocPage flags =>
    obtain ⟨x, halloc, rfl⟩ := Request.of_answered h
    obtain ⟨L', hs', hregroup⟩ := hs.allocOrder halloc
    cases x <;> exact ⟨L', hs', Request.covered_iff_of_regroup rfl hregroup⟩
  | allocRef flags =>
    obtain ⟨x, halloc, rfl⟩ := Request.of_answered h
    rcases Machine.of_allocRef_eq_ok halloc with ⟨e, rfl, hpage⟩ | ⟨q, m₁, rfl, hpage, hincref, -⟩
    · obtain ⟨L', hs', hregroup⟩ := hs.allocOrder hpage
      exact ⟨L', hs', Request.covered_iff_of_regroup rfl hregroup⟩
    · obtain ⟨L', hs₁, hregroup⟩ := hs.allocOrder hpage
      have hcons := Loan.recount_cons hs₁.tiling_lent (· + 1)
      have hs' : Pool.Sound C.platform t m'.pool L'
          (Loan.recount q.frame (· + 1) (⟨⟨q.frame, flags.order C.platform⟩, 0⟩ :: ledger)) :=
        hs₁.of_incref hincref
      rw [hcons] at hs'
      exact ⟨L', hs', Request.covered_iff_of_regroup rfl hregroup⟩
  | free page =>
    obtain ⟨p, hfreed, rfl, rfl⟩ := Machine.of_done_onPool h
    obtain ⟨L', hs', hregroup⟩ := hs.of_free hfreed
    exact ⟨L', hs', Request.covered_iff_of_regroup rfl hregroup⟩
  | incref page =>
    obtain ⟨p, hincref, rfl, rfl⟩ := Machine.of_done_onPool h
    exact ⟨L, hs.of_incref hincref, Request.covered_iff_of_regroup rfl (hrecount _ _)⟩
  | decref page =>
    obtain ⟨p, hdecref, rfl, rfl⟩ := Machine.of_done_onPool h
    obtain ⟨L', hs', hregroup⟩ := hs.of_decref hdecref
    exact ⟨L', hs', Request.covered_iff_of_regroup rfl hregroup⟩
  | ref page =>
    obtain ⟨x, href, rfl⟩ := Request.of_answered h
    obtain ⟨rfl, p, hincref, rfl⟩ := Machine.ref_eq_ok_iff.1 href
    exact ⟨L, hs.of_incref hincref, Request.covered_iff_of_regroup rfl (hrecount _ _)⟩
  | unref x =>
    obtain ⟨p, hdecref, rfl, rfl⟩ := Machine.of_done_onPool h
    obtain ⟨L', hs', hregroup⟩ := hs.of_decref hdecref
    exact ⟨L', hs', Request.covered_iff_of_regroup rfl hregroup⟩
  | install direct =>
    obtain ⟨m'', hinstall, heq⟩ := Traced.map_eq_ok_iff.1 h
    obtain ⟨rfl, rfl⟩ := Prod.mk.inj heq
    rw [Traced.result_liftM, Machine.install] at hinstall
    obtain ⟨d, -, rfl⟩ := map_eq_ok_iff.1 hinstall
    exact ⟨L, hs, Request.covered_iff_of_regroup rfl (.refl _)⟩

/-- An admissible request hands over frames that no block covers. -/
theorem Request.Admissible.depth_eq_zero (h : r.Admissible s) :
    ∀ f ∈ r.handedOver, Extent.depth (s.freeBlocks ++ s.outstanding) f = 0 :=
  fun f hf ↦ Extent.depth_eq_zero_iff.2 (h f hf)

/-- A request that hands nothing over is admissible. -/
theorem Request.admissible_of_nil (h : r.handedOver = []) : r.Admissible s := fun f hf ↦ by
  rw [h] at hf
  exact absurd hf List.not_mem_nil

/-- **The step lemma.** -/
theorem State.Sound.of_step (hs : s.Sound C.platform t) (hadmissible : r.Admissible s)
    (h : (step C s r).result = .ok (a, s')) : s'.Sound C.platform t := by
  obtain ⟨m', hrun, rfl⟩ := step_eq_ok_iff.1 h
  obtain ⟨L', hs', -⟩ := Pool.Sound.run hs hadmissible.depth_eq_zero hrun
  exact State.sound_of_layout hs'

end Step

/-! ### Every reachable state is sound -/

section Run

variable {C : Config} {P : Platform} {t : FrameTable} {s s' s'' : State}
  {log log' : List (Request × Answer)}

theorem State.sound_start (P : Platform) (direct : Option DirectMap) (ht : t.Fresh) :
    (State.start t direct).Sound P t :=
  State.sound_of_layout (Pool.sound_ofTable P ht)

/-- At the start there is no free block. -/
theorem State.freeBlocks_start (direct : Option DirectMap) (ht : t.Fresh) :
    (State.start t direct).freeBlocks = [] := by
  show (Pool.ofTable t).layout.extents = []
  rw [(Pool.sound_ofTable .scaled ht).threads.layout_eq]
  rfl

/-- At the start no frame is in a block. -/
theorem State.not_covered_start (direct : Option DirectMap) (ht : t.Fresh) (f : Nat) :
    ¬∃ b ∈ (State.start t direct).freeBlocks ++ (State.start t direct).outstanding, f ∈ b := by
  have hnone : (State.start t direct).outstanding = [] := rfl
  rw [State.freeBlocks_start direct ht, hnone]
  rintro ⟨b, hb, -⟩
  exact List.not_mem_nil hb

/-- At the start any frames may be handed over. -/
theorem Request.admissible_start (r : Request) (direct : Option DirectMap) (ht : t.Fresh) :
    r.Admissible (State.start t direct) :=
  fun f _ b hb hf ↦ State.not_covered_start direct ht f ⟨b, hb, hf⟩

/-- **The run lemma**, by induction on the requests. -/
theorem Run.sound (h : Run C s log s') (hs : s.Sound C.platform t) : s'.Sound C.platform t := by
  induction h with
  | nil s => exact hs
  | cons hadmissible hstep _ ih => exact ih (hs.of_step hadmissible hstep)

/-- **Every reachable state is sound.** -/
theorem Reachable.sound (h : Reachable C t s) : s.Sound C.platform t := by
  obtain ⟨ht, direct, log, hrun⟩ := h
  exact hrun.sound (State.sound_start C.platform direct ht.fresh)

/-- What a replay ends in is reachable. -/
theorem exists_reachable_of_replay {α : Type} {f : State → α} {x : α} (ht : t.Initial C.platform)
    (direct : Option DirectMap) (rs : List Request)
    (h : (replay C (State.start t direct) rs).map f = some x) : ∃ s, Reachable C t s ∧ f s = x := by
  obtain ⟨s, hreplay, hx⟩ := Option.map_eq_some_iff.1 h
  obtain ⟨log, -, hrun⟩ := exists_run_of_replay hreplay
  exact ⟨s, ⟨ht, direct, log, hrun⟩, hx⟩

/-- Runs compose. -/
theorem Run.append (h : Run C s log s') (h' : Run C s' log' s'') : Run C s (log ++ log') s'' := by
  induction h with
  | nil s => exact h'
  | cons hadmissible hstep _ ih => exact .cons hadmissible hstep (ih h')

/-- A run goes from reachable states to reachable states. -/
theorem Reachable.run (h : Reachable C t s) (hrun : Run C s log s') : Reachable C t s' := by
  obtain ⟨ht, direct, log', hrun'⟩ := h
  exact ⟨ht, direct, log' ++ log, hrun'.append hrun⟩

end Run

end FramePool
