import FramePool.Proofs.Run

/-!
# References: what is counted and what is refused

The descriptor of a block has a counter of references, and a flag that says whether the block was
handed out. These two are all that an operation looks at when it is given a page, and a page is only
a number: it may be stale, or lie inside a block, or outside the table.

They suffice. Since a block was handed out, as many references were taken to it as its counter says
and as were given back (`Run.counted`, by induction on the requests), and an operation on a page is
answered exactly when the page heads an outstanding block whose counter allows it
(`Pool.Sound.exists_free_iff`, `Pool.Sound.exists_incref_iff`, `Pool.Sound.exists_decref_iff`).
Together they are `Run.references_counted`.
-/

namespace FramePool

variable {C : Config} {P : Platform} {t : FrameTable} {s s' : State} {r : Request} {a : Answer}
  {b : Extent} {ledger : List Loan} {l : Loan} {log since before : List (Request × Answer)}

/-! ### What an answer does to the references of a block -/

namespace Request

/-- The block that is handed out with an answer. -/
def lent (P : Platform) : Request → Answer → Option Extent
  | allocOrder order _, .page page => some ⟨page.frame, order⟩
  | allocPage flags, .page page => some ⟨page.frame, flags.order P⟩
  | allocRef flags, .handle r => some ⟨r.page.frame, flags.order P⟩
  | _, _ => none

/-- How many references to the block at a frame are taken with an answer. -/
def taken (f : Frame) : Request → Answer → Nat
  | allocRef _, .handle r => if r.page.frame = f then 1 else 0
  | incref page, _ => if page.frame = f then 1 else 0
  | ref page, _ => if page.frame = f then 1 else 0
  | _, _ => 0

/-- How many references to the block at a frame are given back. -/
def returned (f : Frame) : Request → Nat
  | decref page => if page.frame = f then 1 else 0
  | unref r => if r.page.frame = f then 1 else 0
  | _ => 0

/-- **A block that is handed out** is recorded with the references that are taken along with it. -/
theorem record_of_lent (h : r.lent P a = some b) (ledger : List Loan) :
    r.record P a ledger = ⟨b, r.taken b.head a⟩ :: ledger := by
  rw [lent.eq_def] at h
  split at h
  · obtain rfl := Option.some.inj h
    rfl
  · obtain rfl := Option.some.inj h
    rfl
  · obtain rfl := Option.some.inj h
    rw [taken, if_pos rfl]
    rfl
  · cases h

/-- References to other blocks are not touched when a block is handed out, and none is given
back. -/
theorem counts_of_lent (h : r.lent P a = some b) (f : Frame) :
    r.returned f = 0 ∧ (b.head ≠ f → r.taken f a = 0) := by
  rw [lent.eq_def] at h
  split at h
  · exact ⟨rfl, fun _ ↦ rfl⟩
  · exact ⟨rfl, fun _ ↦ rfl⟩
  · obtain rfl := Option.some.inj h
    exact ⟨rfl, fun hne ↦ if_neg hne⟩
  · cases h

/-- **A block that stays outstanding** is recorded with the references that are taken, and without
those that are given back. -/
theorem exists_of_mem_record (h : r.lent P a = none) (hl : l ∈ r.record P a ledger) :
    ∃ k ∈ ledger, k.toExtent = l.toExtent ∧
      l.refs + r.returned l.head = k.refs + r.taken l.head a := by
  cases r with
  | release first count => exact ⟨l, hl, rfl, rfl⟩
  | allocOrder order flags =>
    cases a with
    | page page => cases h
    | _ => exact ⟨l, hl, rfl, rfl⟩
  | allocPage flags =>
    cases a with
    | page page => cases h
    | _ => exact ⟨l, hl, rfl, rfl⟩
  | allocRef flags =>
    cases a with
    | handle x => cases h
    | _ => exact ⟨l, hl, rfl, rfl⟩
  | free page => exact ⟨l, (Loan.mem_settle.1 hl).1, rfl, rfl⟩
  | incref page => exact Loan.exists_of_mem_recount_succ hl
  | decref page => exact Loan.exists_of_mem_drop hl
  | ref page => exact Loan.exists_of_mem_recount_succ hl
  | unref x => exact Loan.exists_of_mem_drop hl
  | install direct => exact ⟨l, hl, rfl, rfl⟩

end Request

/-! ### What a log says about the references to a block -/

namespace Log

/-- How many references to the block at a frame were taken. -/
def taken (f : Frame) (log : List (Request × Answer)) : Nat :=
  (log.map fun entry ↦ entry.1.taken f entry.2).sum

/-- How many references to the block at a frame were given back. -/
def returned (f : Frame) (log : List (Request × Answer)) : Nat :=
  (log.map fun entry ↦ entry.1.returned f).sum

/-- The end of a log from the answer on with which a block was handed out, for the last time at its
head. -/
structure Since (P : Platform) (b : Extent) (log since : List (Request × Answer)) : Prop where
  /-- It is the end of the log. -/
  suffix : since <:+ log
  /-- It begins with the answer that handed out the block. -/
  lent : since.head?.bind (fun entry ↦ entry.1.lent P entry.2) = some b
  /-- No later answer handed out a block at the same head. -/
  last : ∀ entry ∈ since.tail, ∀ c, entry.1.lent P entry.2 = some c → c.head ≠ b.head

theorem taken_append (f : Frame) (log log' : List (Request × Answer)) :
    taken f (log ++ log') = taken f log + taken f log' := by
  rw [taken, List.map_append, List.sum_append_nat]
  rfl

theorem returned_append (f : Frame) (log log' : List (Request × Answer)) :
    returned f (log ++ log') = returned f log + returned f log' := by
  rw [returned, List.map_append, List.sum_append_nat]
  rfl

theorem taken_singleton (f : Frame) (r : Request) (a : Answer) :
    taken f [(r, a)] = r.taken f a := Nat.add_zero _

theorem returned_singleton (f : Frame) (r : Request) (a : Answer) :
    returned f [(r, a)] = r.returned f := Nat.add_zero _

/-- A block was handed out just now. -/
theorem since_singleton (h : r.lent P a = some b) : Since P b (log ++ [(r, a)]) [(r, a)] where
  suffix := List.suffix_append log _
  lent := h
  last := fun _ hentry ↦ absurd hentry List.not_mem_nil

/-- The log goes on, and no block is handed out at the same head. -/
theorem Since.append (h : Since P b log since)
    (hlast : ∀ c, r.lent P a = some c → c.head ≠ b.head) :
    Since P b (log ++ [(r, a)]) (since ++ [(r, a)]) := by
  obtain ⟨before, hbefore⟩ := h.suffix
  have hlent := h.lent
  have htail := h.last
  rcases since with - | ⟨entry, since⟩
  · cases hlent
  refine ⟨⟨before, by rw [← List.append_assoc, hbefore]⟩, hlent, fun later hlater ↦ ?_⟩
  rcases List.mem_append.1 hlater with hlater | hlater
  · exact htail later hlater
  · obtain rfl := List.mem_singleton.1 hlater
    exact hlast

end Log

/-! ### Counting along a run -/

/-- The counter of each outstanding block is that of the log since the block was handed out. -/
def State.Counted (P : Platform) (log : List (Request × Answer)) (s : State) : Prop :=
  ∀ l ∈ s.ledger, ∃ since, Log.Since P l.toExtent log since ∧
    l.refs + Log.returned l.head since = Log.taken l.head since

/-- **The outstanding blocks after an answer**: one that was outstanding before, with the references
that are taken and without those that are given back, or the one that is handed out, which has
another head than those that were outstanding. -/
theorem State.Sound.mem_of_step (hs' : s'.Sound C.platform t)
    (h : (step C s r).result = .ok (a, s')) (hl : l ∈ s'.ledger) :
    (∃ k ∈ s.ledger, k.toExtent = l.toExtent ∧
      l.refs + r.returned l.head = k.refs + r.taken l.head a ∧
      ∀ c, r.lent C.platform a = some c → c.head ≠ l.head) ∨
    (r.lent C.platform a = some l.toExtent ∧ l.refs = r.taken l.head a ∧
      ∀ k ∈ s.ledger, k.head ≠ l.head) := by
  obtain ⟨m', -, rfl⟩ := step_eq_ok_iff.1 h
  have ht : Tiling t (Loan.extents (r.record C.platform a s.ledger)) :=
    hs'.tiling_lent
  rcases hlent : r.lent C.platform a with - | b
  · obtain ⟨k, hk, hext, hrefs⟩ := Request.exists_of_mem_record hlent hl
    exact Or.inl ⟨k, hk, hext, hrefs, fun c hc ↦ by cases hc⟩
  · -- The block that is handed out shares no frame with those that were outstanding.
    rw [Request.record_of_lent hlent] at hl ht
    have hne : ∀ k ∈ s.ledger, k.head ≠ b.head := fun k hk heq ↦
      ht.not_mem_tail (Loan.mem_extents hk) b.head_mem (heq ▸ k.head_mem)
    rcases List.mem_cons.1 hl with rfl | hl
    · exact Or.inr ⟨rfl, rfl, hne⟩
    · obtain ⟨hreturned, htaken⟩ := Request.counts_of_lent hlent l.head
      refine Or.inl ⟨l, hl, rfl, ?_, fun c hc ↦ ?_⟩
      · rw [hreturned, htaken (hne l hl).symm]
      · obtain rfl := Option.some.inj hc
        exact (hne l hl).symm

/-- **A step keeps count.** -/
theorem State.Counted.of_step (hc : s.Counted C.platform log) (hs' : s'.Sound C.platform t)
    (h : (step C s r).result = .ok (a, s')) : s'.Counted C.platform (log ++ [(r, a)]) := by
  intro l hl
  rcases hs'.mem_of_step h hl with ⟨k, hk, hext, hrefs, hlast⟩ | ⟨hlent, hrefs, -⟩
  · obtain ⟨since, hsince, hcount⟩ := hc k hk
    rw [hext] at hsince hcount
    refine ⟨since ++ [(r, a)], hsince.append hlast, ?_⟩
    rw [Log.taken_append, Log.returned_append, Log.taken_singleton, Log.returned_singleton]
    omega
  · refine ⟨[(r, a)], Log.since_singleton hlent, ?_⟩
    rw [Log.taken_singleton, Log.returned_singleton, (Request.counts_of_lent hlent l.head).1]
    exact hrefs

/-- **A run keeps count**, by induction on the requests. -/
theorem Run.counted (h : Run C s log s') (hs : s.Sound C.platform t)
    (hc : s.Counted C.platform before) : s'.Counted C.platform (before ++ log) := by
  induction h generalizing before with
  | nil s => rwa [List.append_nil]
  | cons hadmissible hstep _ ih =>
    have hs' := hs.of_step hadmissible hstep
    rw [← List.singleton_append, ← List.append_assoc]
    exact ih hs' (hc.of_step hs' hstep)

/-! ### Which pages are accepted -/

namespace Pool

open Loan

variable {p : Pool} {L : Layout} {page : Page}

/-- An operation that is accepted on the heads of some outstanding blocks and on no other page. -/
theorem exists_ok_iff {op : Page → Except Fault Pool} {accepted : Loan → Prop}
    (hok : ∀ l ∈ ledger, accepted l → ∃ p', op ⟨l.head⟩ = .ok p')
    (hof : ∀ page p', op page = .ok p' → ∃ l ∈ ledger, l.head = page.frame ∧ accepted l)
    (page : Page) :
    (∃ p', op page = .ok p') ↔ ∃ l ∈ ledger, l.head = page.frame ∧ accepted l := by
  constructor
  · rintro ⟨p', h⟩
    exact hof page p' h
  · rintro ⟨l, hl, hhead, haccepted⟩
    have h := hok l hl haccepted
    rwa [hhead] at h

/-- **A page can be given back** exactly when it heads an outstanding block without references. -/
theorem Sound.exists_free_iff (hs : Sound C.platform t p L ledger) (page : Page) :
    (∃ p', (Pool.free C p page).result = .ok p') ↔
      ∃ l ∈ ledger, l.head = page.frame ∧ l.refs = 0 := by
  refine exists_ok_iff (fun l hl hrefs ↦ ?_) (fun page p' h ↦ hs.of_free_eq_ok h) page
  obtain ⟨p', h, -⟩ := hs.free hl hrefs
  exact ⟨p', h⟩

/-- **A reference can be taken** exactly to a page that heads an outstanding block, one with fewer
references than can be counted. -/
theorem Sound.exists_incref_iff (hs : Sound P t p L ledger) (page : Page) :
    (∃ p', Pool.incref p page = .ok p') ↔
      ∃ l ∈ ledger, l.head = page.frame ∧ l.refs + 1 < Descriptor.refLimit := by
  refine exists_ok_iff (fun l hl hrefs ↦ ?_) (fun page p' h ↦ hs.of_incref_eq_ok h) page
  obtain ⟨p', h, -⟩ := hs.incref hl hrefs
  exact ⟨p', h⟩

/-- **A reference can be given back** exactly to a page that heads an outstanding block with a
reference. -/
theorem Sound.exists_decref_iff (hs : Sound C.platform t p L ledger) (page : Page) :
    (∃ p', (Pool.decref C p page).result = .ok p') ↔
      ∃ l ∈ ledger, l.head = page.frame ∧ 0 < l.refs := by
  refine exists_ok_iff (fun l hl hrefs ↦ ?_) (fun page p' h ↦ hs.of_decref_eq_ok h) page
  obtain ⟨p', h, -⟩ := hs.decref hl hrefs
  exact ⟨p', h⟩

/-- Taking a reference with a handle to it. -/
theorem exists_ref_iff : (∃ x, p.ref page = .ok x) ↔ ∃ p', p.incref page = .ok p' := by
  constructor
  · rintro ⟨⟨x, p'⟩, h⟩
    exact ⟨p', (ref_eq_ok_iff.1 h).2⟩
  · rintro ⟨p', h⟩
    exact ⟨(⟨page⟩, p'), ref_eq_ok_iff.2 ⟨rfl, h⟩⟩

/-- **The last reference** that is given back frees the block, any other one frees nothing. -/
theorem Sound.covered_iff_of_decref {p' : Pool} (hs : Sound C.platform t p L ledger)
    (hl : l ∈ ledger) (h : (Pool.decref C p ⟨l.head⟩).result = .ok p') (f : Nat) :
    (∃ b ∈ p'.layout.extents, f ∈ b) ↔
      (l.refs = 1 ∧ f ∈ l.toExtent) ∨ ∃ b ∈ L.extents, f ∈ b := by
  obtain ⟨k, hk, hhead, hpos⟩ := hs.of_decref_eq_ok h
  obtain rfl : k = l := eq_of_head hs.tiling_lent hl hk hhead
  obtain ⟨p'', h', hs'⟩ := hs.decref hl hpos
  rw [h, Except.ok.injEq] at h'
  subst h'
  rw [hs'.threads.layout_eq]
  rcases eq_or_ne k.refs 1 with hone | hmore
  · rw [if_pos hone, hs.covered_putBack_iff hl]
    simp only [hone, true_and]
  · rw [if_neg hmore]
    simp only [hmore, false_and, false_or]

end Pool

/-! ### Lifecycle of a block -/

/-- **Lifecycle and misuse.** After a run from a fresh table, the counter of each outstanding block
says how many references were taken to it, less those that were given back, since it was handed out.
Whatever page an operation is given, it is answered just when the page heads an outstanding block,
one without references if it is to be given back, one with a reference if that is to be given back,
and one with fewer than can be counted if another is to be taken; otherwise it faults. The last
reference that is given back frees the block, any other one frees nothing. -/
theorem Run.references_counted (ht : t.Initial C.platform) {direct : Option DirectMap}
    (h : Run C (State.start t direct) log s) :
    (∀ l ∈ s.ledger, (∃ d, s.machine.pool.describe ⟨l.head⟩ = .ok d ∧ d.refs = l.refs) ∧
      ∃ since, Log.Since C.platform l.toExtent log since ∧
        l.refs + Log.returned l.head since = Log.taken l.head since) ∧
    (∀ page : Page,
      ((∃ p, (s.machine.pool.free C page).result = .ok p) ↔
        ∃ l ∈ s.ledger, l.head = page.frame ∧ l.refs = 0) ∧
      ((∃ p, s.machine.pool.incref page = .ok p) ↔
        ∃ l ∈ s.ledger, l.head = page.frame ∧ l.refs + 1 < Descriptor.refLimit) ∧
      ((∃ x, s.machine.pool.ref page = .ok x) ↔
        ∃ l ∈ s.ledger, l.head = page.frame ∧ l.refs + 1 < Descriptor.refLimit) ∧
      ((∃ p, (s.machine.pool.decref C page).result = .ok p) ↔
        ∃ l ∈ s.ledger, l.head = page.frame ∧ 0 < l.refs) ∧
      ((∃ p, (s.machine.pool.unref C ⟨page⟩).result = .ok p) ↔
        ∃ l ∈ s.ledger, l.head = page.frame ∧ 0 < l.refs)) ∧
    ∀ l ∈ s.ledger, ∀ p, (s.machine.pool.decref C ⟨l.head⟩).result = .ok p ∨
        (s.machine.pool.unref C ⟨⟨l.head⟩⟩).result = .ok p →
      ∀ f, (∃ b ∈ p.layout.extents, f ∈ b) ↔ (l.refs = 1 ∧ f ∈ l.toExtent) ∨ s.Free f := by
  have hstart : (State.start t direct).Sound C.platform t :=
    State.sound_start C.platform direct ht.fresh
  have hs : Pool.Sound C.platform t s.machine.pool s.machine.pool.layout s.ledger := h.sound hstart
  have hnone : (State.start t direct).Counted C.platform [] := fun l hl ↦ absurd hl List.not_mem_nil
  have hcounted : s.Counted C.platform log := h.counted hstart hnone
  refine ⟨fun l hl ↦ ⟨?_, hcounted l hl⟩, fun page ↦ ⟨hs.exists_free_iff page,
    hs.exists_incref_iff page, Pool.exists_ref_iff.trans (hs.exists_incref_iff page),
    hs.exists_decref_iff page, hs.exists_decref_iff page⟩, fun l hl p hp f ↦ ?_⟩
  · obtain ⟨d, hd, -, -, hrefs⟩ := hs.books.lent l hl
    exact ⟨d, Pool.describe_eq_ok_iff.2 hd, hrefs⟩
  · rcases hp with hp | hp <;> exact hs.covered_iff_of_decref hl hp f

/-- A page with two references and a block of two with one: the block cannot be given back by the
page in the middle of it, nor by its head while the reference is held, but the reference can. -/
theorem Run.references_counted_replayed :
    ∃ log s, Run ⟨.scaled, true⟩ (State.start (.ofCount 8) none) log s ∧
      (∃ since, Log.Since .scaled ⟨0, 0⟩ log since ∧
        2 + Log.returned 0 since = Log.taken 0 since) ∧
      (¬∃ p, (s.machine.pool.free ⟨.scaled, true⟩ ⟨3⟩).result = .ok p) ∧
      (¬∃ p, (s.machine.pool.free ⟨.scaled, true⟩ ⟨2⟩).result = .ok p) ∧
      ∃ p, (s.machine.pool.decref ⟨.scaled, true⟩ ⟨2⟩).result = .ok p := by
  obtain ⟨s, hreplay, hledger⟩ : ∃ s, replay ⟨.scaled, true⟩ (State.start (.ofCount 8) none)
      [.release 0 8, .allocRef {}, .allocOrder 1 {}, .ref ⟨0⟩, .incref ⟨2⟩, .incref ⟨0⟩,
        .unref ⟨⟨0⟩⟩] = some s ∧ s.ledger = [⟨⟨2, 1⟩, 1⟩, ⟨⟨0, 0⟩, 2⟩] :=
    Option.map_eq_some_iff.1 (by decide +kernel : (replay ⟨.scaled, true⟩ _ _).map _ = some _)
  obtain ⟨log, -, hrun⟩ := exists_run_of_replay hreplay
  obtain ⟨hcounted, hpages, -⟩ := Run.references_counted (.ofCount 8) hrun
  rw [hledger] at hcounted hpages
  refine ⟨log, s, hrun, (hcounted ⟨⟨0, 0⟩, 2⟩ (by decide)).2, ?_, ?_, ?_⟩
  · rw [(hpages ⟨3⟩).1]
    decide
  · rw [(hpages ⟨2⟩).1]
    decide
  · exact (hpages ⟨2⟩).2.2.2.1.2 ⟨⟨⟨2, 1⟩, 1⟩, by decide⟩

end FramePool
