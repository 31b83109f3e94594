import FramePool.Proofs.Boot

/-!
# Observation: tracing changes nothing

An observer takes no part in what it observes, but it makes texts, and this is done between the
steps of an operation that is half done. A text that cannot be made is a fault there. It may show
the address of a frame, which must have one, and a number of bytes, which must be a word
(`Event.Sized`). It may also look up the order of a merged block in the table, where it must be
(`Pool.labels_of_merge`).

All that a session reports can be told in advance. Building a table or a pool shows no address, and
the frames whose addresses a request shows are those of the table, whatever is asked of whatever
machine (`Operation.within_run`). A table never changes its length. Hence if it fits into the
physical address space, each text that a session calls for can be made, whatever else goes wrong in
it, and **a session with an observer is the session without one** (`Machine.serve_traced`). In a
larger table a text may be missing, but a session that lacks none is the same again.
-/

namespace FramePool

open Traced

variable {C : Config} {P : Platform} {n : Nat} {α : Type}

/-! ### What texts are made of -/

/-- The byte counts that the text of an event shows. -/
def Event.bytes (P : Platform) : Event → List Nat
  | building frames => [frames * P.pageSize]
  | ready _ free => [free * P.pageSize]
  | exhausted order => [2 ^ order * P.pageSize]
  | _ => []

/-- What is known of the text of an event: the frames that it shows are below `n`, and the byte
counts are words. -/
structure Event.Sized (P : Platform) (n : Nat) (e : Event) : Prop where
  /-- Each frame that is shown is below `n`. -/
  shown : ∀ f ∈ e.shown, f < n
  /-- Each byte count is a word. -/
  bytes : ∀ k ∈ e.bytes P, k < Word.limit

namespace Event

theorem sized_of_shown_eq_nil {e : Event} (hshown : e.shown = [])
    (h : ∀ k ∈ e.bytes P, k < Word.limit) : e.Sized P n :=
  ⟨forall_shown_of_nil hshown, h⟩

theorem sized_halved (head order : Nat) : (halved head order).Sized P n :=
  sized_of_shown_eq_nil rfl fun _ hk ↦ absurd hk List.not_mem_nil

theorem sized_merged (order head buddy : Nat) : (merged order head buddy).Sized P n :=
  sized_of_shown_eq_nil rfl fun _ hk ↦ absurd hk List.not_mem_nil

theorem sized_exhausted {order : Nat} (ho : order < orderCount) : (exhausted order).Sized P n :=
  sized_of_shown_eq_nil rfl
    (List.forall_mem_singleton.2 (Block.bytes_lt P (Nat.le_of_lt_succ ho)))

theorem sized_found {head : Nat} (h : head < n) (k order : Nat) : (found k head order).Sized P n :=
  ⟨forall_shown_found h k order, fun _ hk ↦ absurd hk List.not_mem_nil⟩

theorem sized_freed {page head : Nat} (hpage : page < n) (hle : head ≤ page) (order : Nat) :
    (freed page order head).Sized P n :=
  ⟨forall_shown_freed hpage hle order, fun _ hk ↦ absurd hk List.not_mem_nil⟩

end Event

/-- Texts that show frames which have addresses can be made. -/
theorem Traced.Within.legible_of_sized {Q : α → Prop} {x : Traced α}
    (h : x.Within (Event.Sized P n) Q) (hn : n ≤ P.frameLimit) : x.Legible P :=
  fun e he f hf ↦ Nat.lt_of_lt_of_le ((h.events e he).shown f hf) hn

/-! ### Building -/

/-- Where a session starts. -/
inductive Origin where
  /-- With a table, of which nothing is handed over. -/
  | table (t : FrameTable)
  /-- With the table of a boot map, of which nothing is handed over. -/
  | bootTable (map : List Region)
  /-- With the pool of a boot map, with every usable frame handed over. -/
  | bootMap (map : List Region)

/-- The pool that a session starts with. -/
def Origin.build (C : Config) : Origin → Traced Pool
  | table t => pure (Pool.ofTable t)
  | bootTable map => Pool.ofTable <$> FrameTable.ofBootMap C.platform map
  | bootMap map => Pool.ofBootMap C map

/-- A boot map does not describe more bytes than a word can count. -/
theorem FrameTable.frameCount_mul_pageSize_lt {map : List Region} (h : frameCount P map = .ok n) :
    n * P.pageSize < Word.limit := by
  obtain ⟨hread, rfl⟩ := frameCount_eq_ok_iff.1 h
  exact Region.wholeFrames_mul_pageSize_lt hread

/-- A pool that is booted has no more free bytes than its table has bytes. -/
theorem Pool.freePages_mul_pageSize_lt {map : List Region} {t : FrameTable} {p : Pool}
    (ht : (FrameTable.ofBootMap C.platform map).result = .ok t)
    (hp : (releaseRanges C t.usableRuns (ofTable t)).result = .ok p) :
    p.freePages * C.platform.pageSize < Word.limit := by
  have hfresh : t.Fresh := (FrameTable.Initial.ofBootMap ht).fresh
  have hs : Pool.Sound C.platform t p p.layout [] :=
    (run_releaseRanges hfresh hp).sound (State.sound_start C.platform none hfresh)
  have hcount : FrameTable.frameCount C.platform map = .ok t.length :=
    (FrameTable.within_ofBootMap (S := fun _ ↦ True) fun _ _ ↦ trivial).answers t ht
  have hle : p.freePages ≤ t.length := Nat.le_trans hs.freePages_le t.usableCount_le_length
  exact Nat.lt_of_le_of_lt (Nat.mul_le_mul_right _ hle)
    (FrameTable.frameCount_mul_pageSize_lt hcount)

/-- **Building a pool** shows no address, and byte counts that are words. -/
theorem Origin.within_build (C : Config) (origin : Origin) (n : Nat) :
    (origin.build C).Within (Event.Sized C.platform n) fun _ ↦ True := by
  have hbuilding : ∀ map k, FrameTable.frameCount C.platform map = .ok k →
      (Event.building k).Sized C.platform n := fun _ _ h ↦
    Event.sized_of_shown_eq_nil rfl
      (List.forall_mem_singleton.2 (FrameTable.frameCount_mul_pageSize_lt h))
  rcases origin with t | map | map
  · exact within_pure trivial
  · exact (FrameTable.within_ofBootMap (hbuilding map)).map fun _ _ ↦ trivial
  · exact (Pool.within_ofBootMap Event.sized_merged (hbuilding map) fun t p ht hp ↦
      Event.sized_of_shown_eq_nil rfl
        (List.forall_mem_singleton.2 (Pool.freePages_mul_pageSize_lt ht hp))).imp fun _ _ ↦ trivial

/-! ### Operations -/

/-- What is done in a session: a request is put to the machine, or it is asked something that
changes nothing, such as how many frames are free or whether the checker finds something wrong. -/
inductive Operation (α : Type) where
  /-- Puts a request. -/
  | request (r : Request)
  /-- Asks for something, which may be a fault to ask. -/
  | query (ask : Machine → Except Fault α)

/-- Does the operation to a machine. -/
def Operation.run (C : Config) (m : Machine) : Operation α → Traced ((Answer ⊕ α) × Machine)
  | request r => (fun (a, m) ↦ (.inl a, m)) <$> r.run C m
  | query ask => (fun a ↦ (.inr a, m)) <$> (ask m : Traced α)

/-- **Whatever is asked of whatever machine**, the events show frames of its table and byte counts
that are words, and the table keeps its length. -/
theorem Request.within_run (C : Config) (m : Machine) (r : Request) :
    (r.run C m).Within (Event.Sized C.platform m.pool.table.length) fun x ↦
      x.2.pool.table.length = m.pool.table.length := by
  have hmerged : ∀ order head buddy,
      (Event.merged order head buddy).Sized C.platform m.pool.table.length := Event.sized_merged
  have hfreed : ∀ page : Page, ∀ order head, page.frame < m.pool.table.length →
      head ≤ page.frame →
      (Event.freed page.frame order head).Sized C.platform m.pool.table.length :=
    fun _ order _ hlt hle ↦ Event.sized_freed hlt hle order
  have halloc : ∀ order flags,
      (m.allocOrder C order flags).Within (Event.Sized C.platform m.pool.table.length) fun x ↦
        x.2.pool.table.length = m.pool.table.length := fun order flags ↦
    Machine.within_allocOrder Event.sized_halved (fun k _ hlt ↦ Event.sized_found hlt k order)
      Event.sized_exhausted flags
  cases r with
  | release first count =>
    have hrelease := Pool.within_releaseRange (C := C) hmerged m.pool first count
    exact (Machine.within_onPool hrelease).map fun _ ↦ id
  | allocOrder order flags => exact (halloc order flags).map fun _ ↦ id
  | allocPage flags => exact (halloc _ flags).map fun _ ↦ id
  | allocRef flags =>
    refine Within.map (Q := fun x ↦ x.2.pool.table.length = m.pool.table.length) ?_ fun _ ↦ id
    refine (halloc _ flags).bind fun x hx ↦ ?_
    obtain ⟨e | page, m₁⟩ := x
    · exact within_pure hx
    · exact (Pool.within_ref m₁.pool page).bind fun y hy ↦ within_pure (hy.trans hx)
  | free page =>
    exact (Machine.within_onPool (Pool.within_free hmerged (hfreed page))).map fun _ ↦ id
  | incref page =>
    exact (Machine.within_onPool (within_liftM fun _ ↦ Pool.length_of_incref)).map fun _ ↦ id
  | decref page =>
    have hdecref := Pool.within_decref (C := C) hmerged (hfreed page)
    exact (Machine.within_onPool hdecref).map fun _ ↦ id
  | ref page =>
    refine Within.map (Q := fun x ↦ x.2.pool.table.length = m.pool.table.length) ?_ fun _ ↦ id
    exact (Pool.within_ref m.pool page).bind fun y hy ↦ within_pure hy
  | unref x =>
    have hdecref := Pool.within_decref (C := C) hmerged (hfreed x.page)
    exact (Machine.within_onPool hdecref).map fun _ ↦ id
  | install direct =>
    refine Within.map (Q := fun m' ↦ m'.pool.table.length = m.pool.table.length)
      (within_liftM fun m' hm' ↦ ?_) fun _ ↦ id
    obtain ⟨installed, -, rfl⟩ := map_eq_ok_iff.1 hm'
    rfl

theorem Operation.within_run (C : Config) (m : Machine) (op : Operation α) :
    (op.run C m).Within (Event.Sized C.platform m.pool.table.length) fun x ↦
      x.2.pool.table.length = m.pool.table.length := by
  rcases op with r | ask
  · exact (r.within_run C m).map fun _ ↦ id
  · exact (within_liftM fun _ _ ↦ trivial).map fun _ _ ↦ rfl

/-! ### The order of a block that comes back -/

namespace FrameTable

variable {t t' : FrameTable} {u : Descriptor → Descriptor}

/-- A change that keeps the order of one descriptor keeps the orders of all. -/
theorem order_update (hu : ∀ d, (u d).order = d.order) (t : FrameTable) (f g : Frame) :
    ((t.update f u).get? g).map (·.order) = (t.get? g).map (·.order) := by
  rw [get?_update]
  split
  · rw [Option.map_map]
    exact congrArg (Option.map · (t.get? g)) (funext hu)
  · rfl

theorem order_of_writeLink {link : Option Frame} (hu : ∀ d, (u d).order = d.order)
    (h : t.writeLink link u = .ok t') (g : Frame) :
    (t'.get? g).map (·.order) = (t.get? g).map (·.order) := by
  rcases link with - | f
  · obtain rfl := Except.ok.inj h
    rfl
  · rw [writeLink, write] at h
    split at h
    · obtain rfl := Except.ok.inj h
      exact order_update hu t f g
    · cases h

end FrameTable

namespace Pool

open FrameTable

variable {p p' : Pool} {f g : Frame} {k o levels : Nat}

/-- Linking a block relabels no frame. -/
theorem Labels.link (hg : p.Labels g k) (h : p.link o f = .ok p') : p'.Labels g k := by
  obtain ⟨l, l', hpush⟩ := of_link h
  obtain ⟨d, -, h⟩ := bind_eq_ok_iff.1 hpush
  obtain ⟨_, -, h⟩ := bind_eq_ok_iff.1 h
  obtain ⟨t₁, hwrite, h⟩ := bind_eq_ok_iff.1 h
  obtain ⟨rfl, -⟩ := Prod.mk.inj (Except.ok.inj h)
  refine (order_of_writeLink ?_ hwrite g).trans ((order_update ?_ p.table f g).trans hg)
  · exact fun _ ↦ rfl
  · exact fun _ ↦ rfl

theorem labels_of_setOrder (h : p.setOrder f o = .ok p') : p'.Labels f o := by
  obtain ⟨t', hwrite, rfl⟩ := map_eq_ok_iff.1 h
  rw [FrameTable.write] at hwrite
  split at hwrite
  · rename_i hlt
    obtain rfl := Except.ok.inj hwrite
    obtain ⟨d, hd⟩ := Option.isSome_iff_exists.1 (get?_isSome.2 hlt)
    rw [Labels, get?_update_self, hd]
    rfl
  · cases hwrite

/-- **The merged block** is labelled with its order, in whatever pool. The induction is on the
levels. -/
theorem labels_of_climb (hf : p.Labels f o)
    (h : (climb P levels o f p).result = .ok (g, k, p')) : p'.Labels g k := by
  have hlink : ∀ {p : Pool} {o : Nat} {f : Frame}, p.Labels f o →
      (do let p' ← Pool.link p o f; return (f, o, p') : Traced (Frame × Nat × Pool)).result =
        .ok (g, k, p') → p'.Labels g k := fun hf h ↦ by
    obtain ⟨p₁, hlink, h⟩ := bind_eq_ok_iff.1 ((Traced.result_bind ..).symm.trans h)
    obtain ⟨rfl, heq⟩ := Prod.mk.inj (Except.ok.inj h)
    obtain ⟨rfl, rfl⟩ := Prod.mk.inj heq
    exact hf.link hlink
  induction levels generalizing p o f with
  | zero => exact hlink hf h
  | succ levels ih =>
    rw [climb, Traced.result_bind] at h
    obtain ⟨buddy, -, h⟩ := bind_eq_ok_iff.1 h
    split at h
    · simp only [Traced.result_bind, Traced.result_liftM, Traced.result_emit, ok_bind] at h
      obtain ⟨p₁, -, h⟩ := bind_eq_ok_iff.1 h
      obtain ⟨p₂, hset, h⟩ := bind_eq_ok_iff.1 h
      exact ih (labels_of_setOrder hset) h
    · exact hlink hf h

/-- The order of a merged block is in the table when the text of a page that came back looks it up
there. -/
theorem labels_of_merge (h : (p.merge P f).result = .ok (g, k, p')) : p'.Labels g k := by
  rw [merge, Traced.result_bind, Traced.result_liftM] at h
  obtain ⟨d, hread, h⟩ := bind_eq_ok_iff.1 h
  refine labels_of_climb ?_ h
  rw [Labels, read_eq_ok_iff.1 hread]
  rfl

end Pool

/-! ### Sessions -/

/-- Does operations to a machine, of whatever kind and in whatever order, until there is a fault.
Answers what was answered and how it ended: with the machine as it is then, or with the fault. -/
def Machine.serve (C : Config) (tracing : Bool) : List (Operation α) → Machine →
    List (Answer ⊕ α) × Except Fault Machine
  | [], m => ([], .ok m)
  | op :: ops, m =>
    match ((op.run C m).run C.platform tracing).2 with
    | .error fault => ([], .error fault)
    | .ok (a, m) =>
      let (answers, last) := serve C tracing ops m
      (a :: answers, last)

/-- Builds a pool and does operations to a machine with it. -/
def Origin.serve (C : Config) (tracing : Bool) (origin : Origin) (direct : Option DirectMap)
    (ops : List (Operation α)) : List (Answer ⊕ α) × Except Fault Machine :=
  match ((origin.build C).run C.platform tracing).2 with
  | .error fault => ([], .error fault)
  | .ok p => Machine.serve C tracing ops ⟨p, direct⟩

namespace Traced

variable {x : Traced α} {a : α}

/-- Where something is answered in spite of an observer, the observer changed nothing. -/
theorem run_of_ok (h : (x.run P true).2 = .ok a) : (x.run P false).2 = .ok a :=
  (run_eq_ok_iff.1 h).1

end Traced

namespace Machine

variable {m m' : Machine} {ops : List (Operation α)}

/-- **Without a fault** a session with an observer is the session without one. -/
theorem serve_of_ok (h : (m.serve C true ops).2 = .ok m') :
    m.serve C false ops = m.serve C true ops := by
  induction ops generalizing m with
  | nil => rfl
  | cons op ops ih =>
    rw [serve] at h
    rw [serve, serve]
    rcases hop : ((op.run C m).run C.platform true).2 with fault | ⟨a, m₁⟩
    · rw [hop] at h
      cases h
    · rw [hop] at h
      rw [run_of_ok hop]
      show (a :: (serve C false ops m₁).1, (serve C false ops m₁).2) = _
      rw [ih h]

/-- **In a table that fits** into the physical address space a session with an observer is the
session without one, and has a fault where that has one. -/
theorem serve_traced (h : m.pool.table.length ≤ C.platform.frameLimit) :
    m.serve C true ops = m.serve C false ops := by
  induction ops generalizing m with
  | nil => rfl
  | cons op ops ih =>
    have hop := op.within_run C m
    rw [serve, serve, (hop.legible_of_sized h).run_eq true]
    rcases hresult : ((op.run C m).run C.platform false).2 with fault | ⟨a, m₁⟩
    · rfl
    · have hlength : m₁.pool.table.length = m.pool.table.length := hop.answers _ hresult
      show (a :: (serve C true ops m₁).1, (serve C true ops m₁).2) = _
      rw [ih (hlength ▸ h)]

end Machine

/-- **Tracing is transparent.** Let a session start with a table or a boot map and do whatever
operations in whatever order. If it ends without a fault with an observer, it answers the same and
ends with the same machine without one. If the table fits into the physical address space, the two
sessions agree in any case: the same operation is the first that has a fault, and it is the same
fault. Whichever machine the operations meet, the byte counts that the texts show are words, and the
order of a block that a page came back into is the one that the table has for its head. -/
theorem Origin.observer_transparent (C : Config) (origin : Origin) (direct : Option DirectMap)
    (ops : List (Operation α)) :
    (∀ m, (origin.serve C true direct ops).2 = .ok m →
      origin.serve C false direct ops = origin.serve C true direct ops) ∧
    ((∀ p, (origin.build C).result = .ok p →
        p.table.length * C.platform.pageSize ≤ C.platform.physicalLimit) →
      origin.serve C true direct ops = origin.serve C false direct ops) ∧
    (∀ e ∈ (origin.build C).events, ∀ k ∈ e.bytes C.platform, k < Word.limit) ∧
    (∀ (m : Machine) (op : Operation α), ∀ e ∈ (op.run C m).events,
      ∀ k ∈ e.bytes C.platform, k < Word.limit) ∧
    ∀ (p p' : Pool) (f g : Frame) (k : Nat),
      (p.merge C.platform f).result = .ok (g, k, p') → p'.Labels g k := by
  have hbuild := origin.within_build C C.platform.frameLimit
  refine ⟨fun m h ↦ ?_, fun hfits ↦ ?_, fun e he ↦ (hbuild.events e he).bytes,
    fun m op e he ↦ ((op.within_run C m).events e he).bytes,
    fun p p' f g k ↦ Pool.labels_of_merge⟩
  · rw [serve] at h
    rw [serve, serve]
    rcases hrun : ((origin.build C).run C.platform true).2 with fault | p
    · rw [hrun] at h
      cases h
    · rw [hrun] at h
      rw [run_of_ok hrun]
      exact Machine.serve_of_ok h
  · rw [serve, serve, (hbuild.legible_of_sized (Nat.le_refl _)).run_eq true]
    rcases hresult : ((origin.build C).run C.platform false).2 with fault | p
    · rfl
    · exact Machine.serve_traced (FrameTable.length_le_frameLimit (hfits p hresult))

/-- A block is handed out and given back. -/
def Operation.roundTrip : List (Operation Nat) :=
  [.request (.release 0 8), .request (.allocOrder 1 {}), .query fun m ↦ .ok m.pool.freePages,
    .request (.free ⟨0⟩)]

/-- A block that is given back once, and one that is given back twice. -/
theorem Origin.observer_transparent_served :
    ((table (.ofCount 8)).serve ⟨.scaled, true⟩ true none Operation.roundTrip).1 =
        [.inl .done, .inl (.page ⟨0⟩), .inr 6, .inl .done] ∧
      (table (.ofCount 8)).serve ⟨.scaled, true⟩ false none Operation.roundTrip =
        (table (.ofCount 8)).serve ⟨.scaled, true⟩ true none Operation.roundTrip ∧
      ∀ tracing, ((table (.ofCount 8)).serve ⟨.scaled, true⟩ tracing none
        (Operation.roundTrip ++ [.request (.free ⟨0⟩)])).2 = .error (.doubleFree 0) := by
  have hlast : ((table (.ofCount 8)).serve ⟨.scaled, true⟩ true none Operation.roundTrip).2.map
      (·.pool.freePages) = .ok 8 := by decide +kernel
  obtain ⟨m, hm, -⟩ := map_eq_ok_iff.1 hlast
  refine ⟨by decide +kernel,
    (observer_transparent ⟨.scaled, true⟩ _ none Operation.roundTrip).1 m hm, fun tracing ↦ ?_⟩
  have htwice : ((table (.ofCount 8)).serve ⟨.scaled, true⟩ false none
      (Operation.roundTrip ++ [.request (.free ⟨0⟩)])).2 = .error (.doubleFree 0) := by
    decide +kernel
  rcases tracing with - | -
  · exact htwice
  · rw [(observer_transparent ⟨.scaled, true⟩ _ none _).2.1 fun p hp ↦ ?_]
    · exact htwice
    · obtain rfl := Except.ok.inj hp
      decide

end FramePool
