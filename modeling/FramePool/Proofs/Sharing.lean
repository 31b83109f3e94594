import FramePool.Proofs.Events
import FramePool.Shared

/-!
# Sharing: the place and the machine inside

Calls of a shared pool come one after the other, in whatever order, until one of them has a fault.
What comes of them (`outcomes`) is what each reports and answers, together with the state after it.

While the place is empty it answers from a table of its own, `Use.unserved`, and stays as it is
(`Use.onShared_empty`). Once a pool is in it, each call is that of the machine inside, with the same
reports, the same answer and the same state after it (`Call.onShared_shared`). Steps that are others
with the state seen through a function have the outcomes of those, seen through it (`outcomes_map`),
which takes this from single calls to all that follow.

The two answers of `withMachine` are joined for a request, so an error of the pool could pass for
one of the place. It does not, since a machine never says that there is no pool
(`Call.within_onMachine`).
-/

namespace FramePool

open Traced

variable {α β κ ρ σ σ' : Type} {P : Platform} {C : Config} {tracing : Bool}

/-! ### Outcomes -/

/-- What comes of calls one after the other, up to the first fault: what each reports, and what it
answers with the state after it. -/
def outcomes (P : Platform) (tracing : Bool) (act : σ → κ → Traced (ρ × σ)) :
    List κ → σ → List (List Record × Except Fault (ρ × σ))
  | [], _ => []
  | c :: cs, s =>
    let outcome := (act s c).run P tracing
    outcome :: match outcome.2 with
      | .ok (_, s) => outcomes P tracing act cs s
      | .error _ => []

/-- The same outcome with the state seen through a function. -/
def seenThrough (f : σ → σ') (outcome : List Record × Except Fault (ρ × σ)) :
    List Record × Except Fault (ρ × σ') :=
  (outcome.1, outcome.2.map fun (r, s) ↦ (r, f s))

theorem Traced.run_ofExcept (x : Except Fault α) : (ofExcept x).run P tracing = ([], x) := by
  cases tracing <;> rfl

/-- A change of the answer is not reported. -/
theorem Traced.run_map (f : α → β) (x : Traced α) :
    (f <$> x).run P tracing = ((x.run P tracing).1, (x.run P tracing).2.map f) := by
  have hevents : (f <$> x).events = x.events := by
    rw [← bind_pure_comp]
    rcases hx : x.result with fault | a
    · rw [bind_of_error hx]
    · rw [bind_of_ok hx, events_pure, List.append_nil]
  rw [run, run, hevents, result_map]
  cases tracing with
  | false => rfl
  | true =>
    rcases renderAll P x.events with ⟨records, fault | u⟩
    · rfl
    · rfl

section Outcomes

variable {act : σ → κ → Traced (ρ × σ)} {act' : σ' → κ → Traced (ρ × σ')} {s s' : σ} {c : κ}
  {cs : List κ} {records : List Record}

theorem outcomes_cons_of_ok {r : ρ} (h : (act s c).run P tracing = (records, .ok (r, s'))) :
    outcomes P tracing act (c :: cs) s =
      (records, .ok (r, s')) :: outcomes P tracing act cs s' := by
  rw [outcomes, h]

theorem outcomes_cons_of_error {fault : Fault}
    (h : (act s c).run P tracing = (records, .error fault)) :
    outcomes P tracing act (c :: cs) s = [(records, .error fault)] := by
  rw [outcomes, h]

/-- **Steps seen through a function.** Where each step is another one with the state seen through
`f`, so are the outcomes of steps one after the other. -/
theorem outcomes_map {f : σ → σ'}
    (h : ∀ s c, act' (f s) c = (fun (r, s) ↦ (r, f s)) <$> act s c) (cs : List κ) (s : σ) :
    outcomes P tracing act' cs (f s) = (outcomes P tracing act cs s).map (seenThrough f) := by
  induction cs generalizing s with
  | nil => rfl
  | cons c cs ih =>
    have hrun : (act' (f s) c).run P tracing = seenThrough f ((act s c).run P tracing) := by
      rw [h, run_map]
      rfl
    rcases hact : (act s c).run P tracing with ⟨records, fault | ⟨r, s'⟩⟩
    · rw [outcomes_cons_of_error hact, outcomes_cons_of_error (hrun.trans (congrArg _ hact))]
      rfl
    · rw [outcomes_cons_of_ok hact, outcomes_cons_of_ok (hrun.trans (congrArg _ hact)), ih]
      rfl

/-- What each step answers is answered all along. -/
theorem of_mem_outcomes {Q : ρ → Prop}
    (h : ∀ s c r s', (act s c).result = .ok (r, s') → Q r) {o : List Record × Except Fault (ρ × σ)}
    (ho : o ∈ outcomes P tracing act cs s) {r : ρ} (hr : o.2 = .ok (r, s')) : Q r := by
  induction cs generalizing s with
  | nil => cases ho
  | cons c cs ih =>
    rcases hact : (act s c).run P tracing with ⟨records, fault | ⟨r₁, s₁⟩⟩
    · rw [outcomes_cons_of_error hact, List.mem_singleton] at ho
      rw [ho] at hr
      cases hr
    · rw [outcomes_cons_of_ok hact] at ho
      rcases List.mem_cons.1 ho with rfl | ho
      · obtain ⟨rfl, rfl⟩ := Prod.mk.inj (Except.ok.inj hr)
        exact h s c _ _ (run_eq_ok_iff.1 (congrArg Prod.snd hact)).1
      · exact ih ho

end Outcomes

/-! ### Calls -/

/-- The place with the pool of a machine in it. -/
def Machine.shared (m : Machine) : Shared := ⟨some m.pool, m.directMap⟩

namespace Shared

/-- The place with no pool in it yet. -/
def empty (direct : Option DirectMap) : Shared := ⟨none, direct⟩

/-- A call of a shared pool, other than to give it its pool. What the operations answer that are
run on the machine inside is of one type, which may be a sum. -/
inductive Use (α : Type) where
  /-- Asks whether there is a pool. -/
  | isInitialized
  /-- Runs an operation on the machine inside. -/
  | withMachine (op : Machine → Traced (α × Machine))
  /-- Asks for a page, or for a huge page. -/
  | allocPage (flags : AllocFlags)
  /-- Asks for a block of an order. -/
  | allocOrder (order : Nat) (flags : AllocFlags)
  /-- Asks for a page with one reference to it. -/
  | allocRef (flags : AllocFlags)
  /-- Gives a block back. -/
  | free (page : Page)
  /-- Counts one more reference. -/
  | incref (page : Page)
  /-- Counts one reference less. -/
  | decref (page : Page)
  /-- Gives a reference back. -/
  | unref (r : PageRef)
  /-- Asks for the counters. -/
  | stats

/-- A call of a shared pool. -/
inductive Call (α : Type) where
  /-- Gives it its pool. -/
  | init (p : Pool)
  /-- Uses it. -/
  | use (u : Use α)

/-- What a call answers. -/
inductive Reply (α : Type) where
  /-- It was done. -/
  | done
  /-- Whether there is a pool. -/
  | flag (b : Bool)
  /-- A page, or why there is none. -/
  | page (r : Except AllocError Page)
  /-- A page with a reference to it, or why there is none. -/
  | handle (r : Except AllocError PageRef)
  /-- What an operation on the machine answered, or why it was not run. -/
  | ran (r : Except AllocError α)
  /-- The counters, if there are any. -/
  | stats (r : Option Stats)
deriving DecidableEq

/-- The error is the one of a place without a pool. -/
def isUninitialized : Except AllocError β → Bool
  | .error .uninitialized => true
  | _ => false

/-- The answer is that there is no pool. -/
def Reply.saysEmpty : Reply α → Bool
  | done => false
  | flag b => !b
  | page r => isUninitialized r
  | handle r => isUninitialized r
  | ran r => isUninitialized r
  | stats r => r.isNone

/-- Makes a call. -/
def Use.onShared (C : Config) (s : Shared) : Use α → Traced (Reply α × Shared)
  | isInitialized => return (.flag s.isInitialized, s)
  | withMachine op => (fun (r, s) ↦ (.ran r, s)) <$> s.withMachine op
  | allocPage flags => (fun (r, s) ↦ (.page r, s)) <$> s.allocPage C flags
  | allocOrder order flags => (fun (r, s) ↦ (.page r, s)) <$> s.allocOrder C order flags
  | allocRef flags => (fun (r, s) ↦ (.handle r, s)) <$> s.allocRef C flags
  | free page => (.done, ·) <$> s.free C page
  | incref page => (.done, ·) <$> s.incref page
  | decref page => (.done, ·) <$> s.decref C page
  | unref r => (.done, ·) <$> s.unref C r
  | stats => return (.stats s.stats, s)

@[inherit_doc Use.onShared]
def Call.onShared (C : Config) (s : Shared) : Call α → Traced (Reply α × Shared)
  | init p => (.done, ·) <$> s.init p
  | use u => u.onShared C s

/-- Makes the same call of a machine that nobody shares. -/
def Use.onMachine (C : Config) (m : Machine) : Use α → Traced (Reply α × Machine)
  | isInitialized => return (.flag true, m)
  | withMachine op => (fun (a, m) ↦ (.ran (.ok a), m)) <$> op m
  | allocPage flags => (fun (r, m) ↦ (.page r, m)) <$> m.allocPage C flags
  | allocOrder order flags => (fun (r, m) ↦ (.page r, m)) <$> m.allocOrder C order flags
  | allocRef flags => (fun (r, m) ↦ (.handle r, m)) <$> m.allocRef C flags
  | free page => (.done, ·) <$> m.free C page
  | incref page => (.done, ·) <$> m.incref page
  | decref page => (.done, ·) <$> m.decref C page
  | unref r => (.done, ·) <$> m.unref C r
  | stats => return (.stats (some m.pool.stats), m)

/-- Makes the same call of a machine that nobody shares. It has its pool, and gets no other. -/
def Call.onMachine (C : Config) (m : Machine) : Call α → Traced (Reply α × Machine)
  | init _ => Traced.fail .alreadyInitialized
  | use u => u.onMachine C m

/-- What a call comes to when there is no pool. -/
def Use.unserved : Use α → Except Fault (Reply α)
  | isInitialized => .ok (.flag false)
  | withMachine _ => .ok (.ran (.error .uninitialized))
  | allocPage _ => .ok (.page (.error .uninitialized))
  | allocOrder _ _ => .ok (.page (.error .uninitialized))
  | allocRef _ => .ok (.handle (.error .uninitialized))
  | free _ => .error .usedBeforeInit
  | incref _ => .error .usedBeforeInit
  | decref _ => .error .usedBeforeInit
  | unref _ => .error .usedBeforeInit
  | stats => .ok (.stats none)

/-! ### While the place is empty -/

/-- **The empty place** answers from the table, reports nothing and stays empty. -/
theorem Use.onShared_empty (C : Config) (direct : Option DirectMap) (u : Use α) :
    u.onShared C (empty direct) = ofExcept (u.unserved.map (·, empty direct)) := by
  cases u <;> rfl

theorem Use.saysEmpty_of_unserved {u : Use α} {r : Reply α} (h : u.unserved = .ok r) :
    r.saysEmpty := by
  cases u <;> cases h <;> rfl

theorem Use.eq_usedBeforeInit_of_unserved {u : Use α} {fault : Fault}
    (h : u.unserved = .error fault) : fault = .usedBeforeInit := by
  cases u <;> cases h <;> rfl

/-! ### With a pool in it -/

section Filled

variable {m : Machine}

theorem withMachine_shared (op : Machine → Traced (α × Machine)) :
    m.shared.withMachine op = (fun (a, m) ↦ (.ok a, m.shared)) <$> op m := by
  rw [← bind_pure_comp]
  rfl

/-- The answer to a request is that of the machine: its two errors are joined, but the outer one
does not occur. -/
theorem request_shared (op : Machine → Traced (Except AllocError α × Machine)) :
    m.shared.request op = (fun (r, m) ↦ (r, m.shared)) <$> op m := by
  rw [request, withMachine_shared, bind_map_left, ← bind_pure_comp]
  rfl

theorem change_shared (op : Machine → Traced Machine) :
    m.shared.change op = Machine.shared <$> op m := by
  rw [change, withMachine_shared, bind_map_left, bind_assoc, ← bind_pure_comp]
  rfl

/-- A request is answered alike, whatever kind of reply this makes. -/
theorem reply_request (reply : Except AllocError α → Reply β)
    (op : Machine → Traced (Except AllocError α × Machine)) :
    (fun (r, s) ↦ (reply r, s)) <$> m.shared.request op =
      (fun (r, m) ↦ (r, m.shared)) <$> (fun (r, m) ↦ (reply r, m)) <$> op m := by
  rw [request_shared, Functor.map_map, Functor.map_map]

theorem reply_change (reply : Reply β) (op : Machine → Traced Machine) :
    (reply, ·) <$> m.shared.change op =
      (fun (r, m) ↦ (r, m.shared)) <$> (reply, ·) <$> op m := by
  rw [change_shared, Functor.map_map, Functor.map_map]

/-- **A use** of a pool in its place is that of the machine. -/
theorem Use.onShared_shared (C : Config) (m : Machine) (u : Use α) :
    u.onShared C m.shared = (fun (r, m) ↦ (r, m.shared)) <$> u.onMachine C m := by
  cases u with
  | isInitialized => rfl
  | withMachine op =>
    rw [onShared, onMachine, withMachine_shared, Functor.map_map, Functor.map_map]
  | allocPage flags => exact reply_request .page _
  | allocOrder order flags => exact reply_request .page _
  | allocRef flags => exact reply_request .handle _
  | free page => exact reply_change .done _
  | incref page => exact reply_change .done _
  | decref page => exact reply_change .done _
  | unref r => exact reply_change .done _
  | stats => rfl

/-- So is any call, as the place is not filled twice. -/
theorem Call.onShared_shared (C : Config) (m : Machine) (c : Call α) :
    c.onShared C m.shared = (fun (r, m) ↦ (r, m.shared)) <$> c.onMachine C m := by
  cases c with
  | init p => rfl
  | use u => exact u.onShared_shared C m

end Filled

end Shared

/-! ### Who says that there is no pool -/

namespace Machine

variable {m : Machine} {order : Nat} {flags : AllocFlags}

/-- A machine does not refuse a block because there is no pool. -/
theorem allocOrder_ne_uninitialized :
    (m.allocOrder C order flags).Within (fun _ ↦ True) fun r ↦ r.1 ≠ .error .uninitialized := by
  rw [allocOrder]
  split
  · refine (within_true _).bind fun r _ ↦ ?_
    obtain ⟨head | head, p⟩ := r
    · exact (within_true _).bind fun _ _ ↦ within_pure (by rintro ⟨⟩)
    · refine (within_true _).bind fun p₁ _ ↦ (within_true _).bind fun direct _ ↦ ?_
      exact (within_true _).bind fun _ _ ↦ within_pure (by rintro ⟨⟩)
  · exact within_pure (by rintro ⟨⟩)

theorem allocRef_ne_uninitialized :
    (m.allocRef C flags).Within (fun _ ↦ True) fun r ↦ r.1 ≠ .error .uninitialized := by
  refine allocOrder_ne_uninitialized.bind fun r hr ↦ ?_
  obtain ⟨e | page, m₁⟩ := r
  · exact within_pure fun h ↦ hr (congrArg _ (Except.error.inj h))
  · exact (within_true _).bind fun _ _ ↦ within_pure (by rintro ⟨⟩)

end Machine

namespace Shared

theorem isUninitialized_eq_false {r : Except AllocError β} (h : r ≠ .error .uninitialized) :
    isUninitialized r = false := by
  rcases r with (_ | _ | _) | b
  · rfl
  · rfl
  · exact absurd rfl h
  · rfl

/-- **A machine never says** that there is no pool. -/
theorem Call.within_onMachine (C : Config) (m : Machine) (c : Call α) :
    (c.onMachine C m).Within (fun _ ↦ True) fun r ↦ r.1.saysEmpty = false := by
  have hdone : ∀ x : Traced Machine,
      (((.done : Reply α), ·) <$> x).Within (fun _ ↦ True) fun r ↦ r.1.saysEmpty = false :=
    fun x ↦ (within_true x).map fun _ _ ↦ rfl
  rcases c with p | u
  · exact ⟨fun _ _ ↦ trivial, fun _ h ↦ by cases h⟩
  · cases u with
    | isInitialized => exact within_pure rfl
    | withMachine op => exact (within_true (op m)).map fun _ _ ↦ rfl
    | allocPage flags =>
      exact Machine.allocOrder_ne_uninitialized.map fun _ ↦ isUninitialized_eq_false
    | allocOrder order flags =>
      exact Machine.allocOrder_ne_uninitialized.map fun _ ↦ isUninitialized_eq_false
    | allocRef flags => exact Machine.allocRef_ne_uninitialized.map fun _ ↦ isUninitialized_eq_false
    | free page => exact hdone _
    | incref page => exact hdone _
    | decref page => exact hdone _
    | unref r => exact hdone _
    | stats => exact within_pure rfl

/-! ### All calls -/

/-- The record of a pool that is put in its place, with an observer. -/
def announced (tracing : Bool) (p : Pool) : List Record :=
  if tracing then
    [⟨.info, s!"page allocator online: {p.freePages} of {p.total} pages free"⟩]
  else
    []

/-- What comes of uses while there is no pool. -/
def unservedOutcomes (direct : Option DirectMap) (us : List (Use α)) :
    List (List Record × Except Fault (Reply α × Shared)) :=
  us.map fun u ↦ ([], u.unserved.map (·, empty direct))

section Empty

variable {direct : Option DirectMap} {calls : List (Call α)} {u : Use α}

theorem run_use_empty (C : Config) (tracing : Bool) (direct : Option DirectMap) (u : Use α) :
    ((.use u : Call α).onShared C (empty direct)).run C.platform tracing =
      ([], u.unserved.map (·, empty direct)) := by
  rw [Call.onShared, Use.onShared_empty, run_ofExcept]

theorem run_init_empty (p : Pool) :
    ((.init p : Call α).onShared C (empty direct)).run C.platform tracing =
      (announced tracing p, .ok (.done, Machine.shared ⟨p, direct⟩)) := by
  cases tracing <;> rfl

/-- A use that is answered in the empty place is followed by calls in the empty place. -/
theorem outcomes_use_empty {r : Reply α} (hu : u.unserved = .ok r) :
    outcomes C.platform tracing (Call.onShared C) (.use u :: calls) (empty direct) =
      ([], u.unserved.map (·, empty direct)) ::
        outcomes C.platform tracing (Call.onShared C) calls (empty direct) := by
  have hrun := run_use_empty C tracing direct u
  rw [hu] at hrun ⊢
  exact outcomes_cons_of_ok hrun

/-- Other uses are faults there. -/
theorem outcomes_use_empty_of_error {fault : Fault} (hu : u.unserved = .error fault) :
    outcomes C.platform tracing (Call.onShared C) (.use u :: calls) (empty direct) =
      [([], .error fault)] := by
  have hrun := run_use_empty C tracing direct u
  rw [hu] at hrun
  exact outcomes_cons_of_error hrun

/-- **Once a pool is put in its place**, all that comes of the calls comes of the machine inside. -/
theorem outcomes_init_empty (p : Pool) :
    outcomes C.platform tracing (Call.onShared C) (.init p :: calls) (empty direct) =
      (announced tracing p, .ok (.done, Machine.shared ⟨p, direct⟩)) ::
        (outcomes C.platform tracing (Call.onMachine C) calls ⟨p, direct⟩).map
          (seenThrough Machine.shared) := by
  rw [outcomes_cons_of_ok (run_init_empty p), outcomes_map (Call.onShared_shared C)]

end Empty

/-- No answer of a machine is that there is no pool, whatever it is called for. -/
theorem saysEmpty_of_mem_outcomes {m m' : Machine} {calls : List (Call α)}
    {o : List Record × Except Fault (Reply α × Machine)} {r : Reply α}
    (ho : o ∈ outcomes P tracing (Call.onMachine C) calls m) (hr : o.2 = .ok (r, m')) :
    r.saysEmpty = false :=
  of_mem_outcomes (Q := fun r ↦ r.saysEmpty = false)
    (fun m c r m' h ↦ (c.within_onMachine C m).answers (r, m') h) ho hr

/-- **A shared pool is its machine.** Let calls be made of a place that starts out empty, one after
the other and in whatever order, up to the first fault. Before the first `init` a use of the place
is answered that there is no pool, or is a fault if it gives something back or counts a reference;
nothing is recorded, and the place stays empty. The first `init` puts its pool there. From then on
what comes of the calls, which is their records, their answers and the state after each of them, is
what comes of the same calls of the machine inside, where another `init` is a fault. No answer is
any longer that there is no pool. -/
theorem refines_machine (C : Config) (tracing : Bool) (direct : Option DirectMap)
    (calls : List (Call α)) :
    ∃ before : List (Use α), (∀ u ∈ before, ∃ r, u.unserved = .ok r ∧ r.saysEmpty) ∧
      ((calls = before.map .use ∧
          outcomes C.platform tracing (Call.onShared C) calls (empty direct) =
            unservedOutcomes direct before) ∨
        (∃ u rest, calls = before.map .use ++ .use u :: rest ∧
          u.unserved = .error .usedBeforeInit ∧
          outcomes C.platform tracing (Call.onShared C) calls (empty direct) =
            unservedOutcomes direct before ++ [([], .error .usedBeforeInit)]) ∨
        ∃ p after, calls = before.map .use ++ .init p :: after ∧
          outcomes C.platform tracing (Call.onShared C) calls (empty direct) =
            unservedOutcomes direct before ++
              (announced tracing p, .ok (.done, Machine.shared ⟨p, direct⟩)) ::
                (outcomes C.platform tracing (Call.onMachine C) after ⟨p, direct⟩).map
                  (seenThrough Machine.shared) ∧
          ∀ o ∈ outcomes C.platform tracing (Call.onMachine C) after ⟨p, direct⟩,
            ∀ r m, o.2 = .ok (r, m) → r.saysEmpty = false) := by
  induction calls with
  | nil => exact ⟨[], fun _ hu ↦ absurd hu List.not_mem_nil, .inl ⟨rfl, rfl⟩⟩
  | cons c calls ih =>
    rcases c with p | u
    · exact ⟨[], fun _ hu ↦ absurd hu List.not_mem_nil, .inr (.inr ⟨p, calls, rfl,
        outcomes_init_empty p, fun o ho r m ↦ saysEmpty_of_mem_outcomes ho⟩)⟩
    · rcases hu : u.unserved with fault | r
      · obtain rfl := Use.eq_usedBeforeInit_of_unserved hu
        exact ⟨[], fun _ hu ↦ absurd hu List.not_mem_nil, .inr (.inl ⟨u, calls, rfl, hu,
          outcomes_use_empty_of_error hu⟩)⟩
      · obtain ⟨before, hbefore, hcases⟩ := ih
        refine ⟨u :: before, List.forall_mem_cons.2
          ⟨⟨r, hu, Use.saysEmpty_of_unserved hu⟩, hbefore⟩, ?_⟩
        rw [outcomes_use_empty hu]
        rcases hcases with ⟨rfl, h⟩ | ⟨u', rest, rfl, hu', h⟩ | ⟨p, after, rfl, h, hsays⟩
        · exact .inl ⟨rfl, congrArg _ h⟩
        · exact .inr (.inl ⟨u', rest, rfl, hu', congrArg _ h⟩)
        · exact .inr (.inr ⟨p, after, rfl, congrArg _ h, hsays⟩)

/-- A pool with no free block refuses a page for another reason than an empty place. -/
example :
    let C : Config := ⟨.scaled, true⟩
    let p := Pool.ofTable (.ofCount 8)
    let release := fun m : Machine ↦ ((), ·) <$> m.releaseRange C 0 8
    (outcomes C.platform true (Call.onShared C)
        [.use (.allocPage {}), .init p, .use (.allocPage {}), .use (.withMachine release),
          .use (.allocPage {}), .init p] (empty none)).map (·.2.map (·.1)) =
      [.ok (.page (.error .uninitialized)), .ok .done, .ok (.page (.error .outOfMemory)),
        .ok (.ran (.ok ())), .ok (.page (.ok ⟨0⟩)), .error .alreadyInitialized] := by
  decide +kernel

end Shared

end FramePool
