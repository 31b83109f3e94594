import FramePool.Address.Physical
import FramePool.Text.Hex
import FramePool.Text.Size

/-!
# Events and traced computations

An operation says what happened as a list of events, which are data. Only an observer turns them
into text, and that is where tracing can matter: two of the texts contain the address of a frame,
and a frame beyond the physical address space has none. `Traced.run` is the observer. Without
tracing it forgets the events; with tracing it renders them in order, and the first one that has no
text ends the run in place of whatever came after it.
-/

namespace FramePool

-- Powers are those of the core library, whatever else is imported.
attribute [local instance (high)] instPowNat

/-- How urgent a record is. -/
inductive Level where
  | trace
  | debug
  | info
deriving DecidableEq, Repr

/-- How a level is spelled in front of a record. -/
def Level.text : Level → String
  | trace => "TRACE"
  | debug => "DEBUG"
  | info => "INFO"

/-- What an operation reports. -/
inductive Event where
  /-- A table of that many frames is about to be built. -/
  | building (frames : Nat)
  /-- A pool was built from a boot map. -/
  | ready (frames free : Nat)
  /-- A free block was taken for a request of another or the same order. -/
  | found (order : Nat) (head : Frame) (requested : Nat)
  /-- A block was halved down to an order. -/
  | halved (head : Frame) (order : Nat)
  /-- A block was merged with its buddy. -/
  | merged (order : Nat) (head buddy : Frame)
  /-- No block was left for a request. -/
  | exhausted (order : Nat)
  /-- A block came back and is now part of a free block. -/
  | freed (page : Frame) (order : Nat) (head : Frame)
  /-- A shared pool was given a pool. -/
  | online (free total : Nat)
deriving DecidableEq, Repr

/-- A line of the trace. -/
structure Record where
  /-- How urgent it is. -/
  level : Level
  /-- What it says. -/
  text : String
deriving DecidableEq, Repr

/-- The line with its level in front. -/
def Record.line (r : Record) : String := s!"{r.level.text} {r.text}"

/-- The text of the address at which a frame starts. -/
def Frame.addressText (P : Platform) (f : Frame) : Except Fault String :=
  (f.start P).map fun a ↦ Text.address a.value

/-- The record of an event, if the frames whose address it shows have one. -/
def Event.render (P : Platform) : Event → Except Fault Record
  | building frames =>
    let size := Text.size (frames * P.pageSize)
    .ok ⟨.trace, s!"building frame table with {frames} frames for {size} of memory"⟩
  | ready frames free =>
    let size := Text.size (free * P.pageSize)
    .ok ⟨.debug, s!"page allocator ready: {frames} frames, {size} free"⟩
  | found order head requested => do
    let address ← head.addressText P
    return ⟨.trace,
      s!"found order-{order} block at {address} for an order-{requested} request"⟩
  | halved head order => .ok ⟨.trace, s!"split frame {head} down to order {order}"⟩
  | merged order head buddy =>
    .ok ⟨.trace, s!"merging order-{order} buddies {head} and {buddy}"⟩
  | exhausted order =>
    let size := Text.size (2 ^ order * P.pageSize)
    .ok ⟨.debug, s!"no free block for order {order} ({size})"⟩
  | freed page order head => do
    let target ← head.addressText P
    let address ← page.addressText P
    return ⟨.trace, s!"freed page {address} into order-{order} block at {target}"⟩
  | online free total =>
    .ok ⟨.info, s!"page allocator online: {free} of {total} pages free"⟩

/-- A computation that may fault, with the events it reported before it ended. -/
structure Traced (α : Type) where
  /-- What it reported, in order. -/
  events : List Event
  /-- How it ended. -/
  result : Except Fault α

namespace Traced

variable {α β : Type}

/-- Reports one event. -/
def emit (e : Event) : Traced Unit := ⟨[e], .ok ()⟩

/-- Ends with a fault. -/
def fail (fault : Fault) : Traced α := ⟨[], .error fault⟩

/-- A computation that reports nothing. -/
def ofExcept (x : Except Fault α) : Traced α := ⟨[], x⟩

instance : Monad Traced where
  pure a := ⟨[], .ok a⟩
  bind x f :=
    match x.result with
    | .ok a => ⟨x.events ++ (f a).events, (f a).result⟩
    | .error fault => ⟨x.events, .error fault⟩

instance : MonadLift (Except Fault) Traced := ⟨ofExcept⟩

theorem bind_of_ok {x : Traced α} {a : α} (h : x.result = .ok a) (f : α → Traced β) :
    x >>= f = ⟨x.events ++ (f a).events, (f a).result⟩ := by
  simp [bind, h]

theorem bind_of_error {x : Traced α} {fault : Fault} (h : x.result = .error fault)
    (f : α → Traced β) : x >>= f = ⟨x.events, .error fault⟩ := by
  simp [bind, h]

/-- Forgetting the events commutes with sequencing: without an observer, a traced computation is a
computation that may fault. -/
@[simp] theorem result_bind (x : Traced α) (f : α → Traced β) :
    (x >>= f).result = x.result >>= fun a ↦ (f a).result := by
  cases h : x.result with
  | error fault => rw [bind_of_error h]; rfl
  | ok a => rw [bind_of_ok h]; rfl

@[simp] theorem result_pure (a : α) : (pure a : Traced α).result = .ok a := rfl

@[simp] theorem events_pure (a : α) : (pure a : Traced α).events = [] := rfl

@[simp] theorem result_emit (e : Event) : (emit e).result = .ok () := rfl

@[simp] theorem events_emit (e : Event) : (emit e).events = [e] := rfl

@[simp] theorem result_fail (fault : Fault) : (fail fault : Traced α).result = .error fault := rfl

@[simp] theorem events_fail (fault : Fault) : (fail fault : Traced α).events = [] := rfl

@[simp] theorem result_ofExcept (x : Except Fault α) : (ofExcept x).result = x := rfl

@[simp] theorem events_ofExcept (x : Except Fault α) : (ofExcept x).events = [] := rfl

instance : LawfulMonad Traced := LawfulMonad.mk' Traced
  (fun x ↦ by rcases x with ⟨events, fault | a⟩ <;> simp [Functor.map])
  (fun a f ↦ by simp [bind, pure])
  (fun x f g ↦ by
    rcases x with ⟨events, fault | a⟩
    · rfl
    · rcases h : (f a).result with fault | b <;> simp [bind, h])

/-- Renders events in order, up to the first one that has no text. -/
def renderAll (P : Platform) : List Event → List Record × Except Fault Unit
  | [] => ([], .ok ())
  | e :: es =>
    match e.render P with
    | .error fault => ([], .error fault)
    | .ok record =>
      let (records, rest) := renderAll P es
      (record :: records, rest)

/-- Runs a computation with or without an observer, who writes down the records. -/
def run (P : Platform) (tracing : Bool) (x : Traced α) : List Record × Except Fault α :=
  if tracing then
    let (records, rendered) := renderAll P x.events
    (records, rendered >>= fun _ ↦ x.result)
  else
    ([], x.result)

end Traced

end FramePool
