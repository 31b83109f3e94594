import FramePool.Machine

/-!
# The shared pool

A place for one pool that starts out empty and is filled once. While it is empty a request for a
block is answered with an error, and giving a block back is a fault; once it is filled every
operation is that of the machine inside.
-/

namespace FramePool

/-- A place for one pool, and the direct map of the machine. -/
structure Shared where
  /-- The pool, once there is one. -/
  pool : Option Pool := none
  /-- The direct map, once there is one. -/
  directMap : Option DirectMap := none
deriving DecidableEq

namespace Shared

/-- Whether there is a pool. -/
def isInitialized (s : Shared) : Bool := s.pool.isSome

/-- Puts a pool in its place, which must be empty. -/
def init (s : Shared) (p : Pool) : Traced Shared := do
  require (s.isInitialized = false) .alreadyInitialized
  Traced.emit (.online p.freePages p.total)
  return { s with pool := some p }

/-- Installs the direct map. -/
def install (direct : DirectMap) (s : Shared) : Except Fault Shared :=
  (direct.install s.directMap).map fun installed ↦ { s with directMap := installed }

/-- Runs an operation on the machine inside, if there is one. -/
def withMachine {α : Type} (s : Shared) (op : Machine → Traced (α × Machine)) :
    Traced (Except AllocError α × Shared) :=
  match s with
  | ⟨none, direct⟩ => return (.error .uninitialized, ⟨none, direct⟩)
  | ⟨some pool, direct⟩ => do
    let (a, m) ← op ⟨pool, direct⟩
    return (.ok a, ⟨some m.pool, m.directMap⟩)

/-- Runs a request for a block on the machine inside, if there is one. -/
def request {α : Type} (s : Shared) (op : Machine → Traced (Except AllocError α × Machine)) :
    Traced (Except AllocError α × Shared) := do
  let (answer, s) ← s.withMachine op
  return (answer.bind id, s)

/-- Runs an operation on the machine inside, which must be there. -/
def change (s : Shared) (op : Machine → Traced Machine) : Traced Shared := do
  match ← s.withMachine fun m ↦ return ((), ← op m) with
  | (.ok (), s) => return s
  | (.error _, _) => Traced.fail .usedBeforeInit

/-- Hands out a block of an order. -/
def allocOrder (C : Config) (s : Shared) (order : Nat) (flags : AllocFlags) :
    Traced (Except AllocError Page × Shared) :=
  s.request fun m ↦ m.allocOrder C order flags

/-- Hands out a page, or a huge page if the flags say so. -/
def allocPage (C : Config) (s : Shared) (flags : AllocFlags) :
    Traced (Except AllocError Page × Shared) :=
  s.request fun m ↦ m.allocPage C flags

/-- Hands out a page with one reference to it. -/
def allocRef (C : Config) (s : Shared) (flags : AllocFlags) :
    Traced (Except AllocError PageRef × Shared) :=
  s.request fun m ↦ m.allocRef C flags

/-- Gives the block of a page back. -/
def free (C : Config) (s : Shared) (page : Page) : Traced Shared :=
  s.change fun m ↦ m.free C page

/-- Counts one more reference to the block of a page. -/
def incref (s : Shared) (page : Page) : Traced Shared :=
  s.change fun m ↦ m.incref page

/-- Counts one reference less to the block of a page. -/
def decref (C : Config) (s : Shared) (page : Page) : Traced Shared :=
  s.change fun m ↦ m.decref C page

/-- Gives a reference back. -/
def unref (C : Config) (s : Shared) (r : PageRef) : Traced Shared :=
  s.change fun m ↦ m.unref C r

/-- A snapshot of the counters, if there is a pool. -/
def stats (s : Shared) : Option Stats := s.pool.map Pool.stats

end Shared

end FramePool
