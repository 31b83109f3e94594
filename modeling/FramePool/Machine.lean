import FramePool.DirectMap
import FramePool.Pool.Reference
import FramePool.Pool.Release

/-!
# Machines

A machine is a pool together with the direct map through which the bytes of its blocks are reached.
Handing out a block is an operation of the machine because the block may have to be cleared. All
else that changes a pool leaves the bytes alone, and `Machine.onPool` says so.
-/

namespace FramePool

/-- What to do about a block that is handed out. -/
structure AllocFlags where
  /-- Clear the block. -/
  zero : Bool := false
  /-- Hand out a huge page, where the order is not given. -/
  huge : Bool := false
deriving DecidableEq, Repr

namespace AllocFlags

/-- The bit that stands for clearing the block. -/
def zeroBit : Nat := 1

/-- The bit that stands for a huge page. -/
def hugeBit : Nat := 2

/-- The order of a block whose order is not given. -/
def order (P : Platform) (flags : AllocFlags) : Nat :=
  if flags.huge then P.hugeOrder else baseOrder

end AllocFlags

/-- A pool and the way to the bytes of its blocks. -/
structure Machine where
  /-- The pool. -/
  pool : Pool
  /-- The direct map, once there is one. -/
  directMap : Option DirectMap := none
deriving DecidableEq

namespace Machine

/-- Installs the direct map. -/
def install (direct : DirectMap) (m : Machine) : Except Fault Machine :=
  (direct.install m.directMap).map fun installed ↦ { m with directMap := installed }

/-- Changes the pool and leaves the bytes alone. -/
def onPool (m : Machine) (change : Pool → Traced Pool) : Traced Machine := do
  let ⟨pool, direct⟩ := m
  let pool ← change pool
  return ⟨pool, direct⟩

/-- Sets `len` bytes from the start of a page on. -/
def fill (P : Platform) (direct : Option DirectMap) (page : Page) (len : Nat)
    (value : UInt8) : Except Fault (Option DirectMap) := do
  let a ← page.address P
  let v ← VirtualAddress.directMappedRange P direct a len
  return direct.map (·.fill v len value)

/-- The `len` bytes from the start of a page on, where memory is emulated. -/
def read (P : Platform) (m : Machine) (page : Page) (len : Nat) :
    Except Fault (Option (List UInt8)) := do
  let a ← page.address P
  let v ← VirtualAddress.directMappedRange P m.directMap a len
  return m.directMap.bind (·.slice? v len)

/-- Clears the block of an order that starts at a page, if the flags say so. -/
def clear (P : Platform) (direct : Option DirectMap) (page : Page) (order : Nat)
    (flags : AllocFlags) : Except Fault (Option DirectMap) := do
  if flags.zero then
    let size ← Block.size P order
    fill P direct page size 0
  else
    return direct

/-! ### Handing out blocks -/

/-- Hands out a block of an order, cleared if the flags say so. An error leaves the machine as it
is. -/
def allocOrder (C : Config) (m : Machine) (order : Nat) (flags : AllocFlags) :
    Traced (Except AllocError Page × Machine) := do
  if order < orderCount then
    let ⟨pool, direct⟩ := m
    match ← pool.take C.platform order with
    | (none, pool) =>
      Traced.emit (.exhausted order)
      return (.error .outOfMemory, ⟨pool, direct⟩)
    | (some head, pool) =>
      let pool ← pool.write head fun d ↦ { d with allocated := true }
      let direct ← clear C.platform direct ⟨head⟩ order flags
      pool.verify C
      return (.ok ⟨head⟩, ⟨pool, direct⟩)
  else
    return (.error .orderTooLarge, m)

/-- Hands out a page, or a huge page if the flags say so. -/
def allocPage (C : Config) (m : Machine) (flags : AllocFlags) :
    Traced (Except AllocError Page × Machine) :=
  m.allocOrder C (flags.order C.platform) flags

/-- Hands out a page like `allocPage` with one reference to it. -/
def allocRef (C : Config) (m : Machine) (flags : AllocFlags) :
    Traced (Except AllocError PageRef × Machine) := do
  match ← m.allocPage C flags with
  | (.error e, m) => return (.error e, m)
  | (.ok page, ⟨pool, direct⟩) =>
    let (r, pool) ← pool.ref page
    return (.ok r, ⟨pool, direct⟩)

/-- Hands out blocks of an order until there is none left, at most `limit` of them. Answers the
blocks and the error that ended it, if one did. -/
def drain (C : Config) (m : Machine) (order : Nat) : (limit : Nat) →
    Traced (List Page × Option AllocError × Machine)
  | 0 => return ([], none, m)
  | limit + 1 => do
    match ← m.allocOrder C order {} with
    | (.error e, m) => return ([], some e, m)
    | (.ok page, m) =>
      let (pages, stop, m) ← drain C m order limit
      return (page :: pages, stop, m)

/-! ### Handing over memory and giving blocks back -/

/-- Hands `count` frames from `first` on to the pool. -/
def releaseRange (C : Config) (m : Machine) (first : Frame) (count : Nat) : Traced Machine :=
  m.onPool fun p ↦ p.releaseRange C first count

/-- Gives the block of a page back. -/
def free (C : Config) (m : Machine) (page : Page) : Traced Machine :=
  m.onPool fun p ↦ p.free C page

/-- Counts one more reference to the block of a page. -/
def incref (m : Machine) (page : Page) : Traced Machine :=
  m.onPool fun p ↦ p.incref page

/-- Counts one reference less to the block of a page. -/
def decref (C : Config) (m : Machine) (page : Page) : Traced Machine :=
  m.onPool fun p ↦ p.decref C page

/-- Takes a reference to the block of a page. -/
def ref (m : Machine) (page : Page) : Traced (PageRef × Machine) := do
  let ⟨pool, direct⟩ := m
  let (r, pool) ← pool.ref page
  return (r, ⟨pool, direct⟩)

/-- Gives a reference back. -/
def unref (C : Config) (m : Machine) (r : PageRef) : Traced Machine :=
  m.onPool fun p ↦ p.unref C r

end Machine

end FramePool
