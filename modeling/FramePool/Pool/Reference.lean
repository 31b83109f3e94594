import FramePool.Pool.Check
import FramePool.Pool.Coalesce

/-!
# Giving blocks back and counting references

A block that was handed out comes back at once (`free`), which it may while nobody holds a
reference to it, or when the last reference to it is dropped (`decref`). Each operation refuses a
page that heads no allocated block.
-/

namespace FramePool.Pool

/-- Puts the block of a page back on the free lists. -/
def free (C : Config) (p : Pool) (page : Page) : Traced Pool := do
  let d ← p.describe page
  require (d.reserved = false) (.freeReserved page.frame)
  require (d.allocated = true) (.doubleFree page.frame)
  require (d.refs = 0) (.freeReferenced page.frame d.refs)
  let p ← p.write page.frame fun d ↦ { d with allocated := false }
  let (head, order, p) ← p.merge C.platform page.frame
  Traced.emit (.freed page.frame order head)
  p.verify C
  return p

/-- Counts one more reference to the block of a page. -/
def incref (p : Pool) (page : Page) : Except Fault Pool := do
  let d ← p.describe page
  require (d.allocated = true) (.increfUnallocated page.frame)
  let refs ← d.refsUp
  p.write page.frame fun d ↦ { d with refs := refs }

/-- Counts one reference less to the block of a page. The block comes back with the last one. -/
def decref (C : Config) (p : Pool) (page : Page) : Traced Pool := do
  let d ← p.describe page
  require (d.allocated = true) (.decrefUnallocated page.frame)
  let refs ← d.refsDown
  let p ← p.write page.frame fun d ↦ { d with refs := refs }
  if refs = 0 then p.free C page else return p

/-- Takes a reference to the block of a page. -/
def ref (p : Pool) (page : Page) : Except Fault (PageRef × Pool) :=
  (p.incref page).map fun p ↦ (⟨page⟩, p)

/-- Gives a reference back. -/
def unref (C : Config) (p : Pool) (r : PageRef) : Traced Pool := p.decref C r.page

end FramePool.Pool
