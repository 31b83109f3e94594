/-!
# Platforms

How large a page is and how wide addresses are. Blocks come in ten orders on every platform; a
platform says how many bytes the frames have that a block is made of. The fields that are proofs
are what makes these numbers a platform: a huge page is a block of some order, the largest block
fits the physical address space, and a table can have all the frames that have an address. How large
a table can be does not depend on the platform: it is an object in memory, with a descriptor of a
fixed size for each frame.
-/

namespace FramePool

-- Powers are those of the core library, whatever else is imported.
attribute [local instance (high)] instPowNat

/-- The number of block orders. Orders are the numbers below it. -/
def orderCount : Nat := 10

/-- The order of a single page. -/
def baseOrder : Nat := 0

/-- The largest order. -/
def topOrder : Nat := orderCount - 1

/-- One more than the number of bytes that an object in memory can have. -/
def objectLimit : Nat := 2 ^ (63 : Nat)

/-- The bytes of the descriptor of a frame. -/
def descriptorSize : Nat := 40

/-- The number of frames that a table can have, which is a single object in memory. -/
def tableCapacity : Nat := (objectLimit - 1) / descriptorSize

/-- Page sizes and address widths, as binary logarithms. -/
structure Platform where
  /-- A page has `2 ^ pageShift` bytes. -/
  pageShift : Nat
  /-- A huge page has `2 ^ hugeShift` bytes. -/
  hugeShift : Nat
  /-- Physical addresses are the numbers below `2 ^ physicalBits`. -/
  physicalBits : Nat
  /-- The bits of a virtual address above bit `virtualBits - 1` repeat it. -/
  virtualBits : Nat
  /-- A huge page is made of whole pages. -/
  pageShift_le_hugeShift : pageShift ≤ hugeShift := by decide
  /-- A huge page is a block of some order. -/
  hugeShift_le : hugeShift ≤ pageShift + topOrder := by decide
  /-- The largest block fits the physical address space. -/
  topBlock_le : pageShift + topOrder ≤ physicalBits := by decide
  /-- Physical addresses are words, with a bit to spare. -/
  physicalBits_lt : physicalBits < 64 := by decide
  /-- A table can have all the frames that have an address. -/
  frames_le : 2 ^ (physicalBits - pageShift) ≤ tableCapacity := by decide
  /-- Virtual addresses have a sign bit. -/
  virtualBits_pos : 0 < virtualBits := by decide
  /-- Virtual addresses are words, with a bit to spare. -/
  virtualBits_lt : virtualBits < 64 := by decide

namespace Platform

variable (P : Platform)

/-- The bytes of a page. -/
def pageSize : Nat := 2 ^ P.pageShift

/-- The bytes of a huge page. -/
def hugeSize : Nat := 2 ^ P.hugeShift

/-- The order of a huge page. -/
def hugeOrder : Nat := P.hugeShift - P.pageShift

/-- The number of physical addresses. -/
def physicalLimit : Nat := 2 ^ P.physicalBits

/-- The number of frames that have a physical address. -/
def frameLimit : Nat := 2 ^ (P.physicalBits - P.pageShift)

/-- Four-level paging on x86-64: pages of 4 KiB, huge pages of 2 MiB, addresses of 48 bits. -/
def x86_64 : Platform where
  pageShift := 12
  hugeShift := 21
  physicalBits := 48
  virtualBits := 48

/-- A scale model with every order of `x86_64` in an address space of 64 KiB: pages of 16 bytes,
huge pages of 8 KiB, addresses of 16 bits. -/
def scaled : Platform where
  pageShift := 4
  hugeShift := 13
  physicalBits := 16
  virtualBits := 16

theorem pageSize_pos : 0 < P.pageSize := Nat.two_pow_pos _

theorem pageShift_le_physicalBits : P.pageShift ≤ P.physicalBits :=
  Nat.le_trans (Nat.le_add_right _ _) P.topBlock_le

/-- The frames that have an address fill the physical address space. -/
theorem frameLimit_mul_pageSize : P.frameLimit * P.pageSize = P.physicalLimit := by
  unfold frameLimit pageSize physicalLimit
  rw [← Nat.pow_add, Nat.sub_add_cancel P.pageShift_le_physicalBits]

end Platform

/-- A platform together with the choice whether a pool checks itself after each operation that
moves blocks. -/
structure Config where
  /-- Page sizes and address widths. -/
  platform : Platform
  /-- Whether the checker runs after each operation that moves blocks. -/
  selfCheck : Bool := false

end FramePool
