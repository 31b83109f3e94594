import FramePool.Frame
import FramePool.Platform

/-!
# Emulated memory

Stands in for the physical memory of a machine: byte `i` of the buffer is the byte at physical
address `i`, and the program sees it at virtual address `base + i`.
-/

namespace FramePool

/-- A buffer that stands in for physical memory. -/
structure EmulatedMemory where
  /-- The virtual address of the first byte. -/
  base : Nat := 0
  /-- The bytes. -/
  bytes : Array UInt8
deriving DecidableEq, Repr

namespace EmulatedMemory

/-- A buffer of zeros. -/
def zeros (base size : Nat) : EmulatedMemory := ⟨base, Array.replicate size 0⟩

/-- The buffer of `size` zeros, as a program comes by it. -/
def allocate (base size : Nat) : Except Fault EmulatedMemory := do
  require (size < objectLimit) .capacityOverflow
  return zeros base size

/-- The number of bytes. -/
def size (m : EmulatedMemory) : Nat := m.bytes.size

/-- Where the program sees the byte at a physical address. -/
def toVirtual (m : EmulatedMemory) (phys : Nat) : Except Fault Nat := do
  require (phys < m.size) .addressOutOfBounds
  return m.base + phys

/-- Where the program sees the first of `len` bytes from a physical address on, all of which the
buffer must have. An empty range must not start at the end of the buffer. -/
def rangeToVirtual (m : EmulatedMemory) (phys len : Nat) : Except Fault Nat := do
  require (phys + len ≤ m.size ∧ phys < m.size) .rangeOutOfBounds
  return m.base + phys

/-- The physical address of the byte that the program sees at a virtual address. -/
def toPhysical (m : EmulatedMemory) (virt : Nat) : Except Fault Nat := do
  require (m.base ≤ virt ∧ virt - m.base < m.size) .pointerOutOfBounds
  return virt - m.base

/-- Sets `len` bytes from index `first` on. -/
def fillFrom (value : UInt8) (first : Nat) : (len : Nat) → Array UInt8 → Array UInt8
  | 0, bytes => bytes
  | len + 1, bytes => fillFrom value first len (bytes.setIfInBounds (first + len) value)

/-- Sets the `len` bytes that the program sees from a virtual address on. -/
def fill (m : EmulatedMemory) (virt len : Nat) (value : UInt8) : EmulatedMemory :=
  let ⟨base, bytes⟩ := m
  ⟨base, fillFrom value (virt - base) len bytes⟩

/-- The `len` bytes that the program sees from a virtual address on. -/
def slice (m : EmulatedMemory) (virt len : Nat) : List UInt8 :=
  (m.bytes.extract (virt - m.base) (virt - m.base + len)).toList

end EmulatedMemory

end FramePool
