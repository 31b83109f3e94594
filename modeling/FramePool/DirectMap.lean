import FramePool.Address.Virtual
import FramePool.Memory
import FramePool.Page

/-!
# The direct map

All of physical memory is mapped into the address space of the program, either at a fixed offset,
modulo the words, or as an emulated buffer. A machine has one direct map, installed once. Under an
offset a virtual address must be canonical; a place in an emulated buffer need not be.
-/

namespace FramePool

/-- How physical memory is seen by the program. -/
inductive DirectMap where
  /-- All of physical memory is mapped at an offset. -/
  | offset (distance : Nat)
  /-- Physical memory is a buffer. -/
  | emulated (memory : EmulatedMemory)
deriving DecidableEq, Repr

namespace DirectMap

/-- Where the program sees the byte at a physical address. -/
def toVirtual : DirectMap → (phys : Nat) → Except Fault Nat
  | offset distance, phys => .ok (Word.wrappingAdd phys distance)
  | emulated memory, phys => memory.toVirtual phys

/-- Where the program sees the first of `len` bytes from a physical address on. -/
def rangeToVirtual : DirectMap → (phys len : Nat) → Except Fault Nat
  | offset distance, phys, _ => .ok (Word.wrappingAdd phys distance)
  | emulated memory, phys, len => memory.rangeToVirtual phys len

/-- The physical address of the byte that the program sees at a virtual address. -/
def toPhysical : DirectMap → (virt : Nat) → Except Fault Nat
  | offset distance, virt => .ok (Word.wrappingSub virt distance)
  | emulated memory, virt => memory.toPhysical virt

/-- The number of bytes of emulated memory. -/
def size? : DirectMap → Option Nat
  | offset _ => none
  | emulated memory => some memory.size

/-- The virtual address with a number that the map answered. -/
def address (P : Platform) : DirectMap → Nat → Except Fault VirtualAddress
  | offset _, virt => VirtualAddress.ofNat P virt
  | emulated _, virt => .ok ⟨virt⟩

/-- Sets the `len` bytes that the program sees from an address on. Only emulated memory is part of
the machine's state. -/
def fill (v : VirtualAddress) (len : Nat) (value : UInt8) : DirectMap → DirectMap
  | offset distance => offset distance
  | emulated memory => emulated (memory.fill v.value len value)

/-- The `len` bytes that the program sees from an address on, where memory is emulated. -/
def slice? (v : VirtualAddress) (len : Nat) : DirectMap → Option (List UInt8)
  | offset _ => none
  | emulated memory => some (memory.slice v.value len)

/-- The map that is installed. -/
def current : Option DirectMap → Except Fault DirectMap
  | some direct => .ok direct
  | none => .error .mapMissing

/-- Installs a map, which can be done once. -/
def install (direct : DirectMap) : (installed : Option DirectMap) → Except Fault (Option DirectMap)
  | none => .ok (some direct)
  | some _ => .error .mapInstalled

end DirectMap

variable (P : Platform) (installed : Option DirectMap)

/-- The virtual address with the given number, as the program comes by it. It must be canonical
unless memory is emulated. -/
def VirtualAddress.ofPointer (virt : Nat) : Except Fault VirtualAddress :=
  match installed with
  | some direct => direct.address P virt
  | none => VirtualAddress.ofNat P virt

/-- Where the program sees the byte at a physical address. -/
def VirtualAddress.directMapped (a : PhysicalAddress P) : Except Fault VirtualAddress := do
  let direct ← DirectMap.current installed
  let virt ← direct.toVirtual a.value
  direct.address P virt

/-- Where the program sees the first of `len` bytes from a physical address on. -/
def VirtualAddress.directMappedRange (a : PhysicalAddress P) (len : Nat) :
    Except Fault VirtualAddress := do
  let direct ← DirectMap.current installed
  let virt ← direct.rangeToVirtual a.value len
  direct.address P virt

/-- The physical address of the byte that the program sees at an address. -/
def PhysicalAddress.ofDirectMapped (v : VirtualAddress) : Except Fault (PhysicalAddress P) := do
  let direct ← DirectMap.current installed
  let phys ← direct.toPhysical v.value
  PhysicalAddress.ofNat P phys

namespace Page

/-- Where the program sees the first byte of the block. -/
def virtualAddress (page : Page) : Except Fault VirtualAddress := do
  let a ← page.address P
  VirtualAddress.directMapped P installed a

/-- The page of the frame whose byte the program sees at an address. -/
def containing (v : VirtualAddress) : Except Fault Page := do
  let a ← PhysicalAddress.ofDirectMapped P installed v
  return ⟨a.frame⟩

end Page

end FramePool
