import NeKernel.Lib.LittleEndian

/-!
# Types and status codes shared by the kernel's modules
-/

namespace Ne.Kernel

abbrev UIntPtr := BitVec 64
abbrev SizeT := BitVec 64
abbrev Lba := BitVec 64
abbrev Memory := ByteMem.Mem 64

def kPageSize : Nat := 0x1000

def kErrorSuccess : Int := 0
def kErrorHeapOutOfMemory : Int := 44
def kErrorHeapNotPresent : Int := 52
def kErrorInvalidData : Int := 56

/-- `rt_set_memory`. -/
def rtSetMemory (src : UIntPtr) (value : BitVec 32) (len : Nat) (mem : Memory) : Memory :=
  if src = 0 then mem else ByteMem.write mem src (List.replicate len (value.setWidth 8))

end Ne.Kernel
