import NeKernel.Heap.BitMapWalk

/-!
# The kernel heap

`mm_alloc_ptr`, `mm_free_ptr` and `mm_is_valid_ptr` of `HeapMgr.cpp` over the bitmap allocator,
with `PageMgr::Request` and `PageMgr::Free` between them.
-/

namespace Ne.Kernel
open ByteMem

def kHeapMgrMagic : Nat := 0xD4D75
def kHeapMgrAlignSz : Nat := 4

/-- `MM_INFORMATION_BLOCK` mixes bit fields of two widths. The System V ABI packs the four flag
bits behind the 24-bit magic, the Microsoft ABI (the mingw kernel build) gives them a byte of
their own. -/
inductive BitFieldAbi
  | sysv
  | ms

namespace BitFieldAbi

/-- Byte holding `fPresent`, `fWriteRead`, `fUser` and `fPage`, in bits 0 to 3. -/
def flagsByte : BitFieldAbi → Nat
  | .sysv => 3
  | .ms => 4

variable (abi : BitFieldAbi)

def fCRC32 : Nat := abi.flagsByte + 1
def fFlags : Nat := abi.fCRC32 + 4
def fSize : Nat := abi.fFlags + 2
def fOffset : Nat := abi.fSize + 8
def fPad : Nat := abi.fOffset + 8
def fPadding : Nat := abi.fPad + 4
def sizeofInformationBlock : Nat := abi.fPadding + kHeapMgrAlignSz
def kHeapMgrHdrSz : Nat := abi.sizeofInformationBlock * 2

end BitFieldAbi

inductive InfoFlag
  | fPresent
  | fWriteRead
  | fUser
  | fPage

def InfoFlag.bit : InfoFlag → Nat
  | .fPresent => 0
  | .fWriteRead => 1
  | .fUser => 2
  | .fPage => 3

/-- The address of a field, given its offset. -/
def field (p : UIntPtr) (off : Nat) : UIntPtr := p + BitVec.ofNat 64 off

def getMagic (mem : Memory) (info : UIntPtr) : Nat := load mem (field info 0) 3

def getFlag (abi : BitFieldAbi) (mem : Memory) (info : UIntPtr) (flag : InfoFlag) : Bool :=
  (mem (field info abi.flagsByte)).getLsbD flag.bit

def setFlag (abi : BitFieldAbi) (info : UIntPtr) (flag : InfoFlag) (value : Bool) (mem : Memory) :
    Memory :=
  let old := mem (field info abi.flagsByte)
  let mask : Byte := BitVec.twoPow 8 flag.bit
  write mem (field info abi.flagsByte) [if value then old ||| mask else old &&& ~~~mask]

def setField (info : UIntPtr) (off bytes value : Nat) (mem : Memory) : Memory :=
  store mem (field info off) bytes value

structure PTEWrapper where
  fRw : Bool
  fUser : Bool
  fExecDisable : Bool
  fVirtAddr : UIntPtr
  fCache : Bool := false
  fShareable : Bool := false
  fWt : Bool := false
  fPresent : Bool := true
  fAccessed : Bool := false

def PTEWrapper.virtualAddress (wrapper : PTEWrapper) : UIntPtr := wrapper.fVirtAddr

/-- `PageMgr::Request`. -/
def pageMgrRequest (pool : KernelBitMp) (fuel : Nat) (rw user execDisable : Bool)
    (sz pad : SizeT) (σ : BitMapState) : Option (PTEWrapper × BitMapState) :=
  (mmAllocBitmap pool fuel rw user sz false pad σ).map fun (ptr, σ') =>
    ({ fRw := rw, fUser := user, fExecDisable := execDisable, fVirtAddr := ptr }, σ')

/-- `PageMgr::Free`. -/
def pageMgrFree (wrapper : PTEWrapper) (σ : BitMapState) : Option (Bool × BitMapState) :=
  mmFreeBitmap wrapper.virtualAddress σ

/-- The header writes of `mm_alloc_ptr`, in source order. -/
def registerBlock (abi : BitFieldAbi) (info : UIntPtr) (szFix : SizeT) (wr user : Bool)
    (padAmount : SizeT) (mem : Memory) : Memory :=
  let mem := setField info abi.fSize 8 szFix.toNat mem
  let mem := setField info 0 3 kHeapMgrMagic mem
  let mem := setField info abi.fCRC32 4 0 mem
  let mem := setField info abi.fOffset 8 (field info abi.sizeofInformationBlock).toNat mem
  let mem := setFlag abi info .fPage false mem
  let mem := setFlag abi info .fWriteRead wr mem
  let mem := setFlag abi info .fUser user mem
  let mem := setFlag abi info .fPresent true mem
  let mem := setField info abi.fPad 4 padAmount.toNat mem
  rtSetMemory (field info abi.fPadding) 0 kHeapMgrAlignSz mem

/-- `mm_alloc_ptr`, `none` when the fuel does not reach the end of the bitmap walk. -/
def mmAllocPtr (abi : BitFieldAbi) (pool : KernelBitMp) (fuel : Nat) (sz : SizeT) (wr user : Bool)
    (padAmount : SizeT) (σ : BitMapState) : Option (UIntPtr × BitMapState) :=
  if sz = 0 then some (0, σ)
  else
    let szFix := sz + BitVec.ofNat 64 abi.kHeapMgrHdrSz
    match pageMgrRequest pool fuel wr user false szFix padAmount σ with
    | none => none
    | some (wrapper, τ) =>
        -- A refused request leaves a null base here, and the header is written all the same.
        let info := field wrapper.virtualAddress abi.sizeofInformationBlock
        let mem := registerBlock abi info szFix wr user padAmount τ.mem
        some (load64 mem (field info abi.fOffset), { τ with mem := mem })

/-- `mm_check_ptr_address`. -/
def mmCheckPtrAddress (abi : BitFieldAbi) (heapPtr : UIntPtr) (mem : Memory) : Bool :=
  if heapPtr = 0 then false
  else if heapPtr ≤ BitVec.ofNat 64 abi.kHeapMgrHdrSz then false
  else if mmIsBitmap mem (heapPtr - BitVec.ofNat 64 abi.kHeapMgrHdrSz) = false then false
  else
    let info := heapPtr - BitVec.ofNat 64 abi.sizeofInformationBlock
    getMagic mem info = kHeapMgrMagic ∧ getFlag abi mem info .fPresent

/-- `mm_is_valid_ptr`. -/
def mmIsValidPtr (abi : BitFieldAbi) (heapPtr : UIntPtr) (σ : BitMapState) : Bool :=
  mmCheckPtrAddress abi heapPtr σ.mem

/-- The header writes of `mm_free_ptr`, in source order. -/
def releaseBlock (abi : BitFieldAbi) (info : UIntPtr) (mem : Memory) : Memory :=
  let mem := setField info abi.fSize 8 0 mem
  let mem := setFlag abi info .fPresent false mem
  let mem := setField info abi.fOffset 8 0 mem
  let mem := setField info abi.fCRC32 4 0 mem
  let mem := setFlag abi info .fWriteRead false mem
  let mem := setFlag abi info .fUser false mem
  setField info abi.fPad 4 0 mem

/-- `mm_free_ptr`, `none` when `ke_stop` or `MUST_PASS` stops the kernel. -/
def mmFreePtr (abi : BitFieldAbi) (heapPtr : UIntPtr) (σ : BitMapState) :
    Option (Int × BitMapState) :=
  if heapPtr = 0 then some (kErrorHeapNotPresent, σ)
  else if heapPtr ≤ BitVec.ofNat 64 abi.kHeapMgrHdrSz then some (kErrorHeapNotPresent, σ)
  else
    let basePtr := heapPtr - BitVec.ofNat 64 abi.kHeapMgrHdrSz
    if mmIsBitmap σ.mem basePtr = false then some (kErrorHeapNotPresent, σ)
    else
      let info := heapPtr - BitVec.ofNat 64 abi.sizeofInformationBlock
      if getMagic σ.mem info ≠ kHeapMgrMagic then some (kErrorHeapNotPresent, σ)
      else if getFlag abi σ.mem info .fPresent = false then none
      else
        let σ := { σ with mem := releaseBlock abi info σ.mem }
        let wrapper : PTEWrapper :=
          { fRw := false, fUser := false, fExecDisable := false, fVirtAddr := basePtr }
        (pageMgrFree wrapper σ).map fun (_, τ) => (kErrorSuccess, τ)

end Ne.Kernel
