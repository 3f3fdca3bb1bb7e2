import NeKernel.Machine

/-!
# The bitmap allocator

`IBitMapProxy` of `BitMapMgr.cpp`. A block is a three-word header (magic, size, used) followed by
its payload; `findBitMap` walks the headers from the cursor on.
-/

namespace Ne.Kernel
open ByteMem

def kBitMapMagic : UIntPtr := 0x10210
def kBitMapMaxSz : SizeT := 8 * 1024 * 1024 * 1024
def kBitMapMagIdx : UIntPtr := 0
def kBitMapSizeIdx : UIntPtr := 1
def kBitMapUsedIdx : UIntPtr := 2
def kBitMapSz : UIntPtr := 3
def kAlign : UIntPtr := 16

/-- The pool set up by `hal_init_platform`. -/
structure KernelBitMp where
  kKernelBitMpStart : UIntPtr
  kKernelBitMpSize : SizeT

structure BitMapState where
  mem : Memory
  kBitMapCursor : SizeT
  biggest : SizeT

/-- `ptr_bit_set[idx]`, words being eight bytes wide. -/
def bitSet (mem : Memory) (ptrBitSet idx : UIntPtr) : UIntPtr := load64 mem (ptrBitSet + idx * 8)

def setBitSet (mem : Memory) (ptrBitSet idx value : UIntPtr) : Memory :=
  store64 mem (ptrBitSet + idx * 8) value

def isBitMap (mem : Memory) (pagePtr : UIntPtr) : Bool :=
  if pagePtr = 0 then false
  else if bitSet mem pagePtr kBitMapMagIdx ≠ kBitMapMagic then false
  else true

def freeBitMap (pagePtr : UIntPtr) (σ : BitMapState) : Bool × BitMapState :=
  if isBitMap σ.mem pagePtr = false then (false, σ)
  else
    let ptrBitSet := pagePtr - kBitMapSz * 8
    if ptrBitSet = 0 then (false, σ)
    else if bitSet σ.mem ptrBitSet kBitMapMagIdx ≠ kBitMapMagic then (false, σ)
    else
      let size := bitSet σ.mem ptrBitSet kBitMapSizeIdx
      let cursor := if size ≤ σ.kBitMapCursor then σ.kBitMapCursor - size else σ.kBitMapCursor
      (true, { σ with kBitMapCursor := cursor, mem := setBitSet σ.mem ptrBitSet kBitMapUsedIdx 0 })

/-- Reuse of a hole: the magic is there already, the hole takes the request's size. -/
def reuseHole (ptrBitSet : UIntPtr) (size pad : SizeT) (σ : BitMapState) : BitMapState :=
  let mem := setBitSet σ.mem ptrBitSet kBitMapSizeIdx (size + pad)
  let mem := setBitSet mem ptrBitSet kBitMapUsedIdx 1
  { mem := mem
    kBitMapCursor := σ.kBitMapCursor + (size + pad + kAlign)
    biggest := if σ.biggest < size + pad then size + pad else σ.biggest }

def claimFresh (ptrBitSet : UIntPtr) (size pad : SizeT) (σ : BitMapState) : BitMapState :=
  let mem := setBitSet σ.mem ptrBitSet kBitMapMagIdx kBitMapMagic
  let mem := setBitSet mem ptrBitSet kBitMapSizeIdx (size + pad)
  let mem := setBitSet mem ptrBitSet kBitMapUsedIdx 1
  { mem := mem
    kBitMapCursor := σ.kBitMapCursor + (size + pad + kAlign)
    biggest := if σ.biggest < size + pad then size + pad else σ.biggest }

/-- The distance from the header at `base` to the next one the walk looks at. -/
def stride (mem : Memory) (size pad : SizeT) (base : UIntPtr) : UIntPtr :=
  (if bitSet mem base kBitMapMagIdx ≠ kBitMapMagic then size + pad
    else bitSet mem base kBitMapSizeIdx) + kAlign

/-- The `while (YES)` of `FindBitMap`, `none` when the fuel does not reach a free header. -/
def findBitMapFrom (size pad : SizeT) : Nat → UIntPtr → BitMapState → Option (UIntPtr × BitMapState)
  | 0, _, _ => none
  | fuel + 1, base, σ =>
      if bitSet σ.mem base kBitMapMagIdx = kBitMapMagic then
        if bitSet σ.mem base kBitMapUsedIdx = 0 then
          some (base + kBitMapSz * 8, reuseHole base size pad σ)
        else findBitMapFrom size pad fuel (base + stride σ.mem size pad base) σ
      else
        if bitSet σ.mem base kBitMapUsedIdx = 0 then
          some (base + kBitMapSz * 8, claimFresh base size pad σ)
        else findBitMapFrom size pad fuel (base + stride σ.mem size pad base) σ

def findBitMap (fuel : Nat) (basePtr : UIntPtr) (size : SizeT) (_wr _user : Bool) (pad : SizeT)
    (σ : BitMapState) : Option (UIntPtr × BitMapState) :=
  if size = 0 then some (0, σ)
  else if size > kBitMapMaxSz then some (0, σ)
  else findBitMapFrom size pad fuel (basePtr + σ.kBitMapCursor) σ

def mmIsBitmap (mem : Memory) (ptr : UIntPtr) : Bool := isBitMap mem ptr

def mmAllocBitmap (pool : KernelBitMp) (fuel : Nat) (wr user : Bool) (size : SizeT) (isPage : Bool)
    (pad : SizeT) (σ : BitMapState) : Option (UIntPtr × BitMapState) :=
  if isPage then some (0, σ) else findBitMap fuel pool.kKernelBitMpStart size wr user pad σ

/-- `none` when `MUST_PASS` stops the kernel. -/
def mmFreeBitmap (ptr : UIntPtr) (σ : BitMapState) : Option (Bool × BitMapState) :=
  if ptr = 0 then some (false, σ)
  else
    let (ret, τ) := freeBitMap ptr σ
    if ret then some (ret, τ) else none

end Ne.Kernel
