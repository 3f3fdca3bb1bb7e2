import NeKernel.Machine

/-!
# The physical frame allocator

`HalPhysicalMemory.cpp`. The statics and the memory the frames live in form one state.
-/

namespace Ne.Kernel.HAL
open ByteMem

structure PmmState where
  mem : Memory
  kPmmBase : UIntPtr
  kPmmCursor : UIntPtr
  kPmmEnd : UIntPtr
  kPmmFreeHead : UIntPtr
  kPmmFree : SizeT
  kPmmUsed : SizeT

def kPmmAlign : UIntPtr := BitVec.ofNat 64 kPageSize - 1

/-- The statics before `pmmi_init`. -/
def pmmBoot (mem : Memory) : PmmState := ⟨mem, 0, 0, 0, 0, 0, 0⟩

def pmmiInit (base : UIntPtr) (sz : SizeT) (σ : PmmState) : PmmState :=
  let start := (base + kPmmAlign) &&& ~~~kPmmAlign
  let stop := (base + sz) &&& ~~~kPmmAlign
  if stop ≤ start then { σ with kPmmCursor := 0, kPmmEnd := 0 }
  else { σ with
    kPmmBase := start
    kPmmCursor := start
    kPmmEnd := stop
    kPmmFreeHead := 0
    kPmmFree := (stop - start) / BitVec.ofNat 64 kPageSize
    kPmmUsed := 0 }

/-- The frame taken and the list head and cursor left. -/
def pmmiTake (σ : PmmState) : UIntPtr × PmmState :=
  if σ.kPmmFreeHead ≠ 0 then
    (σ.kPmmFreeHead, { σ with kPmmFreeHead := load64 σ.mem σ.kPmmFreeHead })
  else if σ.kPmmCursor ≠ 0 ∧ σ.kPmmCursor < σ.kPmmEnd then
    (σ.kPmmCursor, { σ with kPmmCursor := σ.kPmmCursor + BitVec.ofNat 64 kPageSize })
  else (0, σ)

def pmmiAllocFrame (σ : PmmState) : UIntPtr × PmmState :=
  let (frame, τ) := pmmiTake σ
  if frame = 0 then (0, τ)
  else (frame, { τ with
    mem := rtSetMemory frame 0 kPageSize τ.mem
    kPmmFree := τ.kPmmFree - 1
    kPmmUsed := τ.kPmmUsed + 1 })

def pmmiFreeFrame (frame : UIntPtr) (σ : PmmState) : PmmState :=
  if frame = 0 ∨ frame &&& kPmmAlign ≠ 0 then σ
  else if frame < σ.kPmmBase ∨ frame ≥ σ.kPmmCursor then σ
  else { σ with
    mem := store64 σ.mem frame σ.kPmmFreeHead
    kPmmFreeHead := frame
    kPmmFree := σ.kPmmFree + 1
    kPmmUsed := σ.kPmmUsed - 1 }

def pmmiFreeFrames (σ : PmmState) : SizeT := σ.kPmmFree

def pmmiUsedFrames (σ : PmmState) : SizeT := σ.kPmmUsed

end Ne.Kernel.HAL
