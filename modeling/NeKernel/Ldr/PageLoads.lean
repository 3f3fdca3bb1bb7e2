import NeKernel.Ldr.PEFContainer
import NeKernel.Hal.PageRuns

/-!
# Pages behind an image

What the two loaders share: pages mapped one by one onto new frames, given back when one of them
fails, and a copy from the blob to virtual addresses, which ends at the first one that is not mapped.
-/

namespace Ne.Kernel.Ldr
open ByteMem Access HAL

/-- How a call ended: with a value or an error, or at a page that is not mapped. -/
inductive Ending where
  | value (ptr : UIntPtr)
  | error (code : Int)
  | fault
  deriving DecidableEq

def kMMFlagsImage : BitVec 32 := kMMFlagsPresent ||| kMMFlagsWr ||| kMMFlagsUser

def pageAt (base : UIntPtr) (i : Nat) : UIntPtr := base + BitVec.ofNat 64 (i * kPageSize)

/-- The pages of a region of `size` bytes. -/
def pageCount (size : Nat) : Nat := size / kPageSize + if size % kPageSize ≠ 0 then 1 else 0

/-- `ldr_unmap_pages`. -/
def ldrUnmapPages (cr3 base : UIntPtr) : Nat → PmmState → PmmState
  | 0, σ => σ
  | n + 1, σ =>
      let (frame, τ) := mmUnmapPage cr3 (pageAt base n) σ
      ldrUnmapPages cr3 base n (pmmiFreeFrame frame τ)

/-- One turn of the loops that back an image with frames. A frame that is not mapped goes back. -/
def backPage (cr3 base : UIntPtr) (i : Nat) (σ : PmmState) : Bool × PmmState :=
  let (frame, τ) := pmmiAllocFrame σ
  if frame = 0 then (false, pmmiFreeFrame frame τ)
  else
    let (status, υ) := mmMapPageIn cr3 (pageAt base i) frame kMMFlagsImage τ
    if status ≠ kErrorSuccess then (false, pmmiFreeFrame frame υ) else (true, υ)

/-- The loops, with `left` pages to go from the `i`th on. -/
def backFrom (cr3 base : UIntPtr) : Nat → Nat → PmmState → Bool × PmmState
  | 0, _, σ => (true, σ)
  | left + 1, i, σ =>
      let (backed, τ) := backPage cr3 base i σ
      if backed = false then (false, ldrUnmapPages cr3 base i τ) else backFrom cr3 base left (i + 1) τ

/-- The byte that a virtual address shows, by its physical address. -/
def physOf (mem : Memory) (cr3 va : UIntPtr) : Option UIntPtr :=
  (viewOf mem cr3 va).map fun view => view.frame ||| (va &&& kPageMask)

/-- The loop of `rt_copy_memory_safe`, `false` when a byte has no page. -/
def copyFrom (cr3 : UIntPtr) (m : Memory) : Nat → UIntPtr → UIntPtr → PmmState → Traced Access (Bool × PmmState)
  | 0, _, _, σ => pure (true, σ)
  | left + 1, src, dst, σ => do
      let byte ← fetchByte m src
      let target ← .emit (.write dst 1) (physOf σ.mem cr3 dst)
      match target with
      | none => pure (false, σ)
      | some pa => copyFrom cr3 m left (src + 1) (dst + 1) { σ with mem := write σ.mem pa [byte] }

/-- `rt_set_memory_safe` with zero. -/
def clearFrom (cr3 : UIntPtr) : Nat → UIntPtr → PmmState → Traced Access (Bool × PmmState)
  | 0, _, σ => pure (true, σ)
  | left + 1, dst, σ => do
      let target ← .emit (.write dst 1) (physOf σ.mem cr3 dst)
      match target with
      | none => pure (false, σ)
      | some pa => clearFrom cr3 left (dst + 1) { σ with mem := write σ.mem pa [0] }

/-- `rt_copy_memory_safe` from the blob. -/
def rtCopyMemorySafe (cr3 : UIntPtr) (m : Memory) (src dst : UIntPtr) (len dstSize : SizeT)
    (σ : PmmState) : Traced Access (Bool × PmmState) :=
  if src = 0 ∨ dst = 0 ∨ len > dstSize then
    if dst = 0 then pure (true, σ) else clearFrom cr3 dstSize.toNat dst σ
  else copyFrom cr3 m len.toNat src dst σ

section Log
variable {cr3 src dst : UIntPtr} {m : Memory} {n : Nat} {len dstSize : SizeT} {σ : PmmState} {P : Access → Prop}

theorem next_byte (a : UIntPtr) (i : Nat) : a + 1 + BitVec.ofNat 64 i = a + BitVec.ofNat 64 (i + 1) := by
  rw [Nat.add_comm i, BitVec.ofNat_add, ← BitVec.add_assoc]
  rfl

theorem copyFrom_only (reads : ∀ i < n, P (.read (src + BitVec.ofNat 64 i) 1))
    (writes : ∀ i < n, P (.write (dst + BitVec.ofNat 64 i) 1)) :
    Traced.Only P (copyFrom cr3 m n src dst σ) := by
  induction n generalizing src dst σ with
  | zero => exact Traced.only_pure
  | succ n ih =>
      rw [copyFrom]
      simp only [Traced.only_bind, only_fetchByte, fetchByte_val, Traced.only_emit, Traced.val_emit]
      refine ⟨by simpa using reads 0 (by omega), by simpa using writes 0 (by omega), ?_⟩
      cases physOf σ.mem cr3 dst with
      | none => exact Traced.only_pure
      | some pa =>
          refine ih (fun i below => ?_) fun i below => ?_
          · rw [next_byte]
            exact reads (i + 1) (by omega)
          · rw [next_byte]
            exact writes (i + 1) (by omega)

theorem clearFrom_only (writes : ∀ i < n, P (.write (dst + BitVec.ofNat 64 i) 1)) :
    Traced.Only P (clearFrom cr3 n dst σ) := by
  induction n generalizing dst σ with
  | zero => exact Traced.only_pure
  | succ n ih =>
      rw [clearFrom]
      simp only [Traced.only_bind, Traced.only_emit, Traced.val_emit]
      refine ⟨by simpa using writes 0 (by omega), ?_⟩
      cases physOf σ.mem cr3 dst with
      | none => exact Traced.only_pure
      | some pa =>
          refine ih fun i below => ?_
          rw [next_byte]
          exact writes (i + 1) (by omega)

theorem rtCopyMemorySafe_only (reads : ∀ i < len.toNat, P (.read (src + BitVec.ofNat 64 i) 1))
    (writes : ∀ i < dstSize.toNat, P (.write (dst + BitVec.ofNat 64 i) 1)) :
    Traced.Only P (rtCopyMemorySafe cr3 m src dst len dstSize σ) := by
  unfold rtCopyMemorySafe
  split
  · split
    · exact Traced.only_pure
    · exact clearFrom_only writes
  · rename_i fits
    have room : len.toNat ≤ dstSize.toNat := by
      by_contra beyond
      exact fits (.inr (.inr (BitVec.lt_def.mpr (by omega))))
    exact copyFrom_only reads fun i below => writes i (by omega)

end Log

end Ne.Kernel.Ldr
