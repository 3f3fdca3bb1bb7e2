import NeKernel.Machine
import NeKernel.Lib.BumpStack
import NeKernel.Lib.Runs

/-!
# The DMA pool

`DmaPool.h`, with the pool where the build files of the kernel put it.
-/

namespace Ne.Kernel.Dma
open BumpStack Runs

def kNeDMAPoolStart : UIntPtr := 0x1000000
def kNeDMAPoolSize : SizeT := 0x1000000
def kNeDMABestAlign : SizeT := 8
def kDmaPoolEnd : UIntPtr := kNeDMAPoolStart + kNeDMAPoolSize

def kErrorDmaExhausted : Int := 66

structure DmaPool where
  kDmaPoolPtr : UIntPtr
  errGlobal : Int

def aligned (align : SizeT) (ptr : UIntPtr) : UIntPtr := (ptr + (align - 1)) &&& ~~~(align - 1)

def rtlDmaAlloc (size align : SizeT) (pool : DmaPool) : UIntPtr × DmaPool :=
  if size = 0 then (0, pool)
  else if align % kNeDMABestAlign ≠ 0 then (0, pool)
  else
    let addr := aligned align pool.kDmaPoolPtr
    if addr + size > kDmaPoolEnd then (0, { pool with errGlobal := kErrorDmaExhausted })
    else (addr, { pool with kDmaPoolPtr := addr + size })

def rtlDmaFree (size : SizeT) (pool : DmaPool) : DmaPool :=
  if size = 0 then pool
  else
    let ptr := pool.kDmaPoolPtr - size
    if ptr = 0 ∨ ptr < kNeDMAPoolStart then { pool with errGlobal := kErrorDmaExhausted }
    else { pool with kDmaPoolPtr := ptr }

/-- The pool beside the chunks that its users hold, the last one first. -/
structure DmaUse where
  pool : DmaPool
  live : List (UIntPtr × SizeT)

def start : DmaUse := ⟨⟨kNeDMAPoolStart, kErrorSuccess⟩, []⟩

def chunkOf (chunk : UIntPtr × SizeT) : Chunk := ⟨chunk.1.toNat, chunk.2.toNat⟩

inductive DmaCall
  | alloc (size align : SizeT)
  | free

/-- A chunk is taken for one unless its address is null. The last chunk is the one to be freed. -/
def DmaStep : DmaCall → DmaUse → DmaUse → Prop
  | .alloc size align, s, t =>
      t = ⟨(rtlDmaAlloc size align s.pool).2,
        if (rtlDmaAlloc size align s.pool).1 = 0 then s.live else ((rtlDmaAlloc size align s.pool).1, size) :: s.live⟩
  | .free, s, t => ∃ chunk rest, s.live = chunk :: rest ∧ t = ⟨rtlDmaFree chunk.2 s.pool, rest⟩

def InPool (ptr : UIntPtr) : Prop := kNeDMAPoolStart ≤ ptr ∧ ptr ≤ kDmaPoolEnd

/-- A chunk as it was asked for. -/
structure Granted (size align : SizeT) (live : List (UIntPtr × SizeT)) (addr : UIntPtr) : Prop where
  multiple : align.toNat ∣ addr.toNat
  low : kNeDMAPoolStart ≤ addr
  high : addr.toNat + size.toNat ≤ kDmaPoolEnd.toNat
  apart : ∀ chunk ∈ live, (chunkOf (addr, size)).Disjoint (chunkOf chunk)

def AllocSafe (size align : SizeT) (s : DmaUse) : Prop :=
  (rtlDmaAlloc size align s.pool).1 = 0 ∧ (rtlDmaAlloc size align s.pool).2.kDmaPoolPtr = s.pool.kDmaPoolPtr ∨
  Granted size align s.live (rtlDmaAlloc size align s.pool).1

def DmaSafe (call : DmaCall) (s : DmaUse) : Prop :=
  (∀ size align, call = .alloc size align → AllocSafe size align s) ∧
  ∀ t, DmaStep call s t → InPool t.pool.kDmaPoolPtr

/-- What a request and the pointer have to be like: it is turned down, it leaves the pointer where it is, or the
rounding finds a multiple of the alignment and the size does not carry over the address space. -/
def Proper (call : DmaCall) (s : DmaUse) : Prop := ∀ size align, call = .alloc size align →
  size = 0 ∨ align % kNeDMABestAlign ≠ 0 ∨ kDmaPoolEnd < aligned align s.pool.kDmaPoolPtr + size ∨
    (aligned align s.pool.kDmaPoolPtr = 0 ∧ size = s.pool.kDmaPoolPtr) ∨
    (aligned align s.pool.kDmaPoolPtr ≠ 0 ∧ align.toNat ∣ (aligned align s.pool.kDmaPoolPtr).toNat ∧
      (aligned align s.pool.kDmaPoolPtr).toNat + size.toNat < 2 ^ 64)

/-- The live chunks lie in the used part of the pool. -/
structure UseInv (s : DmaUse) : Prop where
  stacked : Stacked kNeDMAPoolStart.toNat s.pool.kDmaPoolPtr.toNat (s.live.map chunkOf)
  top : s.pool.kDmaPoolPtr ≤ kDmaPoolEnd

section Steps
variable {s t : DmaUse} {size align : SizeT} {call : DmaCall} {calls : List DmaCall}

theorem kDmaPoolEnd_toNat : kDmaPoolEnd.toNat = 0x2000000 := rfl

theorem kNeDMAPoolStart_toNat : kNeDMAPoolStart.toNat = 0x1000000 := rfl

/-- A request is turned down, or it takes the bytes from the rounded pointer on. -/
theorem rtlDmaAlloc_cases (size align : SizeT) (pool : DmaPool) :
    ((rtlDmaAlloc size align pool).1 = 0 ∧ (rtlDmaAlloc size align pool).2.kDmaPoolPtr = pool.kDmaPoolPtr ∧
      (size = 0 ∨ align % kNeDMABestAlign ≠ 0 ∨ kDmaPoolEnd < aligned align pool.kDmaPoolPtr + size)) ∨
    (size ≠ 0 ∧ align % kNeDMABestAlign = 0 ∧ aligned align pool.kDmaPoolPtr + size ≤ kDmaPoolEnd ∧
      rtlDmaAlloc size align pool = (aligned align pool.kDmaPoolPtr,
        { pool with kDmaPoolPtr := aligned align pool.kDmaPoolPtr + size })) := by
  unfold rtlDmaAlloc
  by_cases empty : size = 0
  · rw [if_pos empty]
    exact .inl ⟨rfl, rfl, .inl empty⟩
  rw [if_neg empty]
  by_cases odd : align % kNeDMABestAlign ≠ 0
  · rw [if_pos odd]
    exact .inl ⟨rfl, rfl, .inr (.inl odd)⟩
  rw [if_neg odd]
  by_cases full : aligned align pool.kDmaPoolPtr + size > kDmaPoolEnd
  · dsimp only
    rw [if_pos full]
    exact .inl ⟨rfl, rfl, .inr (.inr full)⟩
  · dsimp only
    rw [if_neg full]
    exact .inr ⟨empty, not_not.mp odd, BitVec.not_lt.mp full, rfl⟩

theorem aligned_zero (ptr : UIntPtr) : aligned 0 ptr = 0 := by
  have mask : ~~~((0 : SizeT) - 1) = 0#64 := by decide
  rw [aligned, mask, BitVec.and_zero]
  rfl

theorem null_add (size : SizeT) : (0 : UIntPtr) + size = size := BitVec.zero_add size

/-- A multiple of the alignment that is not null is never behind the pointer. -/
theorem le_aligned {ptr : UIntPtr} (positive : aligned align ptr ≠ 0)
    (multiple : align.toNat ∣ (aligned align ptr).toNat) : ptr.toNat ≤ (aligned align ptr).toNat := by
  have nonzero : 0 < (aligned align ptr).toNat := Nat.pos_of_ne_zero fun zero => positive (BitVec.eq_of_toNat_eq zero)
  have some : align ≠ 0#64 := by
    rintro rfl
    exact positive (aligned_zero ptr)
  have far : align.toNat ≤ (aligned align ptr).toNat := Nat.le_of_dvd nonzero multiple
  have mask : (align - 1).toNat = align.toNat - 1 := by
    have one : (1#64).toNat ≤ align.toNat := Nat.one_le_iff_ne_zero.mpr fun zero => some (BitVec.eq_of_toNat_eq zero)
    exact BitVec.toNat_sub_of_le one
  have cleared := le_add_and_not (ptr + (align - 1)) (align - 1)
  have sum := and_not_le (ptr + (align - 1)) (align - 1)
  have bound := ptr.isLt
  have limit := align.isLt
  unfold aligned at *
  rw [BitVec.toNat_add, mask] at cleared sum
  rcases Nat.lt_or_ge (ptr.toNat + (align.toNat - 1)) (2 ^ 64) with plain | carried
  · rw [Nat.mod_eq_of_lt plain] at cleared
    omega
  · omega

theorem UseInv.low (inv : UseInv s) : kNeDMAPoolStart.toNat ≤ s.pool.kDmaPoolPtr.toNat := inv.stacked.le

theorem UseInv.inPool (inv : UseInv s) : InPool s.pool.kDmaPoolPtr := ⟨inv.low, inv.top⟩

theorem UseInv.grant (inv : UseInv s) {addr : UIntPtr} (above : s.pool.kDmaPoolPtr.toNat ≤ addr.toNat)
    (fits : addr.toNat + size.toNat ≤ kDmaPoolEnd.toNat) (multiple : align.toNat ∣ addr.toNat) :
    Granted size align s.live addr ∧ UseInv ⟨{ s.pool with kDmaPoolPtr := addr + size }, (addr, size) :: s.live⟩ := by
  have sum : (addr + size).toNat = addr.toNat + size.toNat := by
    rw [BitVec.toNat_add, Nat.mod_eq_of_lt]
    rw [kDmaPoolEnd_toNat] at fits
    omega
  refine ⟨⟨multiple, inv.low.trans above, fits, fun chunk member => ?_⟩, ?_, ?_⟩
  · exact inv.stacked.disjoint above (List.mem_map_of_mem member)
  · have pushed := inv.stacked.push (c := chunkOf (addr, size)) above
    rwa [Chunk.stop, show (chunkOf (addr, size)).addr + (chunkOf (addr, size)).size = (addr + size).toNat from sum.symm]
      at pushed
  · rw [BitVec.le_def, sum]
    exact fits

/-- The last chunk ends where the pointer was when it came in, or before, so that its bytes can be handed back. -/
theorem UseInv.free (inv : UseInv s) {chunk : UIntPtr × SizeT} {rest : List (UIntPtr × SizeT)}
    (live : s.live = chunk :: rest) : UseInv ⟨rtlDmaFree chunk.2 s.pool, rest⟩ := by
  obtain ⟨stop, below⟩ : chunk.1.toNat + chunk.2.toNat ≤ s.pool.kDmaPoolPtr.toNat ∧
      Stacked kNeDMAPoolStart.toNat chunk.1.toNat (rest.map chunkOf) := by
    have stacked := inv.stacked
    rw [live] at stacked
    exact stacked
  have low : kNeDMAPoolStart.toNat ≤ chunk.1.toNat := below.le
  have top : s.pool.kDmaPoolPtr.toNat ≤ 0x2000000 := inv.top
  have back : (s.pool.kDmaPoolPtr - chunk.2).toNat = s.pool.kDmaPoolPtr.toNat - chunk.2.toNat :=
    BitVec.toNat_sub_of_le (show chunk.2.toNat ≤ s.pool.kDmaPoolPtr.toNat by omega)
  rw [kNeDMAPoolStart_toNat] at low
  unfold rtlDmaFree
  by_cases empty : chunk.2 = 0
  · rw [if_pos empty]
    have above : chunk.1.toNat ≤ s.pool.kDmaPoolPtr.toNat := by omega
    exact ⟨below.mono above, inv.top⟩
  have taken : ¬ (s.pool.kDmaPoolPtr - chunk.2 = 0 ∨ s.pool.kDmaPoolPtr - chunk.2 < kNeDMAPoolStart) := by
    rintro (null | under)
    · rw [null] at back
      simp only [BitVec.ofNat_eq_ofNat, BitVec.toNat_ofNat] at back
      omega
    · rw [BitVec.lt_def, back, kNeDMAPoolStart_toNat] at under
      omega
  rw [if_neg empty]
  dsimp only
  rw [if_neg taken]
  refine ⟨below.mono ?_, ?_⟩
  · show chunk.1.toNat ≤ (s.pool.kDmaPoolPtr - chunk.2).toNat
    omega
  · show (s.pool.kDmaPoolPtr - chunk.2).toNat ≤ 0x2000000
    omega

/-- What the pool does on a request that it serves is what it should do if the request is a proper one. -/
theorem UseInv.served (inv : UseInv s) (proper : Proper (.alloc size align) s) :
    AllocSafe size align s ∧ ∀ t, DmaStep (.alloc size align) s t → UseInv t := by
  rcases rtlDmaAlloc_cases size align s.pool with ⟨null, same, -⟩ | ⟨some, whole, fits, taken⟩
  · refine ⟨.inl ⟨null, same⟩, ?_⟩
    rintro t rfl
    rw [if_pos null]
    exact ⟨by rw [same]; exact inv.stacked, by rw [same]; exact inv.top⟩
  · unfold AllocSafe
    rw [taken]
    rcases proper size align rfl with empty | odd | full | ⟨null, still⟩ | ⟨positive, multiple, plain⟩
    · exact absurd empty some
    · exact absurd whole odd
    · exact absurd full (BitVec.not_lt.mpr fits)
    · have unmoved : aligned align s.pool.kDmaPoolPtr + size = s.pool.kDmaPoolPtr := by rw [null, still, null_add]
      refine ⟨.inl ⟨null, unmoved⟩, ?_⟩
      rintro t rfl
      rw [taken, if_pos null]
      exact ⟨by rw [unmoved]; exact inv.stacked, by rw [unmoved]; exact inv.top⟩
    · have inside : (aligned align s.pool.kDmaPoolPtr).toNat + size.toNat ≤ kDmaPoolEnd.toNat := by
        rwa [BitVec.le_def, BitVec.toNat_add, Nat.mod_eq_of_lt plain] at fits
      obtain ⟨granted, kept⟩ := inv.grant (le_aligned positive multiple) inside multiple
      refine ⟨.inr granted, ?_⟩
      rintro t rfl
      rw [taken, if_neg positive]
      exact kept

theorem proper_of_allocSafe (safe : AllocSafe size align s) : Proper (.alloc size align) s := by
  rintro size align ⟨⟩
  rcases rtlDmaAlloc_cases size align s.pool with ⟨-, -, empty | odd | full⟩ | ⟨-, -, -, taken⟩
  · exact .inl empty
  · exact .inr (.inl odd)
  · exact .inr (.inr (.inl full))
  · unfold AllocSafe at safe
    rw [taken] at safe
    rcases safe with ⟨null, still⟩ | granted
    · dsimp only at null still
      refine .inr (.inr (.inr (.inl ⟨null, ?_⟩)))
      rwa [null, null_add] at still
    · have low : kNeDMAPoolStart ≤ aligned align s.pool.kDmaPoolPtr := granted.low
      have high : (aligned align s.pool.kDmaPoolPtr).toNat + size.toNat ≤ kDmaPoolEnd.toNat := granted.high
      rw [BitVec.le_def, kNeDMAPoolStart_toNat] at low
      rw [kDmaPoolEnd_toNat] at high
      refine .inr (.inr (.inr (.inr ⟨?_, granted.multiple, by omega⟩)))
      intro null
      rw [null] at low
      exact absurd low (by decide)

theorem UseInv.step (inv : UseInv s) (proper : Proper call s) (step : DmaStep call s t) : UseInv t := by
  cases call with
  | alloc size align => exact (inv.served proper).2 t step
  | free =>
      obtain ⟨chunk, rest, live, rfl⟩ := step
      exact inv.free live

theorem UseInv.safe_iff (inv : UseInv s) (call : DmaCall) : DmaSafe call s ↔ Proper call s := by
  constructor
  · rintro ⟨safe, -⟩ size align rfl
    exact proper_of_allocSafe (safe size align rfl) size align rfl
  · intro proper
    refine ⟨?_, fun t step => (inv.step proper step).inPool⟩
    rintro size align rfl
    exact (inv.served proper).1

theorem useInv_start : UseInv start := ⟨le_rfl, by decide⟩

theorem proper_zero : Proper (.alloc size 0) s ↔ size = 0 ∨ kDmaPoolEnd < size ∨ size = s.pool.kDmaPoolPtr := by
  constructor
  · intro proper
    have cases := proper size 0 rfl
    rw [aligned_zero, null_add] at cases
    rcases cases with empty | odd | full | ⟨-, still⟩ | ⟨positive, -⟩
    · exact .inl empty
    · exact absurd (by decide) odd
    · exact .inr (.inl full)
    · exact .inr (.inr still)
    · exact absurd rfl positive
  · rintro cases size align ⟨⟩
    rw [aligned_zero, null_add]
    rcases cases with empty | full | still
    · exact .inl empty
    · exact .inr (.inr (.inl full))
    · exact .inr (.inr (.inr (.inl ⟨rfl, still⟩)))

/-- With a power of two only a size that carries over the address space is out of place. -/
theorem UseInv.proper_power (inv : UseInv s) {k : Nat} (small : k < 64)
    (plain : alignUp (2 ^ k) s.pool.kDmaPoolPtr.toNat + size.toNat < 2 ^ 64) :
    Proper (.alloc size (BitVec.ofNat 64 (2 ^ k))) s := by
  rintro size align ⟨⟩
  have power : 2 ^ k ≤ 2 ^ 63 := Nat.pow_le_pow_right (by omega) (by omega)
  have low := inv.low
  have top : s.pool.kDmaPoolPtr.toNat ≤ 0x2000000 := inv.top
  have place : (aligned (BitVec.ofNat 64 (2 ^ k)) s.pool.kDmaPoolPtr).toNat =
      alignUp (2 ^ k) s.pool.kDmaPoolPtr.toNat :=
    roundUp_toNat small (by omega)
  have above := le_alignUp (x := s.pool.kDmaPoolPtr.toNat) (Nat.two_pow_pos k)
  refine .inr (.inr (.inr (.inr ⟨?_, ?_, by rw [place]; exact plain⟩)))
  · intro null
    rw [null] at place
    rw [kNeDMAPoolStart_toNat] at low
    simp only [BitVec.ofNat_eq_ofNat, BitVec.toNat_ofNat] at place
    omega
  · rw [place, BitVec.toNat_ofNat, Nat.mod_eq_of_lt (by omega)]
    exact dvd_alignUp

/-- The pool serves a sequence of requests as it should exactly if every one of them is proper. -/
theorem dma_safe_iff : AllSteps DmaStep DmaSafe start calls ↔ AllSteps DmaStep Proper start calls :=
  allSteps_iff useInv_start (fun call _ inv => inv.safe_iff call) fun _ _ _ inv proper step => inv.step proper step

end Steps

/-- The first request of a driver for a buffer, with an alignment of zero. -/
theorem zero_align_leaves_pool : ¬ AllSteps DmaStep DmaSafe start [.alloc 9708 0] := by
  intro safe
  have moved := (safe [] (.alloc 9708 0) [] rfl start (.nil start)).2 _ rfl
  exact absurd moved.1 (by decide)

end Ne.Kernel.Dma
