import NeKernel.Heap.RoundTrip

/-!
# Containment of heap allocations in the pool

Neither layer compares a block with the end of the pool, and a size the bitmap refuses comes back
as a null base that `mm_alloc_ptr` writes its header behind.
-/

namespace Ne.Kernel
open ByteMem Runs

def InPool (pool : KernelBitMp) (p : UIntPtr) (sz : SizeT) : Prop :=
  pool.kKernelBitMpStart.toNat ≤ p.toNat ∧
    p.toNat + sz.toNat ≤ pool.kKernelBitMpStart.toNat + pool.kKernelBitMpSize.toNat

/-- The call returns, with null and no write or with a pointer to `sz` bytes of the pool. -/
def Contained (abi : BitFieldAbi) (pool : KernelBitMp) : HeapCall → BitMapState → Prop
  | .alloc sz wr user pad, σ => ∃ fuel p σ', mmAllocPtr abi pool fuel sz wr user pad σ = some (p, σ') ∧
      ((p = 0 ∧ σ'.mem = σ.mem) ∨ InPool pool p sz)
  | .free _, _ => True

/-- The request is empty, or the walk meets a free header with room for it behind both headers. A
refused size is placed at address zero. -/
def Fits (abi : BitFieldAbi) (pool : KernelBitMp) : HeapCall → BitMapState → Prop
  | .alloc sz _ _ pad, σ => sz = 0 ∨
      (refused (sz + abi.headers) ∧ InPool pool abi.headers sz) ∨
      (¬ refused (sz + abi.headers) ∧ ∃ slot,
        FreeSlot σ.mem (sz + abi.headers) pad (pool.kKernelBitMpStart + σ.kBitMapCursor) slot ∧
        InPool pool (slot + 24 + abi.headers) sz)
  | .free _, _ => True

section Call
variable {abi : BitFieldAbi} {pool : KernelBitMp} {fuel : Nat} {sz pad : SizeT} {wr user : Bool}
  {p slot : UIntPtr} {σ σ' : BitMapState}

theorem mmAllocPtr_refused (request : sz ≠ 0) (no : refused (sz + abi.headers)) :
    mmAllocPtr abi pool fuel sz wr user pad σ =
      some (abi.headers, registered abi 0 (sz + abi.headers) wr user pad σ) := by
  rw [mmAllocPtr_some _ _ _ _ _ _ _ request, findBitMap_refused no]
  simp

/-- Taking a slot is visible in memory, whatever the heap header then overwrites. -/
theorem registered_takeSlot_used (abi : BitFieldAbi) (slot size szFix pad : SizeT) (wr user : Bool)
    (σ : BitMapState) : bitSet (registered abi (slot + 24) szFix wr user pad (takeSlot slot size pad σ)).mem slot
      kBitMapUsedIdx = 1 := by
  obtain ⟨-, high, double⟩ := headers_le abi
  have apart : Apart (slot + kBitMapUsedIdx * 8) 8 (field (slot + 24) abi.sizeofInformationBlock)
      abi.sizeofInformationBlock := by
    intro x inWord inHeader
    unfold Within field kBitMapUsedIdx at *
    bv_omega
  unfold bitSet
  rw [registered_sameOutside.load64_eq apart]
  exact takeSlot_used

theorem mmAllocPtr_accepted (request : sz ≠ 0) (yes : ¬ refused (sz + abi.headers))
    (returned : mmAllocPtr abi pool fuel sz wr user pad σ = some (p, σ')) :
    ∃ slot, FreeSlot σ.mem (sz + abi.headers) pad (pool.kKernelBitMpStart + σ.kBitMapCursor) slot ∧
      p = slot + 24 + abi.headers ∧ σ'.mem ≠ σ.mem := by
  obtain ⟨ptr, τ, found, rfl, rfl⟩ := mmAllocPtr_cases request returned
  rw [findBitMap_accepted yes] at found
  obtain ⟨slot, chain, rfl, rfl⟩ := findBitMapFrom_sound found
  refine ⟨slot, chain, rfl, fun same => ?_⟩
  have before := chain.used
  have after := registered_takeSlot_used abi slot (sz + abi.headers) (sz + abi.headers) pad wr user σ
  rw [same, before] at after
  exact absurd after (by decide)

theorem contained_iff_fits_call (call : HeapCall) (σ : BitMapState) :
    Contained abi pool call σ ↔ Fits abi pool call σ := by
  cases call with
  | free p => exact Iff.rfl
  | alloc sz wr user pad =>
      obtain ⟨low, -, -⟩ := headers_le abi
      unfold Contained Fits
      by_cases request : sz = 0
      · refine ⟨fun _ => .inl request, fun _ => ⟨0, 0, σ, ?_, .inl ⟨rfl, rfl⟩⟩⟩
        unfold mmAllocPtr
        rw [if_pos request]
      by_cases no : refused (sz + abi.headers)
      · constructor
        · rintro ⟨fuel, p, σ', returned, outcome⟩
          rw [mmAllocPtr_refused request no, Option.some.injEq, Prod.mk.injEq] at returned
          obtain ⟨rfl, rfl⟩ := returned
          rcases outcome with ⟨null, -⟩ | inside
          · rw [null] at low
            exact absurd low (by decide)
          · exact .inr (.inl ⟨no, inside⟩)
        · rintro (zero | ⟨-, inside⟩ | ⟨yes, -⟩)
          · exact absurd zero request
          · exact ⟨0, _, _, mmAllocPtr_refused request no, .inr inside⟩
          · exact absurd no yes
      · constructor
        · rintro ⟨fuel, p, σ', returned, outcome⟩
          obtain ⟨slot, chain, rfl, written⟩ := mmAllocPtr_accepted request no returned
          rcases outcome with ⟨-, same⟩ | inside
          · exact absurd same written
          · exact .inr (.inr ⟨no, slot, chain, inside⟩)
        · rintro (zero | ⟨yes, -⟩ | ⟨-, slot, chain, inside⟩)
          · exact absurd zero request
          · exact absurd yes no
          · obtain ⟨fuel, found⟩ := findBitMapFrom_complete chain
            have returned := mmAllocPtr_some abi pool fuel pad wr user σ request
            rw [findBitMap_accepted no, found] at returned
            exact ⟨fuel, _, _, returned, .inr inside⟩

end Call

/-- On a cleared pool a first request fits when the block and both headers end inside the pool. -/
theorem fits_of_pristine {abi : BitFieldAbi} {pool : KernelBitMp} {σ : BitMapState} {sz pad : SizeT}
    {wr user : Bool} (pristine : Pristine pool σ)
    (small : sz.toNat + abi.headers.toNat ≤ kBitMapMaxSz.toNat)
    (room : 24 + abi.headers.toNat + sz.toNat ≤ pool.kKernelBitMpSize.toNat) :
    Fits abi pool (.alloc sz wr user pad) σ := by
  obtain ⟨zeroed, atStart⟩ := pristine
  have fits := zeroed.fits
  obtain ⟨low, high, -⟩ := headers_le abi
  by_cases empty : sz = 0
  · exact .inl empty
  have accepted : ¬ refused (sz + abi.headers) := by
    unfold refused kBitMapMaxSz at *
    bv_omega
  have free : bitSet σ.mem pool.kKernelBitMpStart kBitMapUsedIdx = 0 :=
    bitSet_zero fun x inside => zeroed.zero x (Within.of_offset 16 inside (by omega))
  refine .inr (.inr ⟨accepted, pool.kKernelBitMpStart, ?_, ?_⟩)
  · rw [atStart]
    simpa only [BitVec.ofNat_eq_ofNat, BitVec.add_zero] using FreeSlot.here free
  · unfold InPool
    bv_omega

end Ne.Kernel
