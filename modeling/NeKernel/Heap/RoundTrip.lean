import NeKernel.Heap.HeapMgr
import NeKernel.Heap.BlockLayout

/-!
# Allocation and release of heap pointers

`mm_check_ptr_address` and `FreeBitMap` look for the bitmap magic in the first word of the payload,
while `FindBitMap` puts it three words below.
-/

namespace Ne.Kernel
open ByteMem Runs

inductive HeapCall
  | alloc (sz : SizeT) (wr user : Bool) (padAmount : SizeT)
  | free (heapPtr : UIntPtr)

/-- A call that returns. -/
def HeapStep (abi : BitFieldAbi) (pool : KernelBitMp) : HeapCall → BitMapState → BitMapState → Prop
  | .alloc sz wr user pad, σ, σ' => ∃ fuel p, mmAllocPtr abi pool fuel sz wr user pad σ = some (p, σ')
  | .free p, σ, σ' => ∃ code, mmFreePtr abi p σ = some (code, σ')

section Headers
variable {abi : BitFieldAbi} {mem : Memory} {info x : UIntPtr} {szFix pad : SizeT} {wr user : Bool}

theorem setField_sameOutside {off bytes value n : Nat} (bound : off + bytes ≤ n) :
    SameOutside info n mem (setField info off bytes value mem) :=
  store_offset_sameOutside off bound

theorem setFlag_sameOutside {flag : InfoFlag} {value : Bool} {n : Nat} (bound : abi.flagsByte < n) :
    SameOutside info n mem (setFlag abi info flag value mem) :=
  write_offset_sameOutside _ (Nat.succ_le_of_lt bound)

theorem rtSetMemory_sameOutside {off len n : Nat} {value : BitVec 32} (bound : off + len ≤ n) :
    SameOutside info n mem (rtSetMemory (field info off) value len mem) := by
  unfold rtSetMemory
  split
  · exact .refl
  · exact write_offset_sameOutside _ (by simpa using bound)

theorem registerBlock_sameOutside :
    SameOutside info abi.sizeofInformationBlock mem (registerBlock abi info szFix wr user pad mem) := by
  have fields : abi.fSize + 8 ≤ abi.sizeofInformationBlock ∧ abi.fOffset + 8 ≤ abi.sizeofInformationBlock ∧
      0 + 3 ≤ abi.sizeofInformationBlock ∧ abi.fCRC32 + 4 ≤ abi.sizeofInformationBlock ∧
      abi.flagsByte < abi.sizeofInformationBlock ∧ abi.fPad + 4 ≤ abi.sizeofInformationBlock ∧
      abi.fPadding + kHeapMgrAlignSz ≤ abi.sizeofInformationBlock := by
    cases abi <;> decide
  obtain ⟨size, offset, magic, crc, flags, pad, padding⟩ := fields
  intro x outside
  unfold registerBlock
  rw [rtSetMemory_sameOutside padding x outside, setField_sameOutside pad x outside,
    setFlag_sameOutside flags x outside, setFlag_sameOutside flags x outside,
    setFlag_sameOutside flags x outside, setFlag_sameOutside flags x outside,
    setField_sameOutside offset x outside, setField_sameOutside crc x outside,
    setField_sameOutside magic x outside, setField_sameOutside size x outside]

theorem setFlag_clear {flag : InfoFlag} (zero : mem x = 0) :
    setFlag abi info flag false mem x = 0 := by
  unfold setFlag
  by_cases here : Within (field info abi.flagsByte) 1 x
  · have same : x = field info abi.flagsByte := by
      unfold Within at here
      bv_omega
    rw [← same]
    simp [write, zero]
  · rw [write_outside (by simpa using here), zero]

theorem releaseBlock_zero (zero : mem x = 0) : releaseBlock abi info mem x = 0 := by
  unfold releaseBlock
  exact store_zero (setFlag_clear (setFlag_clear (store_zero (store_zero (setFlag_clear
    (store_zero zero))))))

theorem load64_setField_apart {off off' bytes value : Nat} (before : off + 8 ≤ off')
    (fits : off' + bytes ≤ 2 ^ 64) :
    load64 (setField info off' bytes value mem) (field info off) = load64 mem (field info off) :=
  store_sameOutside.load64_eq (Apart.of_offsets before fits)

theorem load64_setFlag_apart {flag : InfoFlag} {value : Bool} {off : Nat} (behind : abi.flagsByte < off)
    (fits : off + 8 ≤ 2 ^ 64) :
    load64 (setFlag abi info flag value mem) (field info off) = load64 mem (field info off) :=
  write_sameOutside.load64_eq (Apart.of_offsets (Nat.succ_le_of_lt behind) fits).symm

theorem load64_rtSetMemory_apart {off off' len : Nat} {value : BitVec 32} (before : off + 8 ≤ off')
    (fits : off' + len ≤ 2 ^ 64) :
    load64 (rtSetMemory (field info off') value len mem) (field info off) =
      load64 mem (field info off) := by
  unfold rtSetMemory
  split
  · rfl
  · exact write_sameOutside.load64_eq (by simpa [field] using Apart.of_offsets before fits)

theorem registerBlock_fOffset :
    load64 (registerBlock abi info szFix wr user pad mem) (field info abi.fOffset) =
      field info abi.sizeofInformationBlock := by
  have order : abi.flagsByte < abi.fOffset ∧ abi.fOffset + 8 ≤ abi.fPad ∧
      abi.fOffset + 8 ≤ abi.fPadding ∧ abi.fPadding + kHeapMgrAlignSz ≤ 64 := by
    cases abi <;> decide
  obtain ⟨flags, padField, padding, small⟩ := order
  have padSmall : abi.fPad + 4 ≤ 64 := by cases abi <;> decide
  unfold registerBlock
  dsimp only
  rw [load64_rtSetMemory_apart padding (by omega), load64_setField_apart padField (by omega),
    load64_setFlag_apart flags (by omega), load64_setFlag_apart flags (by omega),
    load64_setFlag_apart flags (by omega), load64_setFlag_apart flags (by omega), setField,
    ← store64_eq_store, load64_store64_same]

end Headers

section Calls
variable {abi : BitFieldAbi} {pool : KernelBitMp} {fuel : Nat} {sz pad : SizeT} {wr user : Bool}
  {p q : UIntPtr} {σ σ' : BitMapState} {code : Int}

def BitFieldAbi.headers (abi : BitFieldAbi) : SizeT := BitVec.ofNat 64 abi.kHeapMgrHdrSz

theorem headers_double : field (field p abi.sizeofInformationBlock) abi.sizeofInformationBlock =
    p + abi.headers := by
  cases abi <;> simp [field, BitFieldAbi.headers, BitFieldAbi.kHeapMgrHdrSz] <;> bv_omega

/-- The state `mm_alloc_ptr` leaves behind, given the bitmap's answer. -/
def registered (abi : BitFieldAbi) (ptr : UIntPtr) (szFix : SizeT) (wr user : Bool) (pad : SizeT)
    (τ : BitMapState) : BitMapState :=
  { τ with mem := registerBlock abi (field ptr abi.sizeofInformationBlock) szFix wr user pad τ.mem }

theorem registered_sameOutside {ptr szFix : UIntPtr} {τ : BitMapState} :
    SameOutside (field ptr abi.sizeofInformationBlock) abi.sizeofInformationBlock τ.mem
      (registered abi ptr szFix wr user pad τ).mem :=
  registerBlock_sameOutside

/-- A request that returns hands out the bitmap's pointer plus both headers, null or not. -/
theorem mmAllocPtr_some (abi : BitFieldAbi) (pool : KernelBitMp) (fuel : Nat) (pad : SizeT)
    (wr user : Bool) (σ : BitMapState) (request : sz ≠ 0) :
    mmAllocPtr abi pool fuel sz wr user pad σ =
      (findBitMap fuel pool.kKernelBitMpStart (sz + abi.headers) wr user pad σ).map fun (ptr, τ) =>
        (ptr + abi.headers, registered abi ptr (sz + abi.headers) wr user pad τ) := by
  have double (ptr : UIntPtr) : field (field ptr abi.sizeofInformationBlock) abi.sizeofInformationBlock =
      ptr + abi.headers := headers_double
  unfold mmAllocPtr pageMgrRequest mmAllocBitmap registered
  unfold BitFieldAbi.headers at double ⊢
  rw [if_neg request]
  dsimp only
  rw [if_neg Bool.false_ne_true]
  cases findBitMap fuel pool.kKernelBitMpStart (sz + BitVec.ofNat 64 abi.kHeapMgrHdrSz) wr user pad σ with
  | none => rfl
  | some result =>
      simp only [Option.map_some, PTEWrapper.virtualAddress, registerBlock_fOffset, double]

theorem mmAllocPtr_cases (request : sz ≠ 0)
    (returned : mmAllocPtr abi pool fuel sz wr user pad σ = some (p, σ')) :
    ∃ ptr τ, findBitMap fuel pool.kKernelBitMpStart (sz + abi.headers) wr user pad σ = some (ptr, τ) ∧
      p = ptr + abi.headers ∧ σ' = registered abi ptr (sz + abi.headers) wr user pad τ := by
  rw [mmAllocPtr_some _ _ _ _ _ _ _ request, Option.map_eq_some_iff] at returned
  obtain ⟨⟨ptr, τ⟩, found, result⟩ := returned
  cases result
  exact ⟨ptr, τ, found, rfl, rfl⟩

theorem mmFreePtr_cases (returned : mmFreePtr abi p σ = some (code, σ')) :
    (σ' = σ ∧ code = kErrorHeapNotPresent) ∨
    ∃ info base, code = kErrorSuccess ∧ mmIsBitmap σ.mem base = true ∧
      σ' = (freeBitMap base { σ with mem := releaseBlock abi info σ.mem }).2 := by
  unfold mmFreePtr at returned
  dsimp only at returned
  split_ifs at returned with null low absent magic live
  · exact .inl (by cases returned; exact ⟨rfl, rfl⟩)
  · exact .inl (by cases returned; exact ⟨rfl, rfl⟩)
  · exact .inl (by cases returned; exact ⟨rfl, rfl⟩)
  · exact .inl (by cases returned; exact ⟨rfl, rfl⟩)
  · have present := (Bool.not_eq_false _).mp absent
    refine .inr ⟨p - BitVec.ofNat 64 abi.sizeofInformationBlock,
      p - BitVec.ofNat 64 abi.kHeapMgrHdrSz, ?_⟩
    unfold pageMgrFree mmFreeBitmap PTEWrapper.virtualAddress at returned
    dsimp only at returned
    split_ifs at returned with zero freed
    · rw [zero] at present
      cases present
    · simp only [Option.map_some, Option.some.injEq, Prod.mk.injEq] at returned
      exact ⟨returned.1.symm, present, returned.2.symm⟩
    · cases returned

/-- Nothing has been handed out since the platform cleared the pool. -/
def Pristine (pool : KernelBitMp) (σ : BitMapState) : Prop :=
  ZeroedPool pool σ.mem ∧ σ.kBitMapCursor = 0

/-- The calls that ask the bitmap for memory. -/
def HeapCall.requests : HeapCall → Prop
  | .alloc sz _ _ _ => sz ≠ 0
  | .free _ => False

theorem pristine_step {call : HeapCall} (none : ¬ call.requests) (pristine : Pristine pool σ)
    (step : HeapStep abi pool call σ σ') : Pristine pool σ' := by
  cases call with
  | alloc sz wr user pad =>
      obtain ⟨fuel, p, returned⟩ := step
      have zero : sz = 0 := not_not.mp none
      unfold mmAllocPtr at returned
      rw [if_pos zero] at returned
      cases returned
      exact pristine
  | free p =>
      obtain ⟨code, returned⟩ := step
      obtain ⟨⟨zero, fits, room⟩, atStart⟩ := pristine
      rcases mmFreePtr_cases returned with ⟨rfl, -⟩ | ⟨info, base, -, -, rfl⟩
      · exact ⟨⟨zero, fits, room⟩, atStart⟩
      · refine ⟨⟨fun x inside => ?_, fits, room⟩, freeBitMap_cursor_zero atStart⟩
        exact freeBitMap_zero (releaseBlock_zero (zero x inside))

theorem headers_le (abi : BitFieldAbi) : 68 ≤ abi.headers.toNat ∧ abi.headers.toNat ≤ 70 ∧
    abi.headers.toNat = 2 * abi.sizeofInformationBlock := by
  cases abi <;> decide

/-- The first pointer handed out is not recognised: its first word is not the bitmap's magic. -/
theorem first_request_invalid (pristine : Pristine pool σ) (request : sz ≠ 0)
    (returned : mmAllocPtr abi pool fuel sz wr user pad σ = some (p, σ')) :
    p ≠ 0 ∧ mmIsValidPtr abi p σ' = false := by
  obtain ⟨zeroed, atStart⟩ := pristine
  have fits := zeroed.fits
  have room := zeroed.room
  obtain ⟨low, high, double⟩ := headers_le abi
  obtain ⟨ptr, τ, found, rfl, rfl⟩ := mmAllocPtr_cases request returned
  clear returned
  by_cases no : refused (sz + abi.headers)
  · rw [findBitMap_refused no] at found
    cases found
    refine ⟨by bv_omega, ?_⟩
    unfold mmIsValidPtr mmCheckPtrAddress
    rw [if_neg (by bv_omega), if_pos]
    unfold BitFieldAbi.headers
    bv_omega
  · obtain ⟨rfl, rfl⟩ := findBitMap_first zeroed atStart no found
    have blank : mmIsBitmap (registered abi (pool.kKernelBitMpStart + 24) (sz + abi.headers) wr user pad
        (takeSlot pool.kKernelBitMpStart (sz + abi.headers) pad σ)).mem
        (pool.kKernelBitMpStart + 24) = false := by
      have word : bitSet (registered abi (pool.kKernelBitMpStart + 24) (sz + abi.headers) wr user pad
          (takeSlot pool.kKernelBitMpStart (sz + abi.headers) pad σ)).mem
          (pool.kKernelBitMpStart + 24) kBitMapMagIdx = 0 := by
        refine bitSet_zero fun x inside => ?_
        have inPool : Within pool.kKernelBitMpStart pool.kKernelBitMpSize.toNat x := by
          unfold Within kBitMapMagIdx at *
          bv_omega
        rw [registered_sameOutside x, takeSlot_sameOutside x, zeroed.zero x inPool]
        · unfold Within kBitMapMagIdx at *
          bv_omega
        · unfold Within kBitMapMagIdx field at *
          bv_omega
      unfold mmIsBitmap isBitMap
      rw [word]
      simp [kBitMapMagic]
    refine ⟨by bv_omega, ?_⟩
    have base : pool.kKernelBitMpStart + 24 + abi.headers - BitVec.ofNat 64 abi.kHeapMgrHdrSz =
        pool.kKernelBitMpStart + 24 := BitVec.add_sub_cancel _ _
    unfold mmIsValidPtr mmCheckPtrAddress
    rw [base, if_pos blank, ite_self, ite_self]

end Calls

/-- Each pointer the run hands out is valid until it is freed, is then freed with success, and is
invalid from there on. -/
def RoundTrips (abi : BitFieldAbi) (pool : KernelBitMp) (boot : BitMapState) (calls : List HeapCall) :
    Prop :=
  ∀ before sz wr user pad mid after, calls = before ++ .alloc sz wr user pad :: (mid ++ after) →
    sz ≠ 0 → ∀ σ, Run (HeapStep abi pool) boot before σ →
    ∀ fuel p τ, mmAllocPtr abi pool fuel sz wr user pad σ = some (p, τ) → p ≠ 0 →
    HeapCall.free p ∉ mid → ∀ τ', Run (HeapStep abi pool) τ mid τ' →
    mmIsValidPtr abi p τ' = true ∧
    ∃ ω, mmFreePtr abi p τ' = some (kErrorSuccess, ω) ∧ mmIsValidPtr abi p ω = false

section RoundTrip
variable {abi : BitFieldAbi} {pool : KernelBitMp} {mem : Memory} {biggest : SizeT}
  {calls : List HeapCall} {σ : BitMapState}

theorem not_roundTrips (zeroed : ZeroedPool pool mem)
    (run : Run (HeapStep abi pool) ⟨mem, 0, biggest⟩ calls σ) (occurs : ∃ c ∈ calls, c.requests) :
    ¬ RoundTrips abi pool ⟨mem, 0, biggest⟩ calls := by
  intro round
  obtain ⟨before, call, after, σ₁, σ₂, split, none, request, left, step, -⟩ := run.first occurs
  have pristine : Pristine pool σ₁ :=
    left.invariant_of_mem (fun c member _ _ h taken => pristine_step (none c member) h taken)
      ⟨zeroed, rfl⟩
  cases call with
  | alloc sz wr user pad =>
      obtain ⟨fuel, p, returned⟩ := step
      obtain ⟨nonnull, invalid⟩ := first_request_invalid pristine request returned
      obtain ⟨valid, -⟩ := round before sz wr user pad [] after split request σ₁ left fuel p σ₂
        returned nonnull (by simp) σ₂ (.nil σ₂)
      rw [invalid] at valid
      cases valid
  | free p => exact request

theorem roundTrips_iff_no_request (zeroed : ZeroedPool pool mem)
    (run : Run (HeapStep abi pool) ⟨mem, 0, biggest⟩ calls σ) :
    RoundTrips abi pool ⟨mem, 0, biggest⟩ calls ↔ ∀ c ∈ calls, ¬ c.requests := by
  constructor
  · intro round c member request
    exact not_roundTrips zeroed run ⟨c, member, request⟩ round
  · intro none before sz wr user pad mid after split nonzero
    exact absurd nonzero (none (.alloc sz wr user pad) (by simp [split]))

end RoundTrip

theorem megabytePool_run : ∃ σ, Run (HeapStep .ms megabytePool) ⟨fun _ => 0, 0, 0⟩
    [.alloc 16 true false 0] σ := by
  have free : FreeSlot (fun _ => 0) (16 + BitFieldAbi.ms.headers) 0 0x100000 0x100000 :=
    .here (bitSet_zero fun _ _ => rfl)
  obtain ⟨fuel, found⟩ := findBitMapFrom_complete (σ := ⟨fun _ => 0, 0, 0⟩) free
  have accepted : ¬ refused (16 + BitFieldAbi.ms.headers) := by decide
  have returned := mmAllocPtr_some .ms megabytePool fuel 0 true false ⟨fun _ => 0, 0, 0⟩
    (by decide : (16 : SizeT) ≠ 0)
  rw [findBitMap_accepted accepted] at returned
  have base : megabytePool.kKernelBitMpStart + (0 : SizeT) = 0x100000 := by decide
  rw [base, found] at returned
  exact ⟨_, .single ⟨fuel, _, returned⟩⟩

theorem roundTrips_iff_no_request_megabyte : ∃ σ,
    Run (HeapStep .ms megabytePool) ⟨fun _ => 0, 0, 0⟩ [.alloc 16 true false 0] σ ∧
    (RoundTrips .ms megabytePool ⟨fun _ => 0, 0, 0⟩ [.alloc 16 true false 0] ↔
      ∀ c ∈ [HeapCall.alloc 16 true false 0], ¬ c.requests) := by
  obtain ⟨σ, run⟩ := megabytePool_run
  exact ⟨σ, run, roundTrips_iff_no_request megabytePool_zeroed run⟩

theorem alloc_16_not_roundTrips : ¬ ∀ calls σ,
    Run (HeapStep .ms megabytePool) ⟨fun _ => 0, 0, 0⟩ calls σ →
    RoundTrips .ms megabytePool ⟨fun _ => 0, 0, 0⟩ calls := by
  intro claim
  obtain ⟨σ, run⟩ := megabytePool_run
  have request : (HeapCall.alloc 16 true false 0).requests := by
    unfold HeapCall.requests
    decide
  exact not_roundTrips megabytePool_zeroed run ⟨_, List.mem_singleton_self _, request⟩
    (claim _ σ run)

end Ne.Kernel
