import NeKernel.Ldr.PageLoads

/-!
# The PEF loader and what it reads

`PEFLoader` over a blob in memory. A loader made from a blob has no file, so a lookup that does not
find a length has nothing to read from.
-/

namespace Ne.Kernel.Ldr
open ByteMem Access HAL

structure PEFLoader where
  fCachedBlob : UIntPtr
  fCachedBlobSz : SizeT
  fFatBinary : Bool
  fBad : Bool
  deriving DecidableEq

/-- `magic[0] == want[0] && ...`. -/
def magicIs (m : Memory) : UIntPtr → List Byte → Traced Access Bool
  | _, [] => pure true
  | a, c :: rest => do
      let byte ← fetchByte m a
      if byte = c then magicIs m (a + 1) rest else pure false

namespace PEFLoader

def bad (len : SizeT) : PEFLoader := ⟨0, len, false, true⟩

/-- The constructor. The container is read where it lies. -/
def make (m : Memory) (blob : UIntPtr) (len : SizeT) : Traced Access PEFLoader :=
  if blob = 0 then pure (bad len)
  else do
    let abi ← PEFContainer.Abi.fetch m blob
    if abi ≠ kPefAbi then pure (bad len)
    else do
      let count ← PEFContainer.Count.fetch m blob
      if count < 3 then pure (bad len)
      else do
        let cpu ← PEFContainer.Cpu.fetch m blob
        let thin ← if cpu = ldrGetPlatform then magicIs m blob kPefMagic else pure false
        if thin then pure ⟨blob, len, false, false⟩
        else do
          let fat ← magicIs m blob kPefMagicFat
          pure (if fat then ⟨blob, len, true, false⟩ else bad len)

end PEFLoader

def sectionPrefix (kind : BitVec 32) : Option (List Byte) :=
  if kind = kPefCode then some [0x2E, 0x63, 0x6F, 0x64, 0x65, 0x36, 0x34]
  else if kind = kPefData then some [0x2E, 0x64, 0x61, 0x74, 0x61, 0x36, 0x34]
  else if kind = kPefZero then some [0x2E, 0x7A, 0x65, 0x72, 0x6F, 0x36, 0x34]
  else none

/-- `pef_make_name`, into an array of `kPefNameLen` characters. -/
def pefMakeName (kind : BitVec 32) (name : List Byte) : Option (List Byte) :=
  match sectionPrefix kind with
  | none => none
  | some start =>
      let nameLen := rtStringLen name kPefNameLen
      if nameLen ≥ kPefNameLen - start.length then none
      else some (start ++ (chars name nameLen).map fun c => if c = 0x20 then 0x24 else c)

/-- `pef_load_section`. -/
def pefLoadSection (cr3 : UIntPtr) (m : Memory) (hdr : Image) (src : UIntPtr) (σ : PmmState) :
    Traced Access (Ending × PmmState) :=
  if src = 0 then pure (.error kErrorInvalidData, σ)
  else
    let va := PEFCommandHeader.VMAddress.get hdr
    let pages := pageCount (PEFCommandHeader.VMSize.get hdr).toNat
    let (backed, τ) := backFrom cr3 va pages 0 σ
    if backed = false then pure (.error kErrorHeapOutOfMemory, τ)
    else if PEFCommandHeader.OffsetSize.get hdr > 0 then do
      let (copied, υ) ← rtCopyMemorySafe cr3 m src va (PEFCommandHeader.OffsetSize.get hdr)
        (PEFCommandHeader.VMSize.get hdr) τ
      pure (if copied then .value va else .fault, υ)
    else pure (.value va, τ)

/-- `FindSymbol`. -/
def PEFLoader.findSymbol (cr3 : UIntPtr) (m : Memory) (ldr : PEFLoader) (name : Option (List Byte))
    (kind : BitVec 32) (σ : PmmState) : Traced Access (Ending × PmmState) :=
  match name with
  | none => pure (.error kErrorInvalidData, σ)
  | some name =>
      if ldr.fCachedBlob = 0 ∨ ldr.fBad = true then pure (.error kErrorInvalidData, σ)
      else if ldr.fCachedBlobSz = 0 then pure (.error kErrorInvalidData, σ)
      else match pefMakeName kind name with
        | none => pure (.error kErrorInvalidData, σ)
        | some sectName => do
            let hdr ← pefFindSection m ldr.fCachedBlob ldr.fCachedBlobSz (some sectName) kind
            match hdr with
            | none => pure (.error kErrorInvalidData, σ)
            | some hdr => pefLoadSection cr3 m hdr (if PEFCommandHeader.OffsetSize.get hdr > 0
                then ldr.fCachedBlob + PEFCommandHeader.Offset.get hdr else 0) σ

section Reads
variable {cr3 blob src : UIntPtr} {m : Memory} {len : SizeT} {hdr : Image} {σ : PmmState} {ldr : PEFLoader}
  {name : Option (List Byte)} {kind : BitVec 32}

theorem pefLoadSection_reads
    (inside : 0 < (PEFCommandHeader.OffsetSize.get hdr).toNat →
      Covers blob len.toNat src (PEFCommandHeader.OffsetSize.get hdr).toNat) :
    Traced.Only (ReadsIn blob len.toNat) (pefLoadSection cr3 m hdr src σ) := by
  unfold pefLoadSection
  simp only [Traced.only_ite, Traced.only_pure, Traced.only_bind, implies_true, true_and, and_true]
  intro _ _ some
  have positive : 0 < (PEFCommandHeader.OffsetSize.get hdr).toNat := by simpa [BitVec.lt_def] using some
  have small := (PEFCommandHeader.OffsetSize.get hdr).isLt
  exact rtCopyMemorySafe_only (fun i below x byte => inside positive x (byte.of_offset i (by omega)))
    fun _ _ => readsIn_write

theorem findSymbol_reads : Traced.Only (ReadsIn ldr.fCachedBlob ldr.fCachedBlobSz.toNat)
    (ldr.findSymbol cr3 m name kind σ) := by
  unfold PEFLoader.findSymbol
  cases name with
  | none => exact Traced.only_pure
  | some name =>
      simp only [Traced.only_ite, Traced.only_pure, implies_true, true_and]
      intro _ _
      cases pefMakeName kind name with
      | none => exact Traced.only_pure
      | some sectName =>
          refine Traced.only_bind.mpr ⟨pefFindSection_sound.mono fun e sound => sound.1, ?_⟩
          cases found : (pefFindSection m ldr.fCachedBlob ldr.fCachedBlobSz (some sectName) kind).val with
          | none => exact Traced.only_pure
          | some hdr =>
              refine pefLoadSection_reads fun positive => ?_
              have some : PEFCommandHeader.OffsetSize.get hdr > 0 := by
                simpa [BitVec.lt_def] using positive
              have bound := ((pefFindSection_some found).inside positive).2
              rw [if_pos some]
              simpa using @covers_offset ldr.fCachedBlob _ _ _ bound

theorem magicIs_reads {want : List Byte} {a : UIntPtr} {n : Nat}
    (inside : ∀ i < want.length, Covers blob n (a + BitVec.ofNat 64 i) 1) :
    Traced.Only (ReadsIn blob n) (magicIs m a want) := by
  induction want generalizing a with
  | nil => exact Traced.only_pure
  | cons c rest ih =>
      have first := inside 0 (by simp)
      rw [magicIs]
      simp only [Traced.only_bind, Traced.only_ite, Traced.only_pure, only_fetchByte, readsIn_read,
        implies_true, and_true]
      refine ⟨by simpa using first, fun _ => ih fun i below => ?_⟩
      have later := inside (i + 1) (by simpa using below)
      rwa [Nat.add_comm, BitVec.ofNat_add, ← BitVec.add_assoc] at later

theorem make_reads_iff : Traced.Only (ReadsIn blob len.toNat) (PEFLoader.make m blob len) ↔
    blob = 0 ∨ 21 ≤ len.toNat ∧ (PEFContainer.Abi.on m blob = kPefAbi → 53 ≤ len.toNat) := by
  have range := len.isLt
  have abi : Covers blob len.toNat (blob + BitVec.ofNat 64 17) 4 ↔ 21 ≤ len.toNat :=
    covers_offset_iff range (by omega) (by omega)
  have count : Covers blob len.toNat (blob + BitVec.ofNat 64 45) 8 ↔ 53 ≤ len.toNat :=
    covers_offset_iff range (by omega) (by omega)
  unfold PEFLoader.make
  simp only [Traced.only_ite, Traced.only_pure, Traced.only_bind, implies_true, true_and, and_true,
    Field.only_fetch, Field.fetch_val, readsIn_read]
  constructor
  · intro stays
    by_cases null : blob = 0
    · exact .inl null
    · obtain ⟨first, rest⟩ := stays null
      refine .inr ⟨abi.mp first, fun same => count.mp (rest (not_not.mpr same)).1⟩
  · rintro (null | ⟨first, rest⟩) nonnull
    · exact absurd null nonnull
    · refine ⟨abi.mpr first, fun same => ?_⟩
      have long := rest (not_not.mp same)
      have magic (want : List Byte) (five : want.length = 5) :
          Traced.Only (ReadsIn blob len.toNat) (magicIs m blob want) :=
        magicIs_reads fun i below => covers_offset (by omega)
      exact ⟨count.mpr long, fun _ => ⟨covers_offset (by simp [PEFContainer.Cpu]; omega),
        fun _ => ⟨magic kPefMagic rfl, fun _ => magic kPefMagicFat rfl⟩,
        fun _ _ => magic kPefMagicFat rfl⟩⟩

theorem make_blob : (PEFLoader.make m blob len).val = PEFLoader.bad len ∨
    (PEFLoader.make m blob len).val.fCachedBlob = blob ∧
      (PEFLoader.make m blob len).val.fCachedBlobSz = len := by
  unfold PEFLoader.make
  simp only [Traced.val_ite, Traced.val_pure, Traced.val_bind]
  split_ifs <;> simp

theorem findSymbol_bad : Traced.Only (ReadsIn blob len.toNat)
    ((PEFLoader.bad len).findSymbol cr3 m name kind σ) := by
  unfold PEFLoader.findSymbol
  cases name with
  | none => exact Traced.only_pure
  | some name =>
      have closed : (PEFLoader.bad len).fCachedBlob = 0 ∨ (PEFLoader.bad len).fBad = true := .inl rfl
      simp only [if_pos closed]
      exact Traced.only_pure

/-- The loader reads in the blob exactly when the container's members that its constructor looks at
lie in it. -/
theorem loader_reads_iff (m : Memory) (blob : UIntPtr) (len : SizeT) :
    (Traced.Only (ReadsIn blob len.toNat) (PEFLoader.make m blob len) ∧
      ∀ cr3 name kind σ, Traced.Only (ReadsIn blob len.toNat)
        ((PEFLoader.make m blob len).val.findSymbol cr3 m name kind σ)) ↔
    blob = 0 ∨ 21 ≤ len.toNat ∧ (PEFContainer.Abi.on m blob = kPefAbi → 53 ≤ len.toNat) := by
  rw [← make_reads_iff]
  refine ⟨fun stays => stays.1, fun stays => ⟨stays, fun cr3 name kind σ => ?_⟩⟩
  rcases @make_blob blob m len with rejected | ⟨atBlob, ofLen⟩
  · rw [rejected]
    exact findSymbol_bad
  · have reads : Traced.Only (ReadsIn (PEFLoader.make m blob len).val.fCachedBlob
        (PEFLoader.make m blob len).val.fCachedBlobSz.toNat)
        ((PEFLoader.make m blob len).val.findSymbol cr3 m name kind σ) := findSymbol_reads
    rwa [atBlob, ofLen] at reads

/-- A blob of 16 bytes ends before the member that is looked at first. -/
theorem truncated_reads_beyond :
    ¬ (Traced.Only (ReadsIn mainAt (16 : SizeT).toNat) (PEFLoader.make mainBlob mainAt 16) ∧
      ∀ cr3 name kind σ, Traced.Only (ReadsIn mainAt (16 : SizeT).toNat)
        ((PEFLoader.make mainBlob mainAt 16).val.findSymbol cr3 mainBlob name kind σ)) := by
  rintro ⟨constructed, -⟩
  rcases make_reads_iff.mp constructed with null | ⟨long, -⟩
  · exact absurd null (by decide)
  · exact absurd long (by decide)

end Reads

end Ne.Kernel.Ldr
