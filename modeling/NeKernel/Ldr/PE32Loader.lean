import NeKernel.Ldr.PageLoads

/-!
# The PE32+ loader

`PE32CodeMgr.cpp` of the AMD64 kernel, over a blob in memory: its constructor and `LoadImage`. The
headers lie back to back, and their members are read once here where the loops read them again.
-/

namespace Ne.Kernel.Ldr
open ByteMem Access HAL

def kMagMz0 : Byte := 0x4D
def kMagMz1 : Byte := 0x5A
def kPeSignature : BitVec 64 := 0x4550
def kPeMachineAMD64 : BitVec 64 := 0x8664
def kNeKernelPESubsystem : BitVec 64 := 0x11
def kPeMaxImageSz : BitVec 64 := 0x4000000

theorem kPeMaxImageSz_toNat : kPeMaxImageSz.toNat = 0x4000000 := rfl

attribute [irreducible] kPeMaxImageSz

namespace DosHeader
def size : Nat := 128
end DosHeader

namespace LdrExecHeader
def size : Nat := 24
def Signature : Field := { off := 0, size := 4 }
def Machine : Field := { off := 4, size := 2 }
def NumberOfSections : Field := { off := 6, size := 2 }
def SizeOfOptionalHeader : Field := { off := 20, size := 2 }
end LdrExecHeader

namespace LdrOptionalHeader
def size : Nat := 96
def AddressOfEntryPoint : Field := { off := 16, size := 4 }
def ImageBase : Field := { off := 24, size := 8 }
def SizeOfImage : Field := { off := 56, size := 4 }
def Subsystem : Field := { off := 68, size := 2 }
end LdrOptionalHeader

namespace LdrSectionHeader
def size : Nat := 40
def VirtualAddress : Field := { off := 12, size := 4 }
def SizeOfRawData : Field := { off := 16, size := 4 }
def PointerToRawData : Field := { off := 20, size := 4 }
end LdrSectionHeader

/-- `ldr_find_exec_header`, behind the DOS header. -/
def ldrFindExecHeader (m : Memory) (ptrDos : UIntPtr) : Traced Access UIntPtr :=
  if ptrDos = 0 then pure 0
  else do
    let mz0 ← fetchByte m ptrDos
    if mz0 ≠ kMagMz0 then pure 0
    else do
      let mz1 ← fetchByte m (ptrDos + 1)
      pure (if mz1 ≠ kMagMz1 then 0 else ptrDos + BitVec.ofNat 64 DosHeader.size)

def ldrFindOptExecHeader (m : Memory) (ptrDos : UIntPtr) : Traced Access UIntPtr :=
  if ptrDos = 0 then pure 0
  else do
    let exec ← ldrFindExecHeader m ptrDos
    pure (if exec = 0 then 0 else exec + BitVec.ofNat 64 LdrExecHeader.size)

structure PE32Loader where
  fCachedBlob : UIntPtr
  fCachedBlobSz : SizeT
  fImage : UIntPtr
  fBad : Bool
  deriving DecidableEq

namespace PE32Loader

def kMinPeSz : Nat := DosHeader.size + LdrExecHeader.size + LdrOptionalHeader.size

/-- Whether the constructor accepts the blob. -/
def accepts (m : Memory) (blob : UIntPtr) (len : SizeT) : Traced Access Bool :=
  if blob = 0 ∨ len < BitVec.ofNat 64 kMinPeSz then pure false
  else do
    let header ← ldrFindExecHeader m blob
    let opt ← ldrFindOptExecHeader m blob
    if header = 0 ∨ opt = 0 then pure false
    else do
      let machine ← LdrExecHeader.Machine.fetch m header
      if machine ≠ kPeMachineAMD64 then pure false
      else do
        let subsystem ← LdrOptionalHeader.Subsystem.fetch m opt
        if subsystem ≠ kNeKernelPESubsystem then pure false
        else do
          let image ← LdrOptionalHeader.SizeOfImage.fetch m opt
          pure (decide (1 ≤ image ∧ image ≤ kPeMaxImageSz))

def make (m : Memory) (blob : UIntPtr) (len : SizeT) : Traced Access PE32Loader := do
  let good ← accepts m blob len
  pure ⟨blob, len, 0, !good⟩

/-- The checks on a section with content, in the widths of the source. -/
def checkSection (len : SizeT) (image va raw ptr : BitVec 64) : Traced Access Bool :=
  if va > image then pure false
  else do
    let room ← subWord (image.setWidth 32) (va.setWidth 32)
    if raw.setWidth 32 > room then pure false
    else if ptr > len then pure false
    else do
      let rest ← subWord len ptr
      pure (decide (raw ≤ rest))

/-- The loop over the sections from `sec` on. -/
def copySections (cr3 : UIntPtr) (m : Memory) (blob : UIntPtr) (len : SizeT) (base : UIntPtr)
    (image : BitVec 64) : Nat → UIntPtr → PmmState → Traced Access (Ending × PmmState)
  | 0, _, σ => pure (.value base, σ)
  | left + 1, sec, σ => do
      let next := sec + BitVec.ofNat 64 LdrSectionHeader.size
      let raw ← LdrSectionHeader.SizeOfRawData.fetch m sec
      if raw = 0 then copySections cr3 m blob len base image left next σ
      else do
        let va ← LdrSectionHeader.VirtualAddress.fetch m sec
        let ptr ← LdrSectionHeader.PointerToRawData.fetch m sec
        let inside ← checkSection len image va raw ptr
        if inside = false then
          pure (.error kErrorInvalidData, ldrUnmapPages cr3 base (pageCount image.toNat) σ)
        else do
          let (copied, τ) ← rtCopyMemorySafe cr3 m (blob + ptr) (base + va) raw (image - va) σ
          if copied = false then pure (.fault, τ) else copySections cr3 m blob len base image left next τ

/-- What `LoadImage` does to a loader that has no image, with what it returns. -/
def mapImage (cr3 : UIntPtr) (m : Memory) (blob : UIntPtr) (len : SizeT) (σ : PmmState) :
    Traced Access (Ending × PmmState) := do
  let header ← ldrFindExecHeader m blob
  let opt ← ldrFindOptExecHeader m blob
  if header = 0 ∨ opt = 0 then pure (.error kErrorInvalidData, σ)
  else do
    let sections ← LdrExecHeader.NumberOfSections.fetch m header
    if sections < 1 then pure (.error kErrorInvalidData, σ)
    else do
      let optSize ← LdrExecHeader.SizeOfOptionalHeader.fetch m header
      let sectOff ← addWord (opt - blob) optSize
      if sectOff > len then pure (.error kErrorInvalidData, σ)
      else do
        let room ← subWord len sectOff
        if sections > room / BitVec.ofNat 64 LdrSectionHeader.size then
          pure (.error kErrorInvalidData, σ)
        else do
          let image ← LdrOptionalHeader.SizeOfImage.fetch m opt
          let base ← LdrOptionalHeader.ImageBase.fetch m opt
          let (backed, τ) := backFrom cr3 base (pageCount image.toNat) 0 σ
          if backed = false then pure (.error kErrorHeapOutOfMemory, τ)
          else copySections cr3 m blob len base image sections.toNat (opt + optSize) τ

/-- `LoadImage`. -/
def loadImage (cr3 : UIntPtr) (m : Memory) (ldr : PE32Loader) (σ : PmmState) :
    Traced Access (Ending × PE32Loader × PmmState) :=
  if ldr.fImage ≠ 0 then pure (.value ldr.fImage, ldr, σ)
  else if ldr.fBad = true ∨ ldr.fCachedBlob = 0 ∨ ldr.fCachedBlobSz = 0 then
    pure (.error kErrorInvalidData, ldr, σ)
  else do
    let (ending, τ) ← mapImage cr3 m ldr.fCachedBlob ldr.fCachedBlobSz σ
    match ending with
    | .value base => pure (.value base, { ldr with fImage := base }, τ)
    | other => pure (other, ldr, τ)

/-! ## What it accepts -/

/-- What the constructor knows of a blob it accepts. -/
structure Accepted (m : Memory) (blob : UIntPtr) (len : SizeT) : Prop where
  nonnull : blob ≠ 0
  long : 248 ≤ len.toNat
  header : (ldrFindExecHeader m blob).val = blob + BitVec.ofNat 64 128
  opt : (ldrFindOptExecHeader m blob).val = blob + BitVec.ofNat 64 152
  placed : ¬ (blob + BitVec.ofNat 64 128 = 0 ∨ blob + BitVec.ofNat 64 152 = 0)
  machine : LdrExecHeader.Machine.on m (blob + BitVec.ofNat 64 128) = kPeMachineAMD64
  subsystem : LdrOptionalHeader.Subsystem.on m (blob + BitVec.ofNat 64 152) = kNeKernelPESubsystem
  some : 1 ≤ (LdrOptionalHeader.SizeOfImage.on m (blob + BitVec.ofNat 64 152)).toNat
  limited : (LdrOptionalHeader.SizeOfImage.on m (blob + BitVec.ofNat 64 152)).toNat ≤ 0x4000000

section Acceptance
variable {m : Memory} {blob : UIntPtr} {len : SizeT} {P : Access → Prop}

theorem ldrFindExecHeader_val : (ldrFindExecHeader m blob).val = 0 ∨
    (ldrFindExecHeader m blob).val = blob + BitVec.ofNat 64 128 := by
  unfold ldrFindExecHeader
  simp only [Traced.val_ite, Traced.val_pure, Traced.val_bind]
  split_ifs
  all_goals simp [DosHeader.size]

theorem ldrFindOptExecHeader_val : (ldrFindOptExecHeader m blob).val =
    if blob = 0 ∨ (ldrFindExecHeader m blob).val = 0 then 0
    else (ldrFindExecHeader m blob).val + BitVec.ofNat 64 24 := by
  unfold ldrFindOptExecHeader
  simp only [Traced.val_ite, Traced.val_pure, Traced.val_bind, LdrExecHeader.size]
  by_cases null : blob = 0
  · rw [if_pos null, if_pos (.inl null)]
  · by_cases exec : (ldrFindExecHeader m blob).val = 0
    · rw [if_neg null, if_pos exec, if_pos (.inr exec)]
    · rw [if_neg null, if_neg exec, if_neg (not_or.mpr ⟨null, exec⟩)]

theorem ldrFindExecHeader_only (first : P (.read blob 1)) (second : P (.read (blob + 1) 1)) :
    Traced.Only P (ldrFindExecHeader m blob) := by
  unfold ldrFindExecHeader
  simp only [Traced.only_ite, Traced.only_bind, Traced.only_pure, only_fetchByte, implies_true, true_and,
    and_true]
  exact fun _ => ⟨first, fun _ => second⟩

theorem ldrFindOptExecHeader_only (first : P (.read blob 1)) (second : P (.read (blob + 1) 1)) :
    Traced.Only P (ldrFindOptExecHeader m blob) := by
  unfold ldrFindOptExecHeader
  simp only [Traced.only_ite, Traced.only_bind, Traced.only_pure, implies_true, true_and, and_true]
  exact fun _ => ldrFindExecHeader_only first second

theorem accepted_of_accepts (good : (accepts m blob len).val = true) : Accepted m blob len := by
  simp only [accepts, Traced.val_guard, Traced.val_bind, Traced.val_pure, Field.fetch_val,
    decide_eq_true_eq, not_or, BitVec.not_lt, ne_eq, not_not] at good
  obtain ⟨⟨nonnull, long⟩, ⟨header, opt⟩, machine, subsystem, one, limit⟩ := good
  have atHeader := ldrFindExecHeader_val.resolve_left header
  have atOpt : (ldrFindOptExecHeader m blob).val = blob + BitVec.ofNat 64 152 := by
    rw [ldrFindOptExecHeader_val, if_neg (not_or.mpr ⟨nonnull, header⟩), atHeader, BitVec.add_assoc]
    rfl
  rw [atHeader] at machine header
  rw [atOpt] at subsystem one limit opt
  rw [BitVec.le_def] at long one limit
  rw [kPeMaxImageSz_toNat] at limit
  exact ⟨nonnull, long, atHeader, atOpt, not_or.mpr ⟨header, opt⟩, machine, subsystem, one, limit⟩

theorem accepted_of_make (good : (make m blob len).val.fBad = false) : Accepted m blob len := by
  refine accepted_of_accepts ?_
  simpa only [make, Traced.val_bind, Traced.val_pure, Bool.not_eq_false'] using good

end Acceptance

/-! ## What loading an image touches -/

/-- Reads in the blob, writes below `size` from `base`, and no arithmetic that wraps. -/
def Confined (blob : UIntPtr) (len : Nat) (base : UIntPtr) (size : Nat) (e : Access) : Prop :=
  ReadsIn blob len e ∧ WritesIn base size e ∧ Exact e

section Sections
variable {cr3 blob base sec : UIntPtr} {m : Memory} {len : SizeT} {image va raw ptr : BitVec 64} {σ : PmmState}

theorem setWidth_toNat {v : BitVec 64} (small : v.toNat < 2 ^ 32) : (v.setWidth 32).toNat = v.toNat := by
  rw [BitVec.toNat_setWidth, Nat.mod_eq_of_lt small]

theorem checkSection_confined {size : Nat} (small : image.toNat < 2 ^ 32) (smallVa : va.toNat < 2 ^ 32) :
    Traced.Only (Confined blob len.toNat base size) (checkSection len image va raw ptr) := by
  unfold checkSection
  simp only [Traced.only_ite, Traced.only_pure, Traced.only_bind, only_subWord, Confined, readsIn_wrapped,
    writesIn_wrapped, not_exact_wrapped, implies_true, true_and, and_true, and_false, imp_false,
    setWidth_toNat small, setWidth_toNat smallVa, gt_iff_lt, BitVec.lt_def]
  exact fun below => ⟨below, fun _ start => start⟩

theorem checkSection_true (small : image.toNat < 2 ^ 32) (smallVa : va.toNat < 2 ^ 32)
    (smallRaw : raw.toNat < 2 ^ 32) (inside : (checkSection len image va raw ptr).val = true) :
    va ≤ image ∧ va.toNat + raw.toNat ≤ image.toNat ∧ ptr.toNat + raw.toNat ≤ len.toNat := by
  simp only [checkSection, Traced.val_guard, Traced.val_bind, Traced.val_pure, subWord_val,
    decide_eq_true_eq, gt_iff_lt, BitVec.not_lt] at inside
  obtain ⟨start, room, source, rest⟩ := inside
  have narrow : va.setWidth 32 ≤ image.setWidth 32 := by
    rw [BitVec.le_def, setWidth_toNat small, setWidth_toNat smallVa]
    exact start
  rw [BitVec.le_def, BitVec.toNat_sub_of_le narrow, setWidth_toNat small, setWidth_toNat smallVa,
    setWidth_toNat smallRaw] at room
  rw [BitVec.le_def, BitVec.toNat_sub_of_le source] at rest
  have start' := BitVec.le_def.mp start
  have source' := BitVec.le_def.mp source
  exact ⟨start, by omega, by omega⟩

theorem copySections_confined {left off : Nat} (small : image.toNat < 2 ^ 32)
    (room : off + left * 40 ≤ len.toNat) :
    Traced.Only (Confined blob len.toNat base image.toNat)
      (copySections cr3 m blob len base image left (blob + BitVec.ofNat 64 off) σ) := by
  induction left generalizing off σ with
  | zero => exact Traced.only_pure
  | succ left ih =>
      have member (f : Field) (fits : f.off + f.size ≤ 40) :
          Confined blob len.toNat base image.toNat
            (.read (blob + BitVec.ofNat 64 off + BitVec.ofNat 64 f.off) f.size) := by
        rw [BitVec.add_assoc, ← BitVec.ofNat_add]
        exact ⟨covers_offset (by omega), writesIn_read, exact_read⟩
      have step : blob + BitVec.ofNat 64 off + BitVec.ofNat 64 LdrSectionHeader.size =
          blob + BitVec.ofNat 64 (off + 40) := by
        rw [BitVec.add_assoc, ← BitVec.ofNat_add]
        rfl
      have later (τ : PmmState) := @ih τ (off + 40) (by omega)
      have va := LdrSectionHeader.VirtualAddress.on_lt m (blob + BitVec.ofNat 64 off)
      have raw := LdrSectionHeader.SizeOfRawData.on_lt m (blob + BitVec.ofNat 64 off)
      rw [copySections]
      simp only [Traced.only_bind, Traced.only_ite, Traced.only_pure, Field.only_fetch, Field.fetch_val, step]
      refine ⟨member _ (by decide), fun _ => later σ, fun _ => ⟨member _ (by decide), member _ (by decide),
        checkSection_confined small va, fun _ => trivial, fun accepted => ?_⟩⟩
      obtain ⟨start, target, source⟩ := checkSection_true small va raw (by simpa using accepted)
      refine ⟨rtCopyMemorySafe_only (fun i below => ?_) fun i below => ?_, fun _ => trivial, fun _ => later _⟩
      · exact ⟨covers_byte (by omega), writesIn_read, exact_read⟩
      · rw [BitVec.toNat_sub_of_le start] at below
        exact ⟨readsIn_write, covers_byte (by omega), exact_write⟩

end Sections

section Image
variable {cr3 blob : UIntPtr} {m : Memory} {len : SizeT} {σ : PmmState}

theorem mapImage_confined (good : Accepted m blob len) :
    Traced.Only (Confined blob len.toNat (LdrOptionalHeader.ImageBase.on m (blob + BitVec.ofNat 64 152))
      (LdrOptionalHeader.SizeOfImage.on m (blob + BitVec.ofNat 64 152)).toNat) (mapImage cr3 m blob len σ) := by
  have long := good.long
  have limited := good.limited
  generalize hbase : LdrOptionalHeader.ImageBase.on m (blob + BitVec.ofNat 64 152) = base at limited ⊢
  generalize himage : LdrOptionalHeader.SizeOfImage.on m (blob + BitVec.ofNat 64 152) = image at limited ⊢
  have member (off n : Nat) (fits : off + n ≤ 248) :
      Confined blob len.toNat base image.toNat (.read (blob + BitVec.ofNat 64 off) n) :=
    ⟨covers_offset (by omega), writesIn_read, exact_read⟩
  have first : Confined blob len.toNat base image.toNat (.read blob 1) := by
    simpa using member 0 1 (by omega)
  have field (f : Field) (at' : Nat) (fits : at' + f.off + f.size ≤ 248) :
      Confined blob len.toNat base image.toNat
        (.read (blob + BitVec.ofNat 64 at' + BitVec.ofNat 64 f.off) f.size) := by
    rw [BitVec.add_assoc, ← BitVec.ofNat_add]
    exact member _ _ fits
  have narrow := LdrExecHeader.SizeOfOptionalHeader.on_lt m (blob + BitVec.ofNat 64 128)
  unfold mapImage
  simp only [Traced.only_bind, Traced.only_ite, Traced.only_pure, Field.only_fetch, Field.fetch_val,
    only_addWord, only_subWord, addWord_val, subWord_val, good.header, good.opt, hbase, himage]
  refine ⟨ldrFindExecHeader_only first (member 1 1 (by omega)),
    ldrFindOptExecHeader_only first (member 1 1 (by omega)), fun _ => trivial, fun _ =>
    ⟨field _ 128 (by decide), fun _ => trivial, fun _ => ⟨field _ 128 (by decide), ?_⟩⟩⟩
  generalize LdrExecHeader.SizeOfOptionalHeader.on m (blob + BitVec.ofNat 64 128) = optSize at narrow ⊢
  generalize LdrExecHeader.NumberOfSections.on m (blob + BitVec.ofNat 64 128) = sections
  have narrow : optSize.toNat < 65536 := narrow
  have distance : blob + BitVec.ofNat 64 152 - blob = BitVec.ofNat 64 152 := by
    rw [BitVec.add_comm, BitVec.add_sub_cancel]
  have sum : (BitVec.ofNat 64 152 + optSize).toNat = 152 + optSize.toNat := by
    rw [BitVec.toNat_add, BitVec.toNat_ofNat]
    omega
  rw [distance]
  refine ⟨fun wrap => ?_, fun _ => trivial, fun start => ⟨fun wrap => ?_, fun _ => trivial, fun table =>
    ⟨field _ 152 (by decide), field _ 152 (by decide), fun _ => trivial, fun _ => ?_⟩⟩⟩
  · rw [BitVec.toNat_ofNat] at wrap
    omega
  · exact absurd (BitVec.lt_def.mpr wrap) start
  · have begins : BitVec.ofNat 64 152 + optSize ≤ len := BitVec.not_lt.mp start
    rw [gt_iff_lt, BitVec.not_lt, BitVec.le_def, BitVec.toNat_udiv, BitVec.toNat_sub_of_le begins, sum] at table
    have fits := Nat.mul_le_of_le_div _ _ _ table
    rw [LdrSectionHeader.size, BitVec.toNat_ofNat] at fits
    rw [BitVec.le_def, sum] at begins
    have secs : blob + BitVec.ofNat 64 152 + optSize = blob + BitVec.ofNat 64 (152 + optSize.toNat) := by
      rw [BitVec.ofNat_add, BitVec.ofNat_toNat, BitVec.setWidth_eq, BitVec.add_assoc]
    rw [secs]
    exact copySections_confined (by omega) (by omega)

/-- The headers of an image, back to back. -/
def peHeaders (sections optSize base size : Nat) : List Byte :=
  [kMagMz0, kMagMz1] ++ leBytes 126 0 ++ leBytes 4 0x4550 ++ leBytes 2 0x8664 ++ leBytes 2 sections ++
    leBytes 12 0 ++ leBytes 2 optSize ++ leBytes 26 0 ++ leBytes 8 base ++ leBytes 24 0 ++ leBytes 4 size ++
    leBytes 8 0 ++ leBytes 2 0x11 ++ leBytes 26 0

def imageAt : UIntPtr := 0x1000

/-- An image of one page, whose section's header is all zeroes. -/
def imageBlob : Memory := write (fun _ => 0) imageAt (peHeaders 1 96 0x40000000 0x1000)

end Image

end PE32Loader

end Ne.Kernel.Ldr
