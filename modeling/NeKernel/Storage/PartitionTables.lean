import NeKernel.FS.DiskImage
import NeKernel.FS.FileStream

/-!
# Partition tables

The disk-image tool and the check module of the boot loader write a table to a drive, and the drive manager
probes the first sector for one. The check module is built for the AHCI driver, with the kernel's `strcmp` and
`memcpy`.
-/

namespace Ne.Kernel.Storage
open ByteMem Runs
open FS (DiDiskImage zeroed utf8 kDISectorSz)

/-- What `kEPMMagic` is on each platform, and in a build for virtual partition maps. -/
inductive EpmMagic where
  | kEPMMagic86
  | kEPMMagicRISCV
  | kEPMMagicARM
  | kEPMMagic64k
  | kEPMMagic32k
  | kEPMMagicPPC
  | kEPMMagicError
  | vepm
  deriving DecidableEq

def EpmMagic.chars : EpmMagic → List Byte
  | .kEPMMagic86 => utf8 ['E', 'P', 'M', 'A', 'M']
  | .kEPMMagicRISCV => utf8 ['E', 'P', 'M', 'R', 'V']
  | .kEPMMagicARM => utf8 ['E', 'P', 'M', 'A', 'R']
  | .kEPMMagic64k => utf8 ['E', 'P', 'M', '6', '4']
  | .kEPMMagic32k => utf8 ['E', 'P', 'M', '3', '2']
  | .kEPMMagicPPC => utf8 ['E', 'P', 'M', 'P', 'C']
  | .kEPMMagicError => utf8 ['E', 'P', 'M', '?', '?']
  | .vepm => utf8 ['E', 'P', 'M', 'V', 'M']

def kEPMMagicLength : Nat := 5
def kEPMRevisionBcd : BitVec 64 := 0x0100
def kEPMBootBlockLba : Lba := 0
def kEPMNeKernel : BitVec 64 := 0x1f

namespace EpmPartBlock
def size : Nat := 512
def Magic : BitVec 64 := 0
def Name : BitVec 64 := 5
def Guid : BitVec 64 := 37
def Version : Field := { off := 53, size := 4 }
def NumBlocks : Field := { off := 57, size := 8 }
def SectorSz : Field := { off := 65, size := 8 }
def LbaStart : Field := { off := 73, size := 8 }
def LbaEnd : Field := { off := 81, size := 8 }
def Kind : Field := { off := 89, size := 2 }
def FsVersion : Field := { off := 93, size := 4 }
def Fs : BitVec 64 := 97
end EpmPartBlock

def kMagicGPT : List Byte := utf8 ['E', 'F', 'I', ' ', 'P', 'A', 'R', 'T']
def kMagicLenGPT : Nat := 8
def kSectorAlignGPT_PartTbl : Nat := 420
def gptPartitionEntrySize : Nat := 128

namespace GptPartitionTable
def size : Nat := 512
def Signature : BitVec 64 := 0
def Revision : Field := { off := 8, size := 4 }
def HeaderSize : Field := { off := 12, size := 4 }
def CRC32 : Field := { off := 16, size := 4 }
def Reserved1 : Field := { off := 20, size := 4 }
def LBAHeader : Field := { off := 24, size := 8 }
def LBAAltHeader : Field := { off := 32, size := 8 }
def FirstGPTEntry : Field := { off := 40, size := 8 }
def LastGPTEntry : Field := { off := 48, size := 8 }
def GuidData1 : Field := { off := 56, size := 4 }
def GuidData2 : Field := { off := 60, size := 2 }
def GuidData3 : Field := { off := 62, size := 2 }
def GuidData4 : BitVec 64 := 64
def StartingLBA : Field := { off := 72, size := 8 }
def NumPartitionEntries : Field := { off := 80, size := 4 }
def SizeOfEntries : Field := { off := 84, size := 4 }
def CRC32PartEntry : Field := { off := 88, size := 4 }
def Reserved2 : BitVec 64 := 92
end GptPartitionTable

def kGPTPartitionTableLBA : Lba := 512 + BitVec.ofNat 64 GptPartitionTable.size

/-! ## The disk-image tool -/

/-- The members of `DI_DISK_IMAGE` that only the partition table takes. -/
structure EpmDiskImage extends DiDiskImage where
  blockCnt : BitVec 32
  fsVersion : BitVec 32

def epmImageBlock (magic : EpmMagic) (img : EpmDiskImage) : Image :=
  let block := EpmPartBlock.NumBlocks.set (img.blockCnt.signExtend 64) zeroed
  let block := EpmPartBlock.SectorSz.set (img.sectorSz.signExtend 64) block
  let block := EpmPartBlock.Version.set kEPMRevisionBcd block
  let block := EpmPartBlock.LbaStart.set (BitVec.ofNat 64 EpmPartBlock.size) block
  let block := EpmPartBlock.LbaEnd.set (img.diskSz - EpmPartBlock.LbaStart.get block) block
  let block := EpmPartBlock.FsVersion.set (img.fsVersion.setWidth 64) block
  let block := write block EpmPartBlock.Name img.nameChars
  write block EpmPartBlock.Magic magic.chars

/-- `DIFormatPartitionEPM`: what it writes to the output file. `opens` is whether that file can be opened. -/
def diFormatPartitionEPM (magic : EpmMagic) (opens : Bool) (img : EpmDiskImage) : Option Image :=
  if img.sectorSz = 0 ∨ img.sectorSz.srem 512 ≠ 0 then none
  else if img.fsVersion = 0 then none
  else if img.outName = 0 ∨ img.diskName.head? = some 0 then none
  else if opens = false then none
  else some (epmImageBlock magic img)

/-! ## The drive manager -/

def kMassStorageDrive : BitVec 32 := 0xDA
def kReadOnlyDrive : BitVec 32 := 0x10
def kEPMDrive : BitVec 32 := 0x11
def kGPTDrive : BitVec 32 := 0x14
def kUnformattedDrive : BitVec 32 := 0x15

/-- What `io_detect_drive` sets in a `DriveTrait`. -/
structure Detected where
  fKind : BitVec 32
  fSectorSz : SizeT
  fLbaStart : Lba
  fLbaEnd : Lba
  fPacketReadOnly : Bool
  deriving DecidableEq

def detectedUnformatted (sectorCount : SizeT) : Detected where
  fKind := kMassStorageDrive ||| kUnformattedDrive ||| kReadOnlyDrive
  fSectorSz := 0x200
  fLbaStart := 0x400
  fLbaEnd := sectorCount - 1
  fPacketReadOnly := true

/-- `io_detect_drive`, where `sectorCount` is what `drv_std_get_sector_count` gives. -/
def ioDetectDrive (magic : EpmMagic) (sectorCount : SizeT) (disk : Mem 64) : Detected :=
  let block := window disk kEPMBootBlockLba EpmPartBlock.size
  if FS.rtStringCmp (read block EpmPartBlock.Magic kEPMMagicLength) magic.chars kEPMMagicLength = 0 then
    { fKind := kMassStorageDrive ||| kEPMDrive
      fSectorSz := EpmPartBlock.SectorSz.get block
      fLbaStart := EpmPartBlock.LbaStart.get block
      fLbaEnd := EpmPartBlock.LbaEnd.get block
      fPacketReadOnly := false }
  else
    let gpt := window disk kEPMBootBlockLba GptPartitionTable.size
    if FS.rtStringCmp (read gpt GptPartitionTable.Signature kMagicLenGPT) kMagicGPT kMagicLenGPT = 0 then
      { fKind := kMassStorageDrive ||| kGPTDrive
        fSectorSz := GptPartitionTable.SizeOfEntries.get gpt
        fLbaStart := GptPartitionTable.FirstGPTEntry.get gpt
        fLbaEnd := GptPartitionTable.LastGPTEntry.get gpt
        fPacketReadOnly := false }
    else detectedUnformatted sectorCount

/-! ## The check module of the boot loader -/

/-- The kernel's `strcmp` goes by the length of the first text. -/
def strcmp (a b : List Byte) : Int := FS.rtStringCmp a b (a.takeWhile (· ≠ 0)).length

/-- What the stack holds below a structure that is not initialised, and the bytes behind a structure. -/
structure Stack where
  garbage : Image
  behind : List Byte

/-- `IsPartitionValid` with `BOOTZ_EPM_SUPPORT`. -/
def isEpmPartitionValid (magic : EpmMagic) (stack : Stack) (disk : Mem 64) : Bool :=
  let buf := window disk kEPMBootBlockLba EpmPartBlock.size
  if strcmp (read buf EpmPartBlock.Magic EpmPartBlock.size ++ stack.behind) magic.chars > 0 then false
  else EpmPartBlock.Version.get buf = kEPMRevisionBcd

/-- The block that `Format` makes with `BOOTZ_EPM_SUPPORT`. The version is left out. -/
def loaderEpmBlock (magic : EpmMagic) (diskSize : SizeT) (garbage : Image) : Image :=
  let block := EpmPartBlock.FsVersion.set 0 garbage
  let block := EpmPartBlock.LbaStart.set (BitVec.ofNat 64 EpmPartBlock.size) block
  let block := EpmPartBlock.LbaEnd.set (diskSize - 1) block
  let block := EpmPartBlock.SectorSz.set 512 block
  let block := EpmPartBlock.Kind.set kEPMNeKernel block
  let block := EpmPartBlock.NumBlocks.set 1 block
  let block := write block EpmPartBlock.Guid (List.replicate 16 0)
  let block := write block EpmPartBlock.Fs (utf8 ['N', 'e'])
  let block := write block EpmPartBlock.Name (utf8 [' ', 'N', 'e', 'A', 'n', 't'])
  write block EpmPartBlock.Magic magic.chars

def formatEpm (magic : EpmMagic) (diskSize : SizeT) (stack : Stack) (disk : Mem 64) : Mem 64 :=
  place disk kEPMBootBlockLba EpmPartBlock.size (loaderEpmBlock magic diskSize stack.garbage)

/-- `IsPartitionValid` with `BOOTZ_GPT_SUPPORT`. -/
def isGptPartitionValid (stack : Stack) (disk : Mem 64) : Bool :=
  let gptPart := window disk kGPTPartitionTableLBA GptPartitionTable.size
  strcmp (read gptPart GptPartitionTable.Signature GptPartitionTable.size ++ stack.behind) kMagicGPT = 0 ∧
    GptPartitionTable.NumPartitionEntries.get gptPart ≥ 1 ∧
    GptPartitionTable.HeaderSize.get gptPart = BitVec.ofNat 64 GptPartitionTable.size

def loaderGptTable (garbage : Image) : Image :=
  let part := write garbage GptPartitionTable.Signature kMagicGPT
  let part := GptPartitionTable.Revision.set 0x00010000 part
  let part := GptPartitionTable.HeaderSize.set (BitVec.ofNat 64 GptPartitionTable.size) part
  let part := GptPartitionTable.CRC32.set 0 part
  let part := GptPartitionTable.Reserved1.set 0 part
  let part := GptPartitionTable.LBAHeader.set 0 part
  let part := GptPartitionTable.LBAAltHeader.set 0 part
  let part := GptPartitionTable.FirstGPTEntry.set 0 part
  let part := GptPartitionTable.LastGPTEntry.set 0 part
  let part := GptPartitionTable.GuidData1.set 0 part
  let part := GptPartitionTable.GuidData2.set 0 part
  let part := GptPartitionTable.GuidData3.set 0 part
  let part := write part GptPartitionTable.GuidData4 (List.replicate 8 0)
  let part := GptPartitionTable.Revision.set 0x00010000 part
  let part := GptPartitionTable.StartingLBA.set (kGPTPartitionTableLBA + 1024) part
  let part := GptPartitionTable.NumPartitionEntries.set 2 part
  let part := GptPartitionTable.SizeOfEntries.set (BitVec.ofNat 64 (gptPartitionEntrySize * 2)) part
  let part := GptPartitionTable.CRC32PartEntry.set 0 part
  write part GptPartitionTable.Reserved2 (List.replicate kSectorAlignGPT_PartTbl 0)

def formatGpt (stack : Stack) (disk : Mem 64) : Mem 64 :=
  place disk kGPTPartitionTableLBA GptPartitionTable.size (loaderGptTable stack.garbage)

/-- `SysChkModuleMain` of either build: the drive is formatted unless it is valid. -/
def sysChkModuleMain (valid : Stack → Mem 64 → Bool) (format : Stack → Mem 64 → Mem 64) (stack : Stack)
    (disk : Mem 64) : Mem 64 :=
  if valid stack disk then disk else format stack disk

def sysChkEpm (magic : EpmMagic) (diskSize : SizeT) : Stack → Mem 64 → Mem 64 :=
  sysChkModuleMain (isEpmPartitionValid magic) (formatEpm magic diskSize)

def sysChkGpt : Stack → Mem 64 → Mem 64 := sysChkModuleMain isGptPartitionValid formatGpt

/-! ## Reading tables back -/

section Texts
variable {xs ys : List Byte} {x y : Byte} {n : Nat}

theorem rtStringCmp_common : FS.rtStringCmp (xs ++ ys) xs (xs.length + n) = FS.rtStringCmp ys [] n := by
  induction xs with
  | nil => rw [List.nil_append, List.length_nil, Nat.zero_add]
  | cons x xs ih =>
      rw [List.cons_append, List.length_cons, Nat.succ_add, FS.rtStringCmp, if_neg (by simp)]
      exact ih

theorem rtStringCmp_self : FS.rtStringCmp xs xs xs.length = 0 := by
  simpa [FS.rtStringCmp] using @rtStringCmp_common xs [] 0

/-- `strcmp` with a text that goes on behind a literal. -/
theorem strcmp_longer (clear : ∀ x ∈ xs, x ≠ 0) (more : y ≠ 0) : strcmp (xs ++ y :: ys) xs = y.toInt := by
  have longer : ((xs ++ y :: ys).takeWhile (· ≠ 0)).length = xs.length + (ys.takeWhile (· ≠ 0)).length.succ := by
    rw [List.takeWhile_append_of_pos (by simpa using clear), List.takeWhile_cons_of_pos (by simpa using more),
      List.length_append, List.length_cons]
  rw [strcmp, longer, rtStringCmp_common, FS.rtStringCmp, if_pos (by simpa using more)]
  simp

/-- `strcmp` with a text that ends where the literal does. -/
theorem strcmp_ended (clear : ∀ x ∈ xs, x ≠ 0) : strcmp (xs ++ 0 :: ys) xs = 0 := by
  have ended : ((xs ++ 0 :: ys).takeWhile (· ≠ 0)).length = xs.length + 0 := by
    rw [List.takeWhile_append_of_pos (by simpa using clear), List.takeWhile_cons_of_neg (by simp), List.append_nil,
      Nat.add_zero]
  rw [strcmp, ended, rtStringCmp_common, FS.rtStringCmp]

/-- The texts that `strcmp` takes for a literal are the beginnings of the literal. -/
theorem strcmp_eq_zero_iff {a b : List Byte} : strcmp a b = 0 ↔ a.takeWhile (· ≠ 0) <+: b := by
  unfold strcmp
  induction a generalizing b with
  | nil => simp [FS.rtStringCmp]
  | cons x xs ih =>
      by_cases zero : x = 0
      · rw [List.takeWhile_cons_of_neg (by simpa using zero)]
        simp [FS.rtStringCmp]
      · rw [List.takeWhile_cons_of_pos (by simpa using zero), List.length_cons, FS.rtStringCmp, List.headD_cons,
          List.tail_cons]
        cases b with
        | nil =>
            rw [List.headD_nil, if_pos zero]
            have apart : x.toInt ≠ (0 : Byte).toInt := fun same => zero (BitVec.toInt_inj.mp same)
            exact iff_of_false (by omega) (by simp)
        | cons y ys =>
            rw [List.headD_cons, List.tail_cons, List.cons_prefix_cons]
            by_cases same : x = y
            · rw [if_neg (by simpa using same), ih, and_iff_right same]
            · have apart : x.toInt ≠ y.toInt := fun equal => same (BitVec.toInt_inj.mp equal)
              rw [if_pos same]
              exact iff_of_false (by omega) fun both => same both.1

/-- Nothing behind a buffer that is longer than the literal counts. -/
theorem strcmp_zero_append {a b behind : List Byte} (longer : b.length < a.length) :
    strcmp (a ++ behind) b = 0 ↔ strcmp a b = 0 := by
  rw [strcmp_eq_zero_iff, strcmp_eq_zero_iff, List.takeWhile_append]
  split
  · rename_i whole
    refine iff_of_false (fun front => ?_) fun front => ?_
    · have short := front.length_le
      rw [List.length_append] at short
      omega
    · have short := front.length_le
      omega
  · rfl

theorem EpmMagic.chars_length (magic : EpmMagic) : magic.chars.length = kEPMMagicLength := by cases magic <;> rfl

theorem EpmMagic.chars_clear (magic : EpmMagic) : ∀ x ∈ magic.chars, x ≠ 0 := by cases magic <;> decide

theorem EpmMagic.cmp_iff (magic other : EpmMagic) :
    FS.rtStringCmp magic.chars other.chars kEPMMagicLength = 0 ↔ magic = other := by
  cases magic <;> cases other <;> decide

/-- No partition map begins like a partition table of the other kind. -/
theorem EpmMagic.not_gpt (magic : EpmMagic) (rest : List Byte) :
    FS.rtStringCmp (magic.chars ++ rest) kMagicGPT kMagicLenGPT ≠ 0 := by
  have first : ∃ tail, magic.chars = 0x45 :: 0x50 :: tail := by cases magic <;> exact ⟨_, rfl⟩
  obtain ⟨tail, chars⟩ := first
  rw [chars]
  show (0x50 : Byte).toInt - (0x46 : Byte).toInt ≠ 0
  decide

end Texts

section Windows
variable {disk m : Mem 64} {image : Image} {f : Field} {a : BitVec 64} {n k : Nat}

/-- The first sector of the drive is this block. -/
def StartsWith (disk : Mem 64) (block : Image) : Prop := ∀ i : BitVec 64, i.toNat < EpmPartBlock.size → disk i = block i

theorem from_zero (i : BitVec 64) : 0 + i = i := BitVec.zero_add i

theorem StartsWith.window_eq (starts : StartsWith disk image) :
    window disk 0 EpmPartBlock.size = window image 0 EpmPartBlock.size := by
  funext i
  unfold ByteMem.window
  split
  · rename_i low
    rw [from_zero i]
    exact starts i low
  · rfl

theorem read_window_front (fits : k ≤ n) (small : n ≤ 2 ^ 64) : read (window m a n) 0 k = read m a k := by
  unfold ByteMem.read
  apply List.map_congr_left
  intro i member
  have low : i < k := List.mem_range.mp member
  have place : (BitVec.ofNat 64 i).toNat = i := by rw [BitVec.toNat_ofNat, Nat.mod_eq_of_lt (by omega)]
  rw [from_zero, ByteMem.window, if_pos (by omega)]

theorem get_write_apart {bytes : List Byte} (apart : a.toNat + bytes.length ≤ f.off ∨ f.off + f.size ≤ a.toNat)
    (fits : a.toNat + bytes.length ≤ 2 ^ 64) : f.get (write image a bytes) = f.get image := by
  refine Field.get_congr fun x high low => write_outside ?_
  rw [within_iff fits]
  omega

theorem get_window_start (inside : f.off + f.size ≤ n) : f.get (window image 0 n) = f.get image := by
  rw [Field.get_window inside, Field.on_zero]

end Windows

/-! ## What the drive manager makes of an image -/

section Images
variable {magic kernel : EpmMagic} {img : EpmDiskImage} {opens : Bool} {block : Image} {disk : Mem 64}
  {sectorCount : SizeT}

theorem nameChars_length (img : DiDiskImage) : img.nameChars.length ≤ 20 := by
  have le := (List.takeWhile_sublist (· ≠ (0 : Byte)) (l := img.diskName ++ leBytes 4 img.sectorSz.toNat)).length_le
  rwa [List.length_append, img.diskName_length, leBytes_length] at le

/-- The members behind the texts of a block are those of what it was written over. -/
theorem get_texts {f : Field} (behind : 53 ≤ f.off) :
    f.get (write (write block EpmPartBlock.Name img.nameChars) EpmPartBlock.Magic magic.chars) = f.get block := by
  have name := nameChars_length img.toDiDiskImage
  have chars : magic.chars.length = 5 := magic.chars_length
  have place : EpmPartBlock.Name.toNat = 5 := rfl
  have start : EpmPartBlock.Magic.toNat = 0 := rfl
  rw [get_write_apart (by omega) (by omega), get_write_apart (by omega) (by omega)]

theorem epmImageBlock_magic : read (epmImageBlock magic img) 0 kEPMMagicLength = magic.chars := by
  rw [← magic.chars_length]
  exact read_write_same (by rw [magic.chars_length]; decide)

theorem epmImageBlock_members : EpmPartBlock.Version.get (epmImageBlock magic img) = kEPMRevisionBcd ∧
    EpmPartBlock.SectorSz.get (epmImageBlock magic img) = img.sectorSz.signExtend 64 ∧
    EpmPartBlock.LbaStart.get (epmImageBlock magic img) = 512 ∧
    EpmPartBlock.LbaEnd.get (epmImageBlock magic img) = img.diskSz - 512 := by
  unfold epmImageBlock
  dsimp only
  refine ⟨?_, ?_, ?_, ?_⟩
  all_goals rw [get_texts (by decide)]
  · rw [Field.get_set_other (by decide), Field.get_set_other (by decide), Field.get_set_other (by decide),
      Field.get_set_same]
    rfl
  · rw [Field.get_set_other (by decide), Field.get_set_other (by decide), Field.get_set_other (by decide),
      Field.get_set_other (by decide), Field.get_set_full rfl]
  · rw [Field.get_set_other (by decide), Field.get_set_other (by decide), Field.get_set_full rfl]
    rfl
  · rw [Field.get_set_other (by decide), Field.get_set_full rfl, Field.get_set_full rfl]
    rfl

theorem diFormatPartitionEPM_some (done : diFormatPartitionEPM magic opens img = some block) :
    block = epmImageBlock magic img ∧ img.diskName.head? ≠ some 0 := by
  unfold diFormatPartitionEPM at done
  split at done
  · cases done
  split at done
  · cases done
  split at done
  · cases done
  · rename_i named
    split at done
    · cases done
    · exact ⟨(Option.some.inj done).symm, fun zero => named (.inr zero)⟩

theorem StartsWith.detect_epm (starts : StartsWith disk block) (same : read block 0 kEPMMagicLength = magic.chars) :
    ioDetectDrive magic sectorCount disk =
      ⟨kMassStorageDrive ||| kEPMDrive, EpmPartBlock.SectorSz.get block, EpmPartBlock.LbaStart.get block,
        EpmPartBlock.LbaEnd.get block, false⟩ := by
  have text : read (window block 0 EpmPartBlock.size) EpmPartBlock.Magic kEPMMagicLength = magic.chars := by
    rw [← same]
    exact read_window_front (by decide) (by decide)
  unfold ioDetectDrive kEPMBootBlockLba
  dsimp only
  rw [starts.window_eq, text, if_pos ((EpmMagic.cmp_iff magic magic).mpr rfl), get_window_start (by decide),
    get_window_start (by decide), get_window_start (by decide)]

theorem StartsWith.detect_other (starts : StartsWith disk block) (same : read block 0 kEPMMagicLength = magic.chars)
    (other : magic ≠ kernel) : ioDetectDrive kernel sectorCount disk = detectedUnformatted sectorCount := by
  have text : read (window block 0 EpmPartBlock.size) EpmPartBlock.Magic kEPMMagicLength = magic.chars := by
    rw [← same]
    exact read_window_front (by decide) (by decide)
  have signature : read (window block 0 GptPartitionTable.size) GptPartitionTable.Signature kMagicLenGPT =
      magic.chars ++ read block 5 3 := by
    rw [← same]
    exact (read_window_front (by decide) (by decide)).trans (read_add block 0 5 3)
  unfold ioDetectDrive kEPMBootBlockLba
  dsimp only
  rw [starts.window_eq, text, if_neg fun found => other ((EpmMagic.cmp_iff magic kernel).mp found)]
  rw [show window disk 0 GptPartitionTable.size = window block 0 GptPartitionTable.size from starts.window_eq,
    signature, if_neg (magic.not_gpt _)]

/-- A drive that starts with an image is probed as the partition map of the image, if the tool was built for the
kernel's platform, and as unformatted otherwise. -/
theorem image_detected (magic kernel : EpmMagic) (opens : Bool) (img : EpmDiskImage) (block : Image)
    (done : diFormatPartitionEPM magic opens img = some block) (disk : Mem 64) (starts : StartsWith disk block)
    (sectorCount : SizeT) :
    ioDetectDrive kernel sectorCount disk =
      if magic = kernel then
        ⟨kMassStorageDrive ||| kEPMDrive, img.sectorSz.signExtend 64, 512, img.diskSz - 512, false⟩
      else detectedUnformatted sectorCount := by
  obtain ⟨rfl, -⟩ := diFormatPartitionEPM_some done
  obtain ⟨-, sector, first, last⟩ := @epmImageBlock_members magic img
  by_cases same : magic = kernel
  · subst same
    rw [if_pos rfl, starts.detect_epm epmImageBlock_magic, sector, first, last]
  · rw [if_neg same]
    exact starts.detect_other epmImageBlock_magic same

end Images

/-- The tool's defaults: one megabyte, with the name `Disk`. -/
def defaultEpmImage : EpmDiskImage where
  toDiDiskImage := FS.defaultImage
  blockCnt := 0
  fsVersion := 1

theorem defaultEpmImage_formats : diFormatPartitionEPM .kEPMMagic86 true defaultEpmImage =
    some (epmImageBlock .kEPMMagic86 defaultEpmImage) := by
  unfold diFormatPartitionEPM
  rw [if_neg (by decide), if_neg (by decide), if_neg (by decide), if_neg (by decide)]

theorem image_detected_default : ioDetectDrive .kEPMMagic86 0x800 (epmImageBlock .kEPMMagic86 defaultEpmImage) =
    if EpmMagic.kEPMMagic86 = .kEPMMagic86 then
      ⟨kMassStorageDrive ||| kEPMDrive, defaultEpmImage.sectorSz.signExtend 64, 512, defaultEpmImage.diskSz - 512,
        false⟩
    else detectedUnformatted 0x800 :=
  image_detected .kEPMMagic86 .kEPMMagic86 true defaultEpmImage _ defaultEpmImage_formats _ (fun _ _ => rfl) 0x800

/-! ## What the check module leaves -/

section Checks
variable {magic : EpmMagic} {stack later : Stack} {disk : Mem 64} {diskSize sectorCount : SizeT} {garbage block : Image}
  {img : EpmDiskImage} {opens : Bool} {f : Field} {c : Byte}

theorem sysChkModuleMain_valid {valid : Stack → Mem 64 → Bool} {format : Stack → Mem 64 → Mem 64}
    (accepted : valid stack disk = true) : sysChkModuleMain valid format stack disk = disk := if_pos accepted

theorem sysChkModuleMain_invalid {valid : Stack → Mem 64 → Bool} {format : Stack → Mem 64 → Mem 64}
    (rejected : valid stack disk = false) : sysChkModuleMain valid format stack disk = format stack disk :=
  if_neg (by simp [rejected])

theorem isGptPartitionValid_stack : isGptPartitionValid stack disk = isGptPartitionValid later disk := by
  have long (m : Image) : kMagicGPT.length < (read m GptPartitionTable.Signature GptPartitionTable.size).length := by
    rw [read_length]
    decide
  unfold isGptPartitionValid
  dsimp only
  simp only [strcmp_zero_append (long _)]

theorem loaderGptTable_low {x : BitVec 64} (low : x.toNat < 8) :
    loaderGptTable garbage x = write garbage GptPartitionTable.Signature kMagicGPT x := by
  have away (a : BitVec 64) (bytes : List Byte) (behind : 8 ≤ a.toNat) (fits : a.toNat + bytes.length ≤ 2 ^ 64) :
      ¬ Within a bytes.length x := by
    rw [within_iff fits]
    omega
  have before (f : Field) (behind : 8 ≤ f.off) : x.toNat < f.off ∨ f.off + f.size ≤ x.toNat := .inl (by omega)
  have size : (List.replicate kSectorAlignGPT_PartTbl (0 : Byte)).length = 420 := List.length_replicate
  unfold loaderGptTable
  rw [write_outside (away _ _ (by decide) (by
    rw [size]
    decide))]
  iterate 5 rw [Field.set_outside (before _ (by decide))]
  rw [write_outside (away _ _ (by decide) (by decide))]
  iterate 11 rw [Field.set_outside (before _ (by decide))]

/-- The revision's low byte ends the signature. -/
theorem loaderGptTable_eighth : loaderGptTable garbage 8 = 0 := by
  have revision (s : Image) : GptPartitionTable.Revision.set 0x00010000 s 8 = 0 := by
    simp [Field.set, store, write, leBytes, GptPartitionTable.Revision]
  unfold loaderGptTable
  rw [write_outside (by
    rw [List.length_replicate]
    decide)]
  iterate 4 rw [Field.set_outside (by decide)]
  exact revision _

theorem loaderGptTable_signature :
    read (loaderGptTable garbage) 0 GptPartitionTable.size = kMagicGPT ++ 0 :: read (loaderGptTable garbage) 9 503 := by
  have text : read (loaderGptTable garbage) 0 8 = kMagicGPT := by
    have written : read (write garbage 0 kMagicGPT) 0 8 = kMagicGPT := read_write_same (by decide)
    rw [← written]
    exact read_congr (by decide) fun x inside => loaderGptTable_low (within_start inside)
  have ended : read (loaderGptTable garbage) 8 1 = [0] := congrArg (fun x => [x]) loaderGptTable_eighth
  calc read (loaderGptTable garbage) 0 GptPartitionTable.size
      = read (loaderGptTable garbage) 0 8 ++
          (read (loaderGptTable garbage) 8 1 ++ read (loaderGptTable garbage) 9 503) := by
        rw [show GptPartitionTable.size = 8 + (1 + 503) from rfl, read_add, read_add]
        rfl
    _ = _ := by rw [text, ended, List.singleton_append]

theorem loaderGptTable_members : GptPartitionTable.NumPartitionEntries.get (loaderGptTable garbage) = 2 ∧
    GptPartitionTable.HeaderSize.get (loaderGptTable garbage) = 512 := by
  have table (f : Field) (before : f.off + f.size ≤ GptPartitionTable.Reserved2.toNat) (s : Image) :
      f.get (write s GptPartitionTable.Reserved2 (List.replicate kSectorAlignGPT_PartTbl 0)) = f.get s :=
    get_write_apart (.inr before) (by
      rw [List.length_replicate]
      decide)
  unfold loaderGptTable
  dsimp only
  constructor
  · rw [table _ (by decide), Field.get_set_other (by decide), Field.get_set_other (by decide), Field.get_set_same]
    rfl
  · rw [table _ (by decide)]
    iterate 5 rw [Field.get_set_other (by decide)]
    rw [get_write_apart (by decide) (by decide)]
    iterate 9 rw [Field.get_set_other (by decide)]
    rw [Field.get_set_same]
    rfl

theorem formatGpt_valid : isGptPartitionValid later (formatGpt stack disk) = true := by
  obtain ⟨entries, header⟩ := @loaderGptTable_members stack.garbage
  have clear : ∀ x ∈ kMagicGPT, x ≠ 0 := by decide
  have text : read (window (loaderGptTable stack.garbage) 0 GptPartitionTable.size) 0 GptPartitionTable.size =
      kMagicGPT ++ 0 :: read (loaderGptTable stack.garbage) 9 503 := by
    rw [read_window (by decide), loaderGptTable_signature]
  unfold isGptPartitionValid formatGpt GptPartitionTable.Signature
  dsimp only
  rw [window_place_same, get_window_start (by decide), get_window_start (by decide), entries, header, text,
    List.append_assoc, List.cons_append, strcmp_ended clear]
  decide

/-- `IsPartitionValid` of a block whose magic goes on into its name. -/
theorem StartsWith.check_epm (starts : StartsWith disk block)
    (text : read block 0 EpmPartBlock.size = magic.chars ++ c :: read block 6 506) (named : c ≠ 0) :
    isEpmPartitionValid magic stack disk =
      decide (c.toInt ≤ 0 ∧ EpmPartBlock.Version.get block = kEPMRevisionBcd) := by
  unfold isEpmPartitionValid kEPMBootBlockLba EpmPartBlock.Magic
  dsimp only
  rw [starts.window_eq, read_window (by decide), text, List.append_assoc, List.cons_append,
    strcmp_longer magic.chars_clear named, get_window_start (by decide)]
  by_cases positive : c.toInt > 0
  · rw [if_pos positive]
    exact (decide_eq_false fun both => absurd both.1 (by omega)).symm
  · rw [if_neg positive]
    exact decide_eq_decide.mpr (iff_and_self.mpr fun _ => by omega)

theorem read_named (front : read block 0 kEPMMagicLength = magic.chars) (name : block 5 = c) :
    read block 0 EpmPartBlock.size = magic.chars ++ c :: read block 6 506 := by
  have ended : read block 5 1 = [c] := congrArg (fun x => [x]) name
  calc read block 0 EpmPartBlock.size
      = read block 0 5 ++ (read block 5 1 ++ read block 6 506) := by
        rw [show EpmPartBlock.size = 5 + (1 + 506) from rfl, read_add, read_add]
        rfl
    _ = _ := by rw [ended, List.singleton_append, ← front, kEPMMagicLength]

theorem not_within_magic : ¬ Within EpmPartBlock.Magic magic.chars.length 5 := by
  rw [magic.chars_length]
  decide

theorem loaderEpmBlock_members : EpmPartBlock.SectorSz.get (loaderEpmBlock magic diskSize garbage) = 512 ∧
    EpmPartBlock.LbaStart.get (loaderEpmBlock magic diskSize garbage) = 512 ∧
    EpmPartBlock.LbaEnd.get (loaderEpmBlock magic diskSize garbage) = diskSize - 1 := by
  have chars : magic.chars.length = 5 := magic.chars_length
  have magicPlace : EpmPartBlock.Magic.toNat = 0 := rfl
  have texts (f : Field) (behind : 53 ≤ f.off) (before : f.off + f.size ≤ 97) (s : Image) :
      f.get (write (write (write (write s EpmPartBlock.Guid (List.replicate 16 0)) EpmPartBlock.Fs (utf8 ['N', 'e']))
        EpmPartBlock.Name (utf8 [' ', 'N', 'e', 'A', 'n', 't'])) EpmPartBlock.Magic magic.chars) = f.get s := by
    rw [get_write_apart (.inl (by omega)) (by omega),
      get_write_apart (.inl (Nat.le_trans (by decide) behind)) (by decide),
      get_write_apart (.inr before) (by decide),
      get_write_apart (.inl (Nat.le_trans (by decide) behind)) (by decide)]
  unfold loaderEpmBlock
  dsimp only
  refine ⟨?_, ?_, ?_⟩
  all_goals rw [texts _ (by decide) (by decide)]
  · rw [Field.get_set_other (by decide), Field.get_set_other (by decide), Field.get_set_full rfl]
  · rw [Field.get_set_other (by decide), Field.get_set_other (by decide), Field.get_set_other (by decide),
      Field.get_set_other (by decide), Field.get_set_full rfl]
    rfl
  · rw [Field.get_set_other (by decide), Field.get_set_other (by decide), Field.get_set_other (by decide),
      Field.get_set_full rfl]

theorem loaderEpmBlock_text : read (loaderEpmBlock magic diskSize garbage) 0 kEPMMagicLength = magic.chars ∧
    loaderEpmBlock magic diskSize garbage 5 = 0x20 := by
  constructor
  · rw [← magic.chars_length]
    exact read_write_same (by rw [magic.chars_length]; decide)
  · unfold loaderEpmBlock
    rw [write_outside not_within_magic]
    simp [write, utf8, EpmPartBlock.Name]

theorem formatEpm_startsWith : StartsWith (formatEpm magic diskSize stack disk)
    (loaderEpmBlock magic diskSize stack.garbage) := by
  intro i low
  have inside := @place_inside disk 0 EpmPartBlock.size (loaderEpmBlock magic diskSize stack.garbage) i low
  rwa [from_zero] at inside

theorem formatEpm_rejected : isEpmPartitionValid magic later (formatEpm magic diskSize stack disk) = false := by
  obtain ⟨front, name⟩ := @loaderEpmBlock_text magic diskSize stack.garbage
  rw [formatEpm_startsWith.check_epm (read_named front name) (by decide)]
  exact decide_eq_false fun both => absurd both.1 (by decide)

theorem formatEpm_detected : ioDetectDrive magic sectorCount (formatEpm magic diskSize stack disk) =
    ⟨kMassStorageDrive ||| kEPMDrive, 512, 512, diskSize - 1, false⟩ := by
  obtain ⟨sector, first, last⟩ := @loaderEpmBlock_members magic diskSize stack.garbage
  rw [formatEpm_startsWith.detect_epm loaderEpmBlock_text.1, sector, first, last]

/-- The tool's image as the loader sees it: only the sign of the name's first character counts. -/
theorem image_checked (done : diFormatPartitionEPM magic opens img = some block) (starts : StartsWith disk block) :
    isEpmPartitionValid magic stack disk = decide ((img.nameChars.headD 0).toInt < 0) := by
  obtain ⟨rfl, named⟩ := diFormatPartitionEPM_some done
  have version := (@epmImageBlock_members magic img).1
  obtain ⟨c, rest, name⟩ : ∃ c rest, img.diskName = c :: rest :=
    List.exists_cons_of_length_pos (by rw [img.diskName_length]; decide)
  have nonzero : c ≠ 0 := by
    rintro rfl
    exact named (by rw [name, List.head?_cons])
  have chars : ∃ more, img.nameChars = c :: more := by
    rw [DiDiskImage.nameChars, name, List.cons_append, List.takeWhile_cons_of_pos (by simpa using nonzero)]
    exact ⟨_, rfl⟩
  obtain ⟨more, chars⟩ := chars
  have fifth : epmImageBlock magic img 5 = c := by
    unfold epmImageBlock
    rw [write_outside not_within_magic, chars]
    simp [write, EpmPartBlock.Name]
  have apart : c.toInt ≠ 0 := fun zero => nonzero (BitVec.toInt_inj.mp (zero.trans BitVec.toInt_zero.symm))
  rw [starts.check_epm (read_named epmImageBlock_magic fifth) nonzero, chars, List.headD_cons, version]
  exact decide_eq_decide.mpr ⟨fun both => by omega, fun negative => ⟨by omega, rfl⟩⟩

/-- A boot checks the drive with whatever is on the stack. -/
def ChecksEpm (magic : EpmMagic) (diskSize : SizeT) (stack : Stack) (disk next : Mem 64) : Prop :=
  next = sysChkEpm magic diskSize stack disk

/-- Every check formats the drive again after one of them has. -/
theorem formatted_checks {boots : List Stack} {last : Mem 64}
    (run : Run (ChecksEpm magic diskSize) (formatEpm magic diskSize stack disk) boots last) :
    ∃ stack' disk', last = formatEpm magic diskSize stack' disk' := by
  have kept (later : Stack) (s t : Mem 64) (before : ∃ stack' disk', s = formatEpm magic diskSize stack' disk')
      (step : ChecksEpm magic diskSize later s t) : ∃ stack' disk', t = formatEpm magic diskSize stack' disk' := by
    obtain ⟨stack', disk', rfl⟩ := before
    refine ⟨later, formatEpm magic diskSize stack' disk', step.trans ?_⟩
    exact sysChkModuleMain_invalid formatEpm_rejected
  exact run.invariant kept ⟨stack, disk, rfl⟩

end Checks

def clearedStack : Stack := ⟨zeroed, []⟩

end Ne.Kernel.Storage
