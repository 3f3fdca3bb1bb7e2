import NeKernel.FS.NeAccounting

/-!
# The disk image tool

`DIFormatFilesystemNeFS`, and what the kernel makes of the partition block that it writes. The tool
counts the catalogs there are, the kernel the room for them.
-/

namespace Ne.Kernel.FS
open ByteMem Loops

def kDISectorSz : BitVec 32 := 512
def kDIDiskNameLen : Nat := 16
def kEPMBootBlockLba : Lba := 0

namespace NefsRootPartitionBlock
def EpmBlock : Field := { off := 112, size := 8 }
end NefsRootPartitionBlock

/-- `DI_DISK_IMAGE`, of whose output name only the first character is looked at. -/
structure DiDiskImage where
  diskName : List Byte
  sectorSz : BitVec 32
  diskSz : SizeT
  outName : Byte
  diskName_length : diskName.length = kDIDiskNameLen

namespace DiDiskImage

/-- The disk's name, up to its NUL. The sector size is the member behind the array. -/
def nameChars (img : DiDiskImage) : List Byte :=
  (img.diskName ++ leBytes 4 img.sectorSz.toNat).takeWhile (· ≠ 0)

end DiDiskImage

/-- The partition block of an image. -/
def imagePartition (img : DiDiskImage) : Image :=
  let rpb := write zeroed NefsRootPartitionBlock.PartitionName img.nameChars
  let rpb := write rpb NefsRootPartitionBlock.Ident (kNeFSIdent.takeWhile (· ≠ 0))
  let rpb := NefsRootPartitionBlock.Version.set kNeFSVersionInteger rpb
  let rpb := NefsRootPartitionBlock.EpmBlock.set kEPMBootBlockLba rpb
  let rpb := NefsRootPartitionBlock.StartCatalog.set kNeFSCatalogStartAddress rpb
  let rpb := NefsRootPartitionBlock.CatalogCount.set 0 rpb
  let rpb := NefsRootPartitionBlock.DiskSize.set img.diskSz rpb
  let rpb := NefsRootPartitionBlock.SectorSize.set (img.sectorSz.signExtend 64) rpb
  let rpb := NefsRootPartitionBlock.SectorCount.set
    (NefsRootPartitionBlock.DiskSize.get rpb / NefsRootPartitionBlock.SectorSize.get rpb) rpb
  let rpb := NefsRootPartitionBlock.FreeSectors.set (NefsRootPartitionBlock.SectorCount.get rpb) rpb
  NefsRootPartitionBlock.FreeCatalog.set
    (NefsRootPartitionBlock.DiskSize.get rpb / BitVec.ofNat 64 NefsCatalogStruct.size) rpb

/-- `DIFormatFilesystemNeFS`: the bytes it writes, none when it fails. `opens` is whether the output file can
be opened. -/
def diFormatFilesystemNeFS (opens : Bool) (img : DiDiskImage) : Option Image :=
  if img.sectorSz = 0 ∨ img.sectorSz.srem kDISectorSz ≠ 0 then none
  else if img.outName = 0 ∨ img.diskName.head? = some 0 then none
  else if opens = false then none
  else some (imagePartition img)

/-- The block lies where `Format` looks for it and where the catalogs are counted. -/
structure Placed (drive : NeDrive) (block : Image) (v : NeVolume) : Prop where
  mounted : ∀ i : BitVec 64, i.toNat < NefsRootPartitionBlock.size → drive.input drive.fLbaStart v i = block i
  partition : ∀ i : BitVec 64, i.toNat < NefsRootPartitionBlock.size → drive.partition v i = block i

/-- The kernel takes the volume as it is, and a file can be created as long as the block counts a free
catalog. -/
def TakesImage (drive : NeDrive) (block : Image) (v : NeVolume) (beside : Beside) (name : CString) (flags : BitVec 32) :
    Prop :=
  (∀ partName, partName ≠ [] → format drive partName v = (true, v)) ∧
  (0 < NefsRootPartitionBlock.FreeCatalog.get block → ∃ fuel catalog v',
    createCatalog drive fuel beside name flags kNeFSCatalogKindFile v = some (some catalog, v'))

section Search
variable {drive : NeDrive} {v : NeVolume} {fuel : Nat} {beside : Beside} {name : CString} {hidden : Bool}
  {kind : BitVec 32} {found : Found} {allocation : Allocation}

theorem findAnywhere_start (ends : findAnywhere drive fuel name hidden v = some (some found)) :
    NefsRootPartitionBlock.StartCatalog.get (drive.partition v) ≤ found.lba := by
  unfold findAnywhere at ends
  split at ends
  · cases ends
  · refine loop_invariant (I := fun _ => True) (Q := fun r => ∀ found, r = some found →
      NefsRootPartitionBlock.StartCatalog.get (drive.partition v) ≤ found.lba)
      (fun _ _ _ _ => trivial) ?_ trivial ends found rfl
    rintro cursor _ _ turn found rfl
    obtain ⟨above, rfl, -⟩ := scanRound_found turn
    exact above

theorem findSlotFrom_none {text : List Byte} {outLba : Lba}
    (empty : NefsRootPartitionBlock.CatalogCount.get (drive.partition v) = 0)
    (behind : NefsRootPartitionBlock.StartCatalog.get (drive.partition v) ≤ outLba) :
    findSlotFrom drive fuel text outLba v ≠ some (some allocation) := by
  intro ends
  have ending : ¬ outLba < NefsRootPartitionBlock.StartCatalog.get (drive.partition v) +
      NefsRootPartitionBlock.CatalogCount.get (drive.partition v) * drive.catalogSectors := by
    rw [empty]
    simpa using behind
  have turn : slotRound drive v (drive.partition v) text outLba = .done none := by
    rw [slotRound, if_neg ending]
  rw [findSlotFrom] at ends
  split at ends
  · cases ends
  · cases fuel with
    | zero => cases ends
    | succ fuel =>
        rw [loop_done turn] at ends
        cases ends

theorem findSlot_none (empty : NefsRootPartitionBlock.CatalogCount.get (drive.partition v) = 0) :
    findSlot drive fuel beside name kind v ≠ some (some allocation) := by
  intro ends
  obtain ⟨-, -, -, above, parent, outLba, -, search, searched, origin⟩ := findSlot_some ends
  refine findSlotFrom_none empty ?_ searched
  rcases origin with ⟨-, rfl⟩ | ⟨found, rfl, -, rfl⟩
  · exact BitVec.le_refl _
  · unfold findCatalog at search
    rw [if_neg (by simp)] at search
    exact findAnywhere_start search

theorem createCatalog_none {flags : BitVec 32} {catalog : Image} {v' : NeVolume}
    (empty : NefsRootPartitionBlock.CatalogCount.get (drive.partition v) = 0) :
    createCatalog drive fuel beside name flags kind v ≠ some (some catalog, v') := by
  intro ends
  obtain ⟨slot, found, used⟩ := Option.map_eq_some_iff.mp ends
  cases slot with
  | none => cases used
  | some allocation => exact findSlot_none empty found

end Search

section Block
variable {drive : NeDrive} {v : NeVolume} {img : DiDiskImage} {block : Image} {f : Field} {opens : Bool}

theorem Placed.get (placed : Placed drive block v) (inside : f.off + f.size ≤ NefsRootPartitionBlock.size) :
    f.get (drive.partition v) = f.get block := by
  have small := f.fits
  rw [Field.get, Field.get, load_congr (by omega) fun x within => ?_]
  exact placed.partition x (Nat.lt_of_lt_of_le (within_offset (by omega) within).1 inside)

theorem imagePartition_catalogCount : NefsRootPartitionBlock.CatalogCount.get (imagePartition img) = 0 := by
  unfold imagePartition
  dsimp only
  rw [Field.get_set_other (by decide), Field.get_set_other (by decide), Field.get_set_other (by decide),
    Field.get_set_other (by decide), Field.get_set_other (by decide), Field.get_set_full rfl]

theorem imagePartition_freeCatalog :
    NefsRootPartitionBlock.FreeCatalog.get (imagePartition img) =
      img.diskSz / BitVec.ofNat 64 NefsCatalogStruct.size := by
  unfold imagePartition
  dsimp only
  rw [Field.get_set_full rfl, Field.get_set_other (by decide), Field.get_set_other (by decide),
    Field.get_set_other (by decide), Field.get_set_full rfl]

theorem diFormat_block (done : diFormatFilesystemNeFS opens img = some block) : block = imagePartition img := by
  unfold diFormatFilesystemNeFS at done
  split at done
  · cases done
  split at done
  · cases done
  split at done
  · cases done
  · exact (Option.some.inj done).symm

theorem imagePartition_ident {x : BitVec 64} (low : x.toNat < 8) :
    imagePartition img x = write zeroed NefsRootPartitionBlock.Ident (kNeFSIdent.takeWhile (· ≠ 0)) x := by
  have short : img.nameChars.length ≤ 20 := by
    have le := (List.takeWhile_sublist (· ≠ (0 : Byte)) (l := img.diskName ++ leBytes 4 img.sectorSz.toNat)).length_le
    rw [List.length_append, img.diskName_length, leBytes_length] at le
    exact le
  have clear : ¬ Within NefsRootPartitionBlock.PartitionName img.nameChars.length x := by
    have place : NefsRootPartitionBlock.PartitionName.toNat = 8 := rfl
    rw [within_iff (by omega), place]
    omega
  unfold imagePartition
  iterate 9 rw [Field.set_outside (.inl (Nat.lt_of_lt_of_le low (by decide)))]
  exact congrArg ((kNeFSIdent.takeWhile (· ≠ 0)).getD (x - NefsRootPartitionBlock.Ident).toNat)
    (write_outside (m := zeroed) clear)

/-- The kernel recognises the block unless another byte follows the literal it compares. -/
theorem Placed.formatted_iff (placed : Placed drive (imagePartition img) v) :
    formatted drive v ↔ drive.identNext = 0 := by
  have bytes : read (drive.input drive.fLbaStart v) NefsRootPartitionBlock.Ident 8 = kNeFSIdent ++ [0] := by
    have written : read (write zeroed NefsRootPartitionBlock.Ident (kNeFSIdent.takeWhile (· ≠ 0)))
        NefsRootPartitionBlock.Ident 8 = kNeFSIdent ++ [0] := by decide
    rw [← written]
    refine read_congr (by decide) fun x inside => ?_
    have low : x.toNat < 8 := within_start inside
    rw [placed.mounted x (Nat.lt_of_lt_of_le low (by decide)), imagePartition_ident low]
  rw [formatted, bytes, identBytes, List.append_cancel_left_eq, List.cons.injEq, and_iff_left rfl]
  exact eq_comm

theorem Placed.format (placed : Placed drive (imagePartition img) v) (good : v.fPacketGood = true)
    (next : drive.identNext = 0) {partName : List Byte} (named : partName ≠ []) :
    format drive partName v = (true, v) := by
  rw [FS.format, if_neg named, if_neg (by simp [good]), if_pos (placed.formatted_iff.mpr next)]

/-- The block that the tool writes counts no catalogs, so the kernel has no room for one. -/
theorem tool_block_full (opens : Bool) (img : DiDiskImage) (block : Image) (drive : NeDrive) (v : NeVolume)
    (done : diFormatFilesystemNeFS opens img = some block) (room : NefsCatalogStruct.size ≤ img.diskSz.toNat)
    (placed : Placed drive block v) (beside : Beside) (name : CString) (flags : BitVec 32) :
    ¬ TakesImage drive block v beside name flags := by
  rintro ⟨-, creates⟩
  have written := diFormat_block done
  have positive : 0 < NefsRootPartitionBlock.FreeCatalog.get block := by
    rw [written, imagePartition_freeCatalog, BitVec.lt_def, BitVec.toNat_udiv]
    exact Nat.div_pos room (by decide)
  obtain ⟨fuel, catalog, v', created⟩ := creates positive
  refine createCatalog_none ?_ created
  rw [placed.get (by decide), written, imagePartition_catalogCount]

end Block

/-- An image of a megabyte, with the tool's default names. -/
def defaultImage : DiDiskImage where
  diskName := utf8 ['D', 'i', 's', 'k'] ++ List.replicate 12 0
  sectorSz := kDISectorSz
  diskSz := 0x100000
  outName := 0x64
  diskName_length := by decide

/-- The image's block where the prepared drive is mounted, and nothing else. -/
def defaultVolume : NeVolume where
  sectors := fun s => if s = 2 then imagePartition defaultImage else zeroed
  fPacketGood := true

theorem defaultVolume_placed : Placed preparedDrive (imagePartition defaultImage) defaultVolume :=
  ⟨fun _ _ => rfl, fun _ _ => rfl⟩

theorem defaultImage_formats : diFormatFilesystemNeFS true defaultImage = some (imagePartition defaultImage) := by
  unfold diFormatFilesystemNeFS
  rw [if_neg (by decide), if_neg (by decide), if_neg (by decide)]

theorem tool_block_full_default :
    ¬ TakesImage preparedDrive (imagePartition defaultImage) defaultVolume cleared pathA 0 :=
  tool_block_full true defaultImage _ preparedDrive defaultVolume defaultImage_formats (by decide)
    defaultVolume_placed cleared pathA 0

/-- The kernel takes the default image's volume, which counts free catalogs, and creates no file on it. -/
theorem default_image_refused :
    diFormatFilesystemNeFS true defaultImage = some (imagePartition defaultImage) ∧
    Placed preparedDrive (imagePartition defaultImage) defaultVolume ∧
    FS.format preparedDrive (utf8 ['N']) defaultVolume = (true, defaultVolume) ∧
    0 < NefsRootPartitionBlock.FreeCatalog.get (imagePartition defaultImage) ∧
    (findCatalog preparedDrive 2 cleared pathA true true defaultVolume).map Option.isSome = some false ∧
    (createCatalog preparedDrive 2 cleared pathA 0 kNeFSCatalogKindFile defaultVolume).map (fun made => made.1.isSome) =
      some false ∧
    ¬ TakesImage preparedDrive (imagePartition defaultImage) defaultVolume cleared pathA 0 := by
  have empty : NefsRootPartitionBlock.CatalogCount.get (preparedDrive.partition defaultVolume) = 0 := by
    rw [defaultVolume_placed.get (by decide), imagePartition_catalogCount]
  have free : 0 < NefsRootPartitionBlock.FreeCatalog.get (imagePartition defaultImage) := by
    rw [imagePartition_freeCatalog]
    decide
  refine ⟨defaultImage_formats, defaultVolume_placed, defaultVolume_placed.format rfl rfl (by decide), free,
    by decide +kernel, by decide +kernel, ?_⟩
  rintro ⟨-, creates⟩
  obtain ⟨fuel, catalog, v', created⟩ := creates free
  exact createCatalog_none empty created

end Ne.Kernel.FS
