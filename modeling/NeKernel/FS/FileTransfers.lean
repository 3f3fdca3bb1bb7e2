import NeKernel.FS.HeFileSystemMgr
import NeKernel.FS.Lookups

/-!
# Written data, read back

A write reaches the file's block if the block's number has a low word and the name a hash, and the
drive takes packets. What it covers is up to its size.
-/

namespace Ne.Kernel.FS
open ByteMem Strides
open HefsBootNode hiding size fChecksum

def dataBlock (mnt : DriveTrait) (disk : Memory) (file : HefsFile) : Option Lba :=
  (inodeOf mnt disk file).map offsetSlice

def HefsFile.manip (file : HefsFile) (mnt : DriveTrait) (block : Image) (blockSz : SizeT) (isInput : Bool)
    (σ : Mount) : Manip :=
  iNodeManip mnt block blockSz file.dir file.name file.kind isInput σ

/-! ## Transfers -/

section Manipulation
variable {mnt : DriveTrait} {σ : Mount} {file : HefsFile} {node block : Image} {blockSz : SizeT}
  {isInput : Bool}

/-- The number of the block, and the hash, are ones that `INodeManip` takes. -/
def Addressed (node : Image) : Prop :=
  HefsIndexNode.fOffsetSliceLow.get node ≠ 0 ∧ HefsIndexNode.fHashPath.get node ≠ 0

instance (node : Image) : Decidable (Addressed node) := inferInstanceAs (Decidable (_ ∧ _))

def ReadOnly (node : Image) : Prop := HefsIndexNode.fFlags.get node &&& kOpenHeFSFlagsReadOnly ≠ 0

instance (node : Image) : Decidable (ReadOnly node) := inferInstanceAs (Decidable (_ ≠ _))

theorem Holds.manip (held : Holds mnt σ file node) (block : Image) (blockSz : SizeT) (isInput : Bool) :
    file.manip mnt block blockSz isInput σ =
    if Addressed node then
      if isInput then
        ⟨true, some ⟨offsetSlice node, blockSz⟩, window σ.disk (offsetSlice node) blockSz.toNat, mnt.completed σ⟩
      else if ReadOnly node then ⟨false, none, block, mnt.completed σ⟩
      else ⟨true, some ⟨offsetSlice node, blockSz⟩, block,
        outputData mnt blockSz (offsetSlice node) block (mnt.completed σ)⟩
    else ⟨true, none, block, mnt.completed σ⟩ := by
  have read : ioDrvInput mnt .boot mnt.fLbaStart σ = (bootAt mnt σ.disk, mnt.completed σ) := rfl
  have valid := (inodeOf_checks held.inode).1
  have input : inputData mnt blockSz (offsetSlice node) (mnt.completed σ) =
      (window σ.disk (offsetSlice node) blockSz.toNat, mnt.completed σ) := by
    rw [inputData, completed_disk, completed_completed]
  rw [HefsFile.manip, iNodeManip, if_neg (Nat.not_lt.mpr held.dir_fits), if_neg (Nat.not_lt.mpr held.name_fits)]
  simp only [read, valid, held.fetched, input]
  rfl

theorem manip_issued {packet : DataPacket}
    (issued : (file.manip mnt block blockSz isInput σ).issued = some packet) :
    ∃ node, Holds mnt σ file node ∧ packet.fPacketLba = offsetSlice node := by
  have read : ioDrvInput mnt .boot mnt.fLbaStart σ = (bootAt mnt σ.disk, mnt.completed σ) := rfl
  have same : (mnt.completed σ).disk = σ.disk := completed_disk
  rw [HefsFile.manip, iNodeManip] at issued
  split at issued
  · cases issued
  rename_i dirFits
  split at issued
  · cases issued
  rename_i nameFits
  simp only [read] at issued
  split at issued
  · cases issued
  rename_i valid
  cases fetched : hefsiFetchIn mnt (bootAt mnt σ.disk) file.dir file.name file.kind (mnt.completed σ) with
  | mk result τ =>
      rw [fetched] at issued
      cases result with
      | none => cases issued
      | some node =>
          obtain ⟨inode, uncorrupted⟩ := inode_of_fetch (σ := mnt.completed σ) (by simpa [same] using valid)
            (by rw [same, fetched])
          rw [same] at inode
          refine ⟨node, ⟨Nat.not_lt.mp dirFits, Nat.not_lt.mp nameFits, uncorrupted, inode⟩, ?_⟩
          dsimp only at issued
          split at issued
          · split at issued
            · cases issued
              rfl
            split at issued
            · cases issued
            · cases issued
              rfl
          · cases issued

end Manipulation

/-! ## Writes and reads of the manager -/

/-- The two overloads of `Write`. Names are those the pointers lead to. -/
inductive WriteCall
  | node (desc : HefsNodeDesc)
  | named (name : Path) (flags : BitVec 32)

namespace WriteCall

def file : WriteCall → HefsFile
  | .node desc => ⟨desc.fDir, desc.fName, desc.fKind⟩
  | .named name _ => ⟨kOpenHeFSRootDirectory, name, 0⟩

def write (mnt : DriveTrait) (data : Image) (size : SizeT) (m : FileMgr) : WriteCall → FileMgr
  | .node desc => (writeNode mnt desc (some data) size m).2
  | .named name flags => writeNamed mnt (some name) (some data) flags size m

/-- What `Read` of the same file returns. -/
def read (mnt : DriveTrait) (size : SizeT) (m : FileMgr) : WriteCall → Option Image
  | .node desc => (readNode mnt desc size m).1
  | .named name _ => some (readNamed mnt name size m).1

/-- The checks of the overload. -/
def Admits (size : SizeT) : WriteCall → Prop
  | .node _ => size ≠ 0 ∧ size ≤ kOpenHeFSBlockLen
  | .named _ flags => size ≠ 0 ∧ flags ≠ 0

/-- The data passes the checks of the overload, and `INodeManip` says that it was written. -/
def Accepts (mnt : DriveTrait) (data : Image) (size : SizeT) (m : FileMgr) (call : WriteCall) : Prop :=
  call.Admits size ∧ (call.file.manip mnt data size false m.mount).result = true

end WriteCall

section Manager
variable {mnt : DriveTrait} {call : WriteCall} {data : Image} {size : SizeT} {m : FileMgr}

theorem write_mount (admits : call.Admits size) :
    (call.write mnt data size m).mount = (call.file.manip mnt data size false m.mount).mount := by
  cases call with
  | node desc =>
      obtain ⟨nonzero, small⟩ := admits
      have fits : ¬ size > kOpenHeFSBlockLen := BitVec.not_lt.mpr small
      simp only [WriteCall.write, writeNode, if_neg nonzero, if_neg fits]
      split <;> rfl
  | named name flags =>
      obtain ⟨nonzero, flagged⟩ := admits
      simp only [WriteCall.write, writeNamed, if_neg nonzero, if_neg flagged]
      rfl

theorem writeNode_status {desc : HefsNodeDesc} (admits : WriteCall.Admits size (.node desc)) :
    (writeNode mnt desc (some data) size m).2.errLocal = kErrorSuccess ↔
      WriteCall.Accepts mnt data size m (.node desc) := by
  obtain ⟨nonzero, small⟩ := admits
  have fits : ¬ size > kOpenHeFSBlockLen := BitVec.not_lt.mpr small
  have manip : iNodeManip mnt data size desc.fDir desc.fName desc.fKind false m.mount =
      (WriteCall.node desc).file.manip mnt data size false m.mount := rfl
  simp only [writeNode, if_neg nonzero, if_neg fits, manip, WriteCall.Accepts]
  cases ((WriteCall.node desc).file.manip mnt data size false m.mount).result with
  | true => exact ⟨fun _ => ⟨⟨nonzero, small⟩, rfl⟩, fun _ => rfl⟩
  | false => simp [kErrorFileNotFound, kErrorSuccess]

theorem read_block (admits : call.Admits size)
    (done : (call.file.manip mnt zeroed size true m.mount).result = true) :
    call.read mnt size m = some (call.file.manip mnt zeroed size true m.mount).block := by
  cases call with
  | node desc =>
      obtain ⟨nonzero, small⟩ := admits
      have fits : ¬ size > kOpenHeFSBlockLen := BitVec.not_lt.mpr small
      have manip : iNodeManip mnt zeroed size desc.fDir desc.fName desc.fKind true m.mount =
          (WriteCall.node desc).file.manip mnt zeroed size true m.mount := rfl
      simp only [WriteCall.read, readNode, if_neg nonzero, if_neg fits, manip, done]
      rfl
  | named name flags => rfl

end Manager

/-- Data that the call accepts comes back from the file's block, the block of the other file stays as
it is, and no call of `INodeManip` for the file returns `YES` without a packet for that block. -/
structure RoundTrips (mnt : DriveTrait) (call : WriteCall) (other : HefsFile) (size : SizeT) (m : FileMgr) :
    Prop where
  issued : ∀ block blockSz isInput, (call.file.manip mnt block blockSz isInput m.mount).result = true →
    ∃ lba, dataBlock mnt m.mount.disk call.file = some lba ∧
      (call.file.manip mnt block blockSz isInput m.mount).issued = some ⟨lba, blockSz⟩
  reads : ∀ data, call.Accepts mnt data size m →
    ∃ content, call.read mnt size (call.write mnt data size m) = some content ∧
      ∀ i, i < size → content i = data i
  reissued : ∀ data, call.Accepts mnt data size m → ∀ lba, dataBlock mnt m.mount.disk call.file = some lba →
    (call.file.manip mnt zeroed size true (call.write mnt data size m).mount).issued = some ⟨lba, size⟩
  kept : ∀ data, call.Accepts mnt data size m → ∀ lba, dataBlock mnt m.mount.disk other = some lba →
    ∀ x, Within lba kOpenHeFSBlockLen.toNat x → (call.write mnt data size m).mount.disk x = m.mount.disk x

/-- The drive takes the data, which covers no byte of the other file's block and nothing that leads to
the file's own block. -/
structure Covers (mnt : DriveTrait) (disk : Memory) (file other : HefsFile) (lba : Lba) (size : SizeT) : Prop where
  writable : mnt.fPacketReadOnly = false
  undisturbed : ∀ data, dataBlock mnt (place disk lba size.toNat data) file = some lba
  apart : ∀ lba', dataBlock mnt disk other = some lba' → Apart lba size.toNat lba' kOpenHeFSBlockLen.toNat

section Blocks
variable {mnt : DriveTrait} {σ : Mount} {m : FileMgr} {file other : HefsFile} {node node' data : Image}
  {size : SizeT} {lba : Lba} {call : WriteCall}

theorem offsetSliceLow_small : (HefsIndexNode.fOffsetSliceLow.get node).toNat < 2 ^ 32 := by
  have bound := leNat_lt (ByteMem.read node (BitVec.ofNat 64 HefsIndexNode.fOffsetSliceLow.off)
    HefsIndexNode.fOffsetSliceLow.size)
  rw [read_length] at bound
  rw [Field.toNat_get, load]
  exact lt_of_lt_of_eq bound (by decide)

theorem offsetSlice_low : (offsetSlice node).toNat % 2 ^ 32 = (HefsIndexNode.fOffsetSliceLow.get node).toNat := by
  have small : (HefsIndexNode.fOffsetSliceLow.get node).toNat < 2 ^ 32 := offsetSliceLow_small
  rw [offsetSlice, BitVec.toNat_or, Nat.or_mod_two_pow, Nat.mod_eq_of_lt small, BitVec.toNat_shiftLeft]
  have high : (HefsIndexNode.fOffsetSliceHigh.get node).toNat <<< 32 % 2 ^ 64 % 2 ^ 32 = 0 := by
    rw [Nat.mod_mod_of_dvd _ (by decide), Nat.shiftLeft_eq, Nat.mul_mod_left]
  rw [high, Nat.zero_or]

theorem offsetSlice_congr (same : offsetSlice node' = offsetSlice node) :
    HefsIndexNode.fOffsetSliceLow.get node' = HefsIndexNode.fOffsetSliceLow.get node := by
  apply BitVec.eq_of_toNat_eq
  rw [← offsetSlice_low, ← offsetSlice_low, same]

theorem offsetSlice_ne_zero (low : HefsIndexNode.fOffsetSliceLow.get node ≠ 0) : offsetSlice node ≠ 0 := by
  intro zero
  apply low
  apply BitVec.eq_of_toNat_eq
  rw [← offsetSlice_low, zero]
  rfl

theorem Holds.dataBlock (held : Holds mnt σ file node) :
    FS.dataBlock mnt σ.disk file = some (offsetSlice node) := by
  rw [FS.dataBlock, held.inode, Option.map_some]

theorem Holds.moved (held : Holds mnt σ file node) (τ : Mount)
    (uncorrupted : (mnt.completed τ).errGlobal ≠ kErrorDiskIsCorrupted)
    (there : FS.dataBlock mnt τ.disk file = some lba) :
    ∃ node', Holds mnt τ file node' ∧ offsetSlice node' = lba := by
  obtain ⟨node', found, same⟩ := Option.map_eq_some_iff.mp there
  exact ⟨node', ⟨held.dir_fits, held.name_fits, uncorrupted, found⟩, same⟩

theorem outputData_disk (writable : mnt.fPacketReadOnly = false) (nonzero : lba ≠ 0) :
    (outputData mnt size lba data σ).disk = place σ.disk lba size.toNat data := by
  rw [outputData, if_neg (by simp [writable]), if_neg nonzero]
  exact completed_disk

theorem outputData_refused (refusing : mnt.fPacketReadOnly = true) :
    (outputData mnt size lba data σ).disk = σ.disk := by
  rw [outputData, if_pos refusing]

theorem outputData_uncorrupted (uncorrupted : (mnt.completed σ).errGlobal ≠ kErrorDiskIsCorrupted) :
    (mnt.completed (outputData mnt size lba data (mnt.completed σ))).errGlobal ≠ kErrorDiskIsCorrupted := by
  unfold outputData DriveTrait.completed at *
  cases ahci : mnt.ahci with
  | true => simp [kErrorSuccess, kErrorDiskIsCorrupted]
  | false =>
      rw [ahci] at uncorrupted
      simp only [Bool.false_eq_true, if_false] at uncorrupted ⊢
      split
      · exact uncorrupted
      split <;> exact uncorrupted

theorem accepts_iff (held : Holds mnt m.mount call.file node) (addressed : Addressed node) :
    call.Accepts mnt data size m ↔ call.Admits size ∧ ¬ ReadOnly node := by
  rw [WriteCall.Accepts, held.manip, if_pos addressed, if_neg Bool.false_ne_true]
  by_cases readOnly : ReadOnly node
  · simp [readOnly]
  · simp [readOnly]

theorem accepted_mount (held : Holds mnt m.mount call.file node) (addressed : Addressed node)
    (accepts : call.Accepts mnt data size m) : (call.write mnt data size m).mount =
      outputData mnt size (offsetSlice node) data (mnt.completed m.mount) := by
  obtain ⟨admits, writes⟩ := (accepts_iff held addressed).mp accepts
  rw [write_mount admits, held.manip, if_pos addressed, if_neg Bool.false_ne_true, if_neg writes]

theorem read_again (held : Holds mnt m.mount call.file node) (addressed : Addressed node)
    (accepts : call.Accepts mnt data size m)
    (there : FS.dataBlock mnt (call.write mnt data size m).mount.disk call.file = some (offsetSlice node)) :
    (call.file.manip mnt zeroed size true (call.write mnt data size m).mount).issued =
        some ⟨offsetSlice node, size⟩ ∧
      call.read mnt size (call.write mnt data size m) =
        some (window (call.write mnt data size m).mount.disk (offsetSlice node) size.toNat) := by
  have after := accepted_mount held addressed accepts
  obtain ⟨node', held', same⟩ := held.moved (call.write mnt data size m).mount
    (by rw [after]; exact outputData_uncorrupted held.uncorrupted) there
  have addressed' : Addressed node' := by
    refine ⟨?_, ?_⟩
    · rw [offsetSlice_congr same]
      exact addressed.1
    · rw [inodeOf_hash held'.inode, ← inodeOf_hash held.inode]
      exact addressed.2
  have manip := held'.manip zeroed size true
  rw [if_pos addressed', if_pos rfl, same] at manip
  rw [read_block accepts.1 (by rw [manip]), manip]
  exact ⟨rfl, rfl⟩

theorem changed (b : Byte) : b + 1 ≠ b := by
  revert b
  decide

theorem admits_pos (admits : call.Admits size) : 0 < size.toNat := by
  have nonzero : size ≠ 0 := by cases call <;> exact admits.1
  exact Nat.pos_of_ne_zero fun zero => nonzero (BitVec.eq_of_toNat_eq zero)

theorem written_disk (held : Holds mnt m.mount call.file node) (addressed : Addressed node)
    (accepts : call.Accepts mnt data size m) (writable : mnt.fPacketReadOnly = false) :
    (call.write mnt data size m).mount.disk = place m.mount.disk (offsetSlice node) size.toNat data := by
  rw [accepted_mount held addressed accepts, outputData_disk writable (offsetSlice_ne_zero addressed.1),
    completed_disk]

theorem trips_writable (trips : RoundTrips mnt call other size m) (held : Holds mnt m.mount call.file node)
    (addressed : Addressed node) (accepts : ∀ data, call.Accepts mnt data size m) :
    mnt.fPacketReadOnly = false := by
  by_contra taken
  have refusing : mnt.fPacketReadOnly = true := by simpa using taken
  let data : Image := fun i => m.mount.disk (offsetSlice node + i) + 1
  have same : (call.write mnt data size m).mount.disk = m.mount.disk := by
    rw [accepted_mount held addressed (accepts data), outputData_refused refusing, completed_disk]
  obtain ⟨content, came, back⟩ := trips.reads data (accepts data)
  obtain ⟨-, read⟩ := read_again held addressed (accepts data) (by rw [same]; exact held.dataBlock)
  rw [read, same] at came
  cases came
  have positive : (0 : BitVec 64).toNat < size.toNat := admits_pos (accepts data).1
  have first := back 0 positive
  rw [window, if_pos positive] at first
  exact changed _ first.symm

theorem trips_undisturbed (trips : RoundTrips mnt call other size m) (held : Holds mnt m.mount call.file node)
    (addressed : Addressed node) (accepts : call.Accepts mnt data size m)
    (writable : mnt.fPacketReadOnly = false) :
    FS.dataBlock mnt (place m.mount.disk (offsetSlice node) size.toNat data) call.file =
      some (offsetSlice node) := by
  have issued := trips.reissued data accepts _ held.dataBlock
  obtain ⟨node', held', there⟩ := manip_issued issued
  rw [← written_disk held addressed accepts writable, held'.dataBlock]
  exact congrArg some there.symm

theorem trips_apart (trips : RoundTrips mnt call other size m) (held : Holds mnt m.mount call.file node)
    (addressed : Addressed node) (accepts : ∀ data, call.Accepts mnt data size m)
    (writable : mnt.fPacketReadOnly = false) (there : FS.dataBlock mnt m.mount.disk other = some lba) :
    Apart (offsetSlice node) size.toNat lba kOpenHeFSBlockLen.toNat := by
  intro x inFile inOther
  let data : Image := fun i => m.mount.disk (offsetSlice node + i) + 1
  have kept := trips.kept data (accepts data) lba there x inOther
  rw [written_disk held addressed (accepts data) writable, place, if_pos inFile] at kept
  have back : offsetSlice node + (x - offsetSlice node) = x := by
    rw [BitVec.add_comm, BitVec.sub_add_cancel]
  dsimp only [data] at kept
  rw [back] at kept
  exact changed _ kept

theorem covers_trips (held : Holds mnt m.mount call.file node) (addressed : Addressed node)
    (covers : call.Admits size → ¬ ReadOnly node →
      Covers mnt m.mount.disk call.file other (offsetSlice node) size) : RoundTrips mnt call other size m := by
  have there (data : Image) (accepts : call.Accepts mnt data size m) :
      FS.dataBlock mnt (call.write mnt data size m).mount.disk call.file = some (offsetSlice node) := by
    obtain ⟨admits, writes⟩ := (accepts_iff held addressed).mp accepts
    rw [written_disk held addressed accepts (covers admits writes).writable]
    exact (covers admits writes).undisturbed data
  constructor
  · intro block blockSz isInput done
    refine ⟨_, held.dataBlock, ?_⟩
    rw [held.manip, if_pos addressed] at done ⊢
    split
    · rfl
    rename_i output
    rw [if_neg output] at done
    split
    · rename_i readOnly
      rw [if_pos readOnly] at done
      cases done
    · rfl
  · intro data accepts
    obtain ⟨admits, writes⟩ := (accepts_iff held addressed).mp accepts
    refine ⟨_, (read_again held addressed accepts (there data accepts)).2, fun i inside => ?_⟩
    have bound : i.toNat < size.toNat := inside
    rw [window, if_pos bound, written_disk held addressed accepts (covers admits writes).writable,
      place_inside i bound]
  · intro data accepts lba block
    rw [held.dataBlock] at block
    cases block
    exact (read_again held addressed accepts (there data accepts)).1
  · intro data accepts lba block x inside
    obtain ⟨admits, writes⟩ := (accepts_iff held addressed).mp accepts
    rw [written_disk held addressed accepts (covers admits writes).writable]
    exact place_outside (((covers admits writes).apart lba block).symm x inside)

end Blocks

/-! ## Two files in neighbouring blocks -/

theorem lookupScan_single {boot : Image} (short : fStartIND.get boot + kNodeSize ≥ fEndIND.get boot) :
    lookupScan boot = [fStartIND.get boot] := by
  have rounds : kNodeMax = (kNodeMax - 1) + 1 := by decide
  rw [lookupScan, rounds, scan]
  simp [short]

theorem fetchFrom_first {disk : Memory} {dirHash fileHash : BitVec 64} {kind : BitVec 8} {start slice : Lba}
    {rest : List Lba} (used : HefsIndexNodeDirectory.fHashPath.get (directoryAt disk start) ≠ 0)
    (named : dirHash = HefsIndexNodeDirectory.fHashPath.get (directoryAt disk start))
    (found : (slices (directoryAt disk start)).find? (fun slice => inodeMatches fileHash kind (inodeAt disk slice)) =
      some slice) : fetchFrom disk dirHash fileHash kind (start :: rest) = some (inodeAt disk slice) := by
  have mapped : ((slices (directoryAt disk start)).map (inodeAt disk)).find? (inodeMatches fileHash kind) =
      some (inodeAt disk slice) := by
    rw [List.find?_map]
    exact Option.map_eq_some_iff.mpr ⟨slice, found, rfl⟩
  rw [fetchFrom]
  simp only [used, named, mapped, if_false, if_true]

theorem pairDrive_start : (1024 : Lba).toNat < 2 ^ 57 := by decide

def pairDrive : DriveTrait where
  fKind := 0
  fLbaStart := 1024
  fLbaEnd := 4096
  fSectorSz := 512
  fPacketReadOnly := false
  sectorCount := 4096
  ahci := false
  start_lt := pairDrive_start
  sectors_lt := by decide

def pairBoot : Image :=
  let boot := write (write zeroed fMagic kOpenHeFSMagic) fVolName [0]
  let boot := fEndIN.set 8192 (fStartIN.set 5120 (fEndIND.set 2560 (fStartIND.set 2048 boot)))
  fVersion.set kOpenHeFSVersion boot

def pairDirectory : Image :=
  let dir := (HefsIndexNodeDirectory.fINSlices ⟨1, by decide⟩).set 4608
    ((HefsIndexNodeDirectory.fINSlices ⟨0, sliceCount_pos⟩).set 4096 zeroed)
  HefsIndexNodeDirectory.fHashPath.set (hefsiHash64 kOpenHeFSRootDirectory) dir

def pairINode (name : Path) (block : BitVec 64) : Image :=
  HefsIndexNode.fOffsetSliceLow.set block (HefsIndexNode.fHashPath.set (hefsiHash64 name) zeroed)

def pairDisk : Memory :=
  let disk := place (fun _ => 0) 1024 HefsBootNode.size pairBoot
  let disk := place disk 2048 HefsIndexNodeDirectory.size pairDirectory
  let disk := place disk 4096 HefsIndexNode.size (pairINode (utf8 ['f']) 12288)
  place disk 4608 HefsIndexNode.size (pairINode (utf8 ['g']) 12800)

def pairMgr : FileMgr := ⟨⟨pairDisk, true, kErrorSuccess, []⟩, kErrorSuccess⟩

def pairFile (name : Char) : HefsFile := ⟨kOpenHeFSRootDirectory, utf8 [name], 0⟩

theorem pair_holds {name : Char} {slice : Lba}
    (found : (slices (directoryAt pairDisk 2048)).find? (fun slice =>
      inodeMatches (hefsiHash64 (utf8 [name])) 0 (inodeAt pairDisk slice)) = some slice) :
    Holds pairDrive pairMgr.mount (pairFile name) (inodeAt pairDisk slice) := by
  refine ⟨(by decide : 1 ≤ 256), (by decide : 1 ≤ 256), by decide, ?_⟩
  have scanned : lookupScan (bootAt pairDrive pairDisk) = [2048] := by
    rw [lookupScan_single (by decide +kernel)]
    exact congrArg (fun start => [start]) (by decide +kernel)
  have inode : fetchFrom pairDisk (hefsiHash64 kOpenHeFSRootDirectory) (hefsiHash64 (utf8 [name])) 0 [2048] =
      some (inodeAt pairDisk slice) := fetchFrom_first (by decide +kernel) (by decide +kernel) found
  rw [inodeOf, if_pos (by decide +kernel)]
  exact (congrArg _ scanned).trans inode

theorem pair_first : Holds pairDrive pairMgr.mount (pairFile 'f') (inodeAt pairDisk 4096) :=
  pair_holds (by decide +kernel)

theorem pair_second : Holds pairDrive pairMgr.mount (pairFile 'g') (inodeAt pairDisk 4608) :=
  pair_holds (by decide +kernel)

end Ne.Kernel.FS
