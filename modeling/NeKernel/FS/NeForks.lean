import NeKernel.FS.NeFileSystemParser
import NeKernel.FS.HeFileSystemParser

/-!
# Forks and their data

`CreateFork` ends in `fs_ifs_write`, which clears `fPacketGood`, and no transfer sets it again. A lookup
reads nothing from a drive whose packet is not good, so the fork cannot be written or read.
-/

namespace Ne.Kernel.FS
open ByteMem Loops

section Packets
variable {drive : NeDrive} {v v' : NeVolume} {lba : Lba} {size fuel : Nat} {body : Image}
  {beside : Beside} {name : CString} {hidden localSearch : Bool} {found : Option Found}

theorem output_good (good : (drive.output lba size body v).fPacketGood = true) :
    v.fPacketGood = true := by
  rw [NeDrive.output] at good
  split at good
  · cases good
  · split at good
    · cases good
    · exact good

theorem fsIfsWrite_bad : (drive.fsIfsWrite lba size body v).fPacketGood = false := by
  rw [NeDrive.fsIfsWrite]
  split
  · apply Bool.eq_false_iff.mpr
    intro good
    cases output_good good
  · exact Bool.eq_false_iff.mpr ‹_›

theorem scanFrom_bad {start : Lba} (bad : v.fPacketGood = false)
    (ends : scanFrom drive fuel v name hidden start = some found) : found = none := by
  cases fuel with
  | zero => cases ends
  | succ fuel =>
      have stop : scanRound drive v name hidden start = .done none := by simp [scanRound, bad]
      rw [scanFrom, loop_done stop] at ends
      exact (Option.some.inj ends).symm

theorem findAnywhere_bad (bad : v.fPacketGood = false)
    (ends : findAnywhere drive fuel name hidden v = some found) : found = none := by
  rw [findAnywhere] at ends
  split at ends
  · exact (Option.some.inj ends).symm
  · exact scanFrom_bad bad ends

theorem findBelow_bad (bad : v.fPacketGood = false)
    (ends : findBelow drive fuel beside name hidden v = some found) : found = none := by
  rw [findBelow] at ends
  split at ends
  · cases ends
  split at ends
  · exact (Option.some.inj ends).symm
  cases split : name.parent beside.stack with
  | none =>
      rw [split] at ends
      exact (Option.some.inj ends).symm
  | some parentName =>
      simp only [split, Option.bind_eq_bind, Option.bind_eq_some_iff] at ends
      obtain ⟨parentCatalog, above, ends⟩ := ends
      obtain rfl := findAnywhere_bad bad above
      exact findAnywhere_bad bad ends

theorem findCatalog_bad (bad : v.fPacketGood = false)
    (ends : findCatalog drive fuel beside name hidden localSearch v = some found) : found = none := by
  rw [findCatalog] at ends
  split at ends
  · exact findBelow_bad bad ends
  · exact findAnywhere_bad bad ends

theorem scanFrom_ends {start : Lba} (bad : v.fPacketGood = false) :
    scanFrom drive (fuel + 1) v name hidden start = some none :=
  loop_done (by simp [scanRound, bad])

theorem findAnywhere_ends (bad : v.fPacketGood = false) :
    findAnywhere drive (fuel + 1) name hidden v = some none := by
  rw [findAnywhere]
  split
  · rfl
  · exact scanFrom_ends bad

theorem findCatalog_ends (bad : v.fPacketGood = false) (short : name.length < kNeFSCatalogNameLen) :
    findCatalog drive (fuel + 1) beside name hidden localSearch v = some none := by
  rw [findCatalog]
  split
  · rw [findBelow, if_neg (by omega), if_neg (by omega)]
    cases split : name.parent beside.stack with
    | none => rfl
    | some parentName => simp [findAnywhere_ends bad]
  · exact findAnywhere_ends bad

theorem findCatalog_good {catalog : Found}
    (ends : findCatalog drive fuel beside name hidden localSearch v = some (some catalog)) :
    v.fPacketGood = true := by
  cases good : v.fPacketGood with
  | true => rfl
  | false => cases findCatalog_bad good ends

end Packets

section Data
variable {drive : NeDrive} {v v' : NeVolume} {fuel : Nat} {beside : Beside} {fork fork' : Image}
  {before : Nat → Byte}

theorem createFork_bad (made : createFork drive fuel beside fork before v = some (true, fork', v')) :
    v'.fPacketGood = false := by
  obtain ⟨slot, -, made⟩ := Option.map_eq_some_iff.mp made
  cases slot with
  | none => cases made
  | some slot =>
      cases made
      exact fsIfsWrite_bad

theorem writeCatalog_bad {name : CString} {isRsrcFork : Bool} {data : Image} {size : SizeT}
    {forkName : List Byte} {result : Bool} (bad : v.fPacketGood = false)
    (ends : writeCatalog drive fuel beside name isRsrcFork data size forkName v = some (result, v')) :
    result = false := by
  rw [writeCatalog] at ends
  split at ends
  · cases ends
    rfl
  simp only [Option.bind_eq_bind, Option.bind_eq_some_iff] at ends
  obtain ⟨catalog, search, ends⟩ := ends
  obtain rfl := findCatalog_bad bad search
  cases ends
  rfl

/-- Byte `i` of the data that starts at `DataOffset`. -/
def dataByte (drive : NeDrive) (fork : Image) (i : BitVec 64) (v : NeVolume) : Byte :=
  v.sectors (drive.sectorOf (NefsForkStruct.DataOffset.get fork + i / BitVec.ofNat 64 kNeFSSectorSz))
    (i % BitVec.ofNat 64 kNeFSSectorSz)

/-- `WriteCatalog` of as many bytes as the fork is for takes them to its data, and `ReadCatalog` of the
catalog the path leads to brings them back. -/
def WritesAndReads (drive : NeDrive) (beside : Beside) (name : CString) (isRsrcFork : Bool)
    (fork data : Image) (v : NeVolume) : Prop :=
  let size := NefsForkStruct.DataSize.get fork
  ∃ fuel v', writeCatalog drive fuel beside name isRsrcFork data size (forkNameOf fork) v = some (true, v') ∧
    (∀ i, i < size → dataByte drive fork i v' = data i) ∧
    ∃ found content, getCatalog drive fuel beside name v' = some (some found) ∧
      readCatalog drive fuel (some found.catalog) isRsrcFork size (forkNameOf fork) v' =
        some (some content) ∧
      ∀ i, i < size → content i = data i

/-- `CreateCatalog` of a file and `CreateFork` of a fork of it, one after the other. -/
structure ForkMade (drive : NeDrive) (name : CString) (fork fork' : Image) (v v₂ : NeVolume) : Prop where
  named : catalogNameOf fork = name.text
  made : ∃ fuel fuel' beside beside' flags catalog v₁ before,
    createCatalog drive fuel beside name flags kNeFSCatalogKindFile v = some (some catalog, v₁) ∧
      createFork drive fuel' beside' fork before v₁ = some (true, fork', v₂)

theorem ForkMade.bad {name : CString} (made : ForkMade drive name fork fork' v v') :
    v'.fPacketGood = false := by
  obtain ⟨_, _, _, _, _, _, _, _, -, forked⟩ := made.made
  exact createFork_bad forked

/-- A fork that was created takes no data. -/
theorem created_fork_not_written {name : CString} (made : ForkMade drive name fork fork' v v')
    (beside : Beside) (isRsrcFork : Bool) (data : Image) :
    ¬ WritesAndReads drive beside name isRsrcFork fork' data v' := by
  rintro ⟨fuel, v'', written, -⟩
  cases writeCatalog_bad made.bad written

end Data

/-! ## A volume

Its first catalog lies at the end of a sector, so that the next address is in the next sector. -/

def preparedDrive : NeDrive where
  fLbaStart := 1024
  fSectorSz := 512
  fPacketReadOnly := false
  sectorCount := 4096
  ahci := true
  identNext := 0
  sectorSz_pos := by decide

def preparedVolume : NeVolume where
  sectors := fun s =>
    if s = 2 then NefsRootPartitionBlock.StartCatalog.set 2558
      (formatPartition preparedDrive (utf8 ['N']) zeroed)
    else zeroed
  fPacketGood := true

def pathA : CString := ⟨fun _ => 0, utf8 ['/', 'a'], by decide⟩

def cleared : Beside := ⟨fun _ => 0, fun _ => 0⟩

def fiveBytes : Image := NefsForkStruct.DataSize.set 5
  (write (write zeroed NefsForkStruct.CatalogName pathA.text) NefsForkStruct.ForkName (utf8 ['d']))

theorem prepared_forkMade : ∃ fork' v', ForkMade preparedDrive pathA fiveBytes fork' preparedVolume v' := by
  have runs : ((createCatalog preparedDrive 3 cleared pathA 0 kNeFSCatalogKindFile preparedVolume).bind
      fun file => (createFork preparedDrive 3 cleared fiveBytes (fun _ => 0) file.2).map
        fun made => (file.1.isSome, made.1)) = some (true, true) := by decide +kernel
  simp only [Option.bind_eq_some_iff, Option.map_eq_some_iff, Prod.mk.injEq] at runs
  obtain ⟨⟨file, v₁⟩, created, ⟨made, fork', v₂⟩, forked, isSome, rfl⟩ := runs
  obtain ⟨catalog, rfl⟩ := Option.isSome_iff_exists.mp isSome
  exact ⟨fork', v₂, by decide +kernel, _, _, _, _, _, _, _, _, created, forked⟩

theorem prepared_fork_not_written : ∃ fork' v',
    ForkMade preparedDrive pathA fiveBytes fork' preparedVolume v' ∧
      ¬ WritesAndReads preparedDrive cleared pathA false fork' zeroed v' := by
  obtain ⟨fork', v', made⟩ := prepared_forkMade
  exact ⟨fork', v', made, created_fork_not_written made _ _ _⟩

/-- Five bytes for the prepared volume's fork are refused. -/
theorem prepared_write_refused : ∃ fork' v',
    ForkMade preparedDrive pathA fiveBytes fork' preparedVolume v' ∧
      writeCatalog preparedDrive 1 cleared pathA false zeroed 5 (utf8 ['d']) v' = some (false, v') ∧
      ¬ WritesAndReads preparedDrive cleared pathA false fork' zeroed v' := by
  obtain ⟨fork', v', made⟩ := prepared_forkMade
  refine ⟨fork', v', made, ?_, ?_⟩
  · rw [writeCatalog, if_neg (by decide), getCatalog, findCatalog_ends made.bad (by decide)]
    rfl
  · rintro ⟨fuel, v'', written, -⟩
    cases writeCatalog_bad made.bad written

end Ne.Kernel.FS
