import NeKernel.FS.NeRemoval
import NeKernel.Lib.Runs

/-!
# The counters of the partition block

A creation moves all three counters with the number of live catalogs. A removal lowers the number of
catalogs, but gives back one sector and no free catalog.
-/

namespace Ne.Kernel.FS
open ByteMem Loops Runs

inductive CatalogCall
  | create (beside : Beside) (name : CString) (flags kind : BitVec 32)
  | remove (beside : Beside) (name : CString)

/-- A volume, and the slots of the catalogs that were created and not removed since. -/
structure CatalogHistory where
  volume : NeVolume
  live : List Lba

namespace CatalogHistory

/-- What `CreateCatalog` makes of an allocation. -/
def created (drive : NeDrive) (text : List Byte) (flags kind : BitVec 32)
    (allocation : Option Allocation) (h : CatalogHistory) : CatalogHistory where
  volume := (useSlot drive text flags kind h.volume allocation).2
  live := match allocation with
    | some ⟨_, .free slot _⟩ => slot :: h.live
    | _ => h.live

end CatalogHistory

inductive CatalogStep (drive : NeDrive) : CatalogCall → CatalogHistory → CatalogHistory → Prop
  | create {beside : Beside} {name : CString} {flags kind : BitVec 32} {h : CatalogHistory} {fuel : Nat}
      {allocation : Option Allocation} :
      findSlot drive fuel beside name kind h.volume = some allocation →
      CatalogStep drive (.create beside name flags kind) h (h.created drive name.text flags kind allocation)
  | removed {beside : Beside} {name : CString} {h : CatalogHistory} {fuel : Nat} {found : Found}
      {v : NeVolume} :
      findCatalog drive fuel beside name true true h.volume = some (some found) →
      removeCatalog drive fuel beside name h.volume = some (true, v) →
      CatalogStep drive (.remove beside name) h ⟨v, h.live.erase found.lba⟩
  | refused {beside : Beside} {name : CString} {h : CatalogHistory} {fuel : Nat} {v : NeVolume} :
      removeCatalog drive fuel beside name h.volume = some (false, v) →
      CatalogStep drive (.remove beside name) h ⟨v, h.live⟩

/-- A counter of the partition block. -/
def CatalogHistory.counter (drive : NeDrive) (f : Field) (h : CatalogHistory) : Int :=
  (f.get (drive.partition h.volume)).toNat

/-- What the three counters make with the number of live catalogs. -/
def CatalogHistory.balance (drive : NeDrive) (h : CatalogHistory) : Int × Int × Int :=
  (h.counter drive NefsRootPartitionBlock.CatalogCount - h.live.length,
    h.counter drive NefsRootPartitionBlock.FreeCatalog + h.live.length,
    h.counter drive NefsRootPartitionBlock.FreeSectors + drive.catalogSectors.toNat * h.live.length)

/-- A creation whose slot is off the partition block and whose counters do not wrap, or a removal of a
path that leads to no catalog. -/
def Accounted (drive : NeDrive) : CatalogCall → CatalogHistory → Prop
  | .create beside name _ kind, h => ∀ fuel outLba slot old,
      findSlot drive fuel beside name kind h.volume = some (some ⟨outLba, .free slot old⟩) →
        drive.sectorOf slot ≠ drive.sectorOf kNeFSRootCatalogStartAddress ∧
        drive.catalogSectors ≤ NefsRootPartitionBlock.FreeSectors.get (drive.partition h.volume) ∧
        (NefsRootPartitionBlock.CatalogCount.get (drive.partition h.volume)).toNat + 1 < 2 ^ 64
  | .remove beside name, h => name.text = kNeFSRoot ∨
      ∀ fuel found, findCatalog drive fuel beside name true true h.volume ≠ some (some found)

section Creation
variable {drive : NeDrive} {fuel : Nat} {beside : Beside} {name : CString} {kind : BitVec 32}
  {v : NeVolume} {allocation : Allocation} {slot : Lba} {child : Image} {f : Field}

theorem findSlotFrom_checks {text : List Byte} {outLba : Lba}
    (ends : findSlotFrom drive fuel text outLba v = some (some allocation)) :
    drive.fPacketReadOnly = false ∧ ¬ NefsRootPartitionBlock.FreeCatalog.get (drive.partition v) < 1 := by
  rw [findSlotFrom] at ends
  split at ends
  · cases ends
  · rename_i checks
    simpa using checks

theorem findSlot_cases (ends : findSlot drive fuel beside name kind v = some (some allocation)) :
    ∃ outLba, findSlotFrom drive fuel name.text outLba v = some (some allocation) := by
  obtain ⟨-, -, -, -, -, outLba, -, -, searched, -⟩ := findSlot_some ends
  exact ⟨outLba, searched⟩

theorem takeSlot_partition (writable : drive.fPacketReadOnly = false)
    (off : drive.sectorOf slot ≠ drive.sectorOf kNeFSRootCatalogStartAddress)
    (inside : f.off + f.size ≤ kNeFSSectorSz) :
    f.get (drive.partition (takeSlot drive (drive.partition v) child slot v)) =
      f.get (countCreated drive (drive.partition v)) := by
  refine Field.get_congr fun x _ high => ?_
  rw [takeSlot, NeDrive.partition, NeDrive.input,
    output_byte writable (by decide) (by decide) (lt_of_lt_of_le high inside)]
  rw [NeDrive.partition, NeDrive.input, output_other off.symm, output_other off.symm]
  rfl

theorem countCreated_catalogs {part : Image} :
    NefsRootPartitionBlock.CatalogCount.get (countCreated drive part) =
      NefsRootPartitionBlock.CatalogCount.get part + 1 := by
  rw [countCreated, Field.get_set_other (by decide), Field.get_set_full rfl, Field.get_set_other (by decide)]

theorem countCreated_free {part : Image} :
    NefsRootPartitionBlock.FreeCatalog.get (countCreated drive part) =
      NefsRootPartitionBlock.FreeCatalog.get part - 1 := by
  rw [countCreated, Field.get_set_full rfl, Field.get_set_other (by decide), Field.get_set_other (by decide)]

theorem countCreated_sectors {part : Image} :
    NefsRootPartitionBlock.FreeSectors.get (countCreated drive part) =
      NefsRootPartitionBlock.FreeSectors.get part - drive.catalogSectors := by
  rw [countCreated, Field.get_set_other (by decide), Field.get_set_other (by decide), Field.get_set_full rfl]

theorem removeCatalog_refused {v' : NeVolume}
    (ends : removeCatalog drive fuel beside name v = some (false, v')) : v' = v := by
  rw [removeCatalog] at ends
  split at ends
  · cases ends
    rfl
  simp only [Option.bind_eq_bind, Option.bind_eq_some_iff] at ends
  obtain ⟨catalog, search, ends⟩ := ends
  cases catalog with
  | none =>
      cases ends
      rfl
  | some found =>
      simp only [Option.bind_eq_some_iff] at ends
      obtain ⟨v₁, -, v₂, -, ends⟩ := ends
      rw [if_pos (.inr (findCatalog_finds search).isLive)] at ends
      cases ends

end Creation

section Steps
variable {drive : NeDrive} {call : CatalogCall} {h h' : CatalogHistory}

theorem taken_balance {v : NeVolume} {child : Image} {slot : Lba} {lives : List Lba}
    (writable : drive.fPacketReadOnly = false)
    (off : drive.sectorOf slot ≠ drive.sectorOf kNeFSRootCatalogStartAddress)
    (free : ¬ NefsRootPartitionBlock.FreeCatalog.get (drive.partition v) < 1)
    (sectors : drive.catalogSectors ≤ NefsRootPartitionBlock.FreeSectors.get (drive.partition v))
    (count : (NefsRootPartitionBlock.CatalogCount.get (drive.partition v)).toNat + 1 < 2 ^ 64) :
    CatalogHistory.balance drive ⟨takeSlot drive (drive.partition v) child slot v, slot :: lives⟩ =
      CatalogHistory.balance drive ⟨v, lives⟩ := by
  have positive : (1 : Nat) ≤ (NefsRootPartitionBlock.FreeCatalog.get (drive.partition v)).toNat :=
    BitVec.not_lt.mp free
  have room : drive.catalogSectors.toNat ≤
      (NefsRootPartitionBlock.FreeSectors.get (drive.partition v)).toNat := sectors
  have block {f : Field} (inside : f.off + f.size ≤ kNeFSSectorSz) :
      f.get (drive.partition (takeSlot drive (drive.partition v) child slot v)) =
        f.get (countCreated drive (drive.partition v)) := takeSlot_partition writable off inside
  have catalogs := congrArg BitVec.toNat ((block (by decide)).trans countCreated_catalogs)
  have frees := congrArg BitVec.toNat ((block (by decide)).trans countCreated_free)
  have lefts := congrArg BitVec.toNat ((block (by decide)).trans countCreated_sectors)
  rw [BitVec.toNat_add_of_lt count] at catalogs
  rw [BitVec.toNat_sub_of_le (BitVec.not_lt.mp free)] at frees
  rw [BitVec.toNat_sub_of_le sectors] at lefts
  simp only [CatalogHistory.balance, CatalogHistory.counter, catalogs, frees, lefts, List.length_cons]
  refine Prod.ext ?_ (Prod.ext ?_ ?_)
  · push_cast
    omega
  · have one : (1 : BitVec 64).toNat = 1 := rfl
    push_cast [one, positive]
    omega
  · push_cast [room]
    ring

/-- A call that meets its condition moves the counters with the number of live catalogs. -/
theorem step_balance (accounted : Accounted drive call h) (taken : CatalogStep drive call h h') :
    h'.balance drive = h.balance drive := by
  cases taken with
  | @create beside name flags kind _ fuel allocation found =>
      rcases allocation with _ | ⟨outLba, slot⟩
      · rfl
      cases slot with
      | present catalog => rfl
      | free slot old =>
          obtain ⟨off, sectors, count⟩ := accounted fuel outLba slot old found
          obtain ⟨_, searched⟩ := findSlot_cases found
          obtain ⟨writable, free⟩ := findSlotFrom_checks searched
          exact taken_balance writable off free sectors count
  | removed search ends =>
      rcases accounted with root | absent
      · simp [removeCatalog, root] at ends
      · exact absurd search (absent _ _)
  | @refused _ _ _ _ v ends =>
      have same : v = h.volume := removeCatalog_refused ends
      rw [same]

end Steps

section Removals
variable {drive : NeDrive} {v : NeVolume} {f : Field} {found : Found} {lives lives' : List Lba}

theorem countRemoved_free {part : Image} : NefsRootPartitionBlock.FreeCatalog.get (countRemoved part) =
    NefsRootPartitionBlock.FreeCatalog.get part := by
  rw [countRemoved, Field.get_set_other (by decide)]
  split
  · exact Field.get_set_other (by decide)
  · rfl

theorem countRemoved_sectors {part : Image} : NefsRootPartitionBlock.FreeSectors.get (countRemoved part) =
    NefsRootPartitionBlock.FreeSectors.get part + 1 := by
  rw [countRemoved, Field.get_set_full rfl]
  split
  · rw [Field.get_set_other (by decide)]
  · rfl

theorem markRemoved_partition (writable : drive.fPacketReadOnly = false)
    (off : drive.sectorOf found.lba ≠ drive.sectorOf kNeFSRootCatalogStartAddress)
    (inside : f.off + f.size ≤ kNeFSSectorSz) :
    f.get (drive.partition (markRemoved drive found v)) = f.get (countRemoved (drive.partition v)) := by
  refine Field.get_congr fun x _ high => ?_
  rw [markRemoved, NeDrive.partition, NeDrive.input,
    output_byte writable (by decide) (by decide) (lt_of_lt_of_le high inside)]
  rw [NeDrive.partition, NeDrive.input, output_other off.symm]
  rfl

/-- No removal that returns true keeps the counters with the number of live catalogs. -/
theorem removed_unbalanced {fuel : Nat} {beside : Beside} {name : CString} {v' : NeVolume}
    (writable : drive.fPacketReadOnly = false)
    (off : ∀ found, Finds drive v found →
      drive.sectorOf found.lba ≠ drive.sectorOf kNeFSRootCatalogStartAddress)
    (removed : removeCatalog drive fuel beside name v = some (true, v')) :
    CatalogHistory.balance drive ⟨v', lives'⟩ ≠ CatalogHistory.balance drive ⟨v, lives⟩ := by
  obtain ⟨found, v₁, v₂, search, data, resource, rfl⟩ := removeCatalog_cases removed
  have clear := off found (findCatalog_finds search)
  have forks := (forks_marked writable data).trans (forks_marked writable resource)
  have kept {f : Field} (inside : f.off + f.size ≤ 456) :
      f.get (drive.partition v₂) = f.get (drive.partition v) :=
    Field.get_congr fun x _ high => forks.bytes _ x
      (lt_trans (lt_of_lt_of_le high inside) (by decide)) (by omega)
  intro same
  simp only [CatalogHistory.balance, CatalogHistory.counter, Prod.mk.injEq] at same
  obtain ⟨-, free, sectors⟩ := same
  rw [markRemoved_partition writable clear (by decide), countRemoved_free, kept (by decide)] at free
  rw [markRemoved_partition writable clear (by decide), countRemoved_sectors, kept (by decide)] at sectors
  have length : lives'.length = lives.length := by omega
  rw [length] at sectors
  have grown : (NefsRootPartitionBlock.FreeSectors.get (drive.partition v) + 1).toNat =
      (NefsRootPartitionBlock.FreeSectors.get (drive.partition v)).toNat := by omega
  have one := BitVec.eq_of_toNat_eq grown
  simp at one

end Removals

/-- The counters go with the number of live catalogs after every run whose calls meet the condition. -/
theorem counters_conserved {drive : NeDrive} {h h' : CatalogHistory} {calls : List CatalogCall}
    (run : Run (Guarded (Accounted drive) (CatalogStep drive)) h calls h') :
    h'.balance drive = h.balance drive :=
  have kept : ∀ l s t, CatalogHistory.balance drive s = h.balance drive →
      Guarded (Accounted drive) (CatalogStep drive) l s t → t.balance drive = h.balance drive :=
    fun _ _ _ same taken => (step_balance taken.1 taken.2).trans same
  run.invariant kept rfl

def createA : CatalogCall := .create cleared pathA 0 kNeFSCatalogKindFile

theorem prepared_slot : ∃ old, findSlot preparedDrive 2 cleared pathA kNeFSCatalogKindFile preparedVolume =
    some (some ⟨2558, .free 2558 old⟩) := by
  have found : (findSlot preparedDrive 2 cleared pathA kNeFSCatalogKindFile preparedVolume).map
      (fun allocation => allocation.map fun here => (here.outLba, match here.slot with
        | .free slot _ => some slot
        | .present _ => none)) = some (some (2558, some 2558)) := by decide +kernel
  obtain ⟨allocation, ends, shape⟩ := Option.map_eq_some_iff.mp found
  obtain ⟨⟨outLba, slot⟩, rfl, shape⟩ := Option.map_eq_some_iff.mp shape
  cases slot with
  | present catalog => cases shape
  | free slot old =>
      cases shape
      exact ⟨old, ends⟩

theorem prepared_accounted : Accounted preparedDrive createA ⟨preparedVolume, []⟩ := by
  intro fuel outLba slot old ends
  obtain ⟨old', ends'⟩ := prepared_slot
  cases findSlot_steady.unique ends ends'
  exact ⟨by decide, by decide +kernel, by decide +kernel⟩

/-- The prepared volume with its first file. -/
def preparedHistory : CatalogHistory :=
  CatalogHistory.created preparedDrive pathA.text 0 kNeFSCatalogKindFile
    (some ⟨2558, .free 2558 zeroed⟩) ⟨preparedVolume, []⟩

theorem prepared_created : CatalogStep preparedDrive createA ⟨preparedVolume, []⟩ preparedHistory := by
  obtain ⟨old, ends⟩ := prepared_slot
  have step : CatalogStep preparedDrive createA ⟨preparedVolume, []⟩
      (CatalogHistory.created preparedDrive pathA.text 0 kNeFSCatalogKindFile
        (some ⟨2558, .free 2558 old⟩) ⟨preparedVolume, []⟩) := .create ends
  exact step

theorem prepared_conserved : Run (Guarded (Accounted preparedDrive) (CatalogStep preparedDrive))
      ⟨preparedVolume, []⟩ [createA] preparedHistory ∧
    preparedHistory.balance preparedDrive = CatalogHistory.balance preparedDrive ⟨preparedVolume, []⟩ := by
  have run : Run (Guarded (Accounted preparedDrive) (CatalogStep preparedDrive))
      ⟨preparedVolume, []⟩ [createA] preparedHistory := .single ⟨prepared_accounted, prepared_created⟩
  exact ⟨run, counters_conserved run⟩

/-- A file that is created and removed takes a sector and a free catalog with it. -/
theorem created_removed_unbalanced : ∃ h,
    Run (CatalogStep preparedDrive) ⟨preparedVolume, []⟩ [createA, .remove cleared pathA] h ∧
      h.balance preparedDrive = (3919, 3917, 4093) ∧
      CatalogHistory.balance preparedDrive ⟨preparedVolume, []⟩ = (3919, 3918, 4094) := by
  have runs : ((findCatalog preparedDrive 3 cleared pathA true true preparedHistory.volume).bind
      fun found => (removeCatalog preparedDrive 3 cleared pathA preparedHistory.volume).map
        fun removed => (found.map (·.lba), removed.1,
          CatalogHistory.balance preparedDrive ⟨removed.2, []⟩)) =
      some (some 2558, true, (3919, 3917, 4093)) := by decide +kernel
  simp only [Option.bind_eq_some_iff, Option.map_eq_some_iff, Prod.mk.injEq] at runs
  obtain ⟨found, search, ⟨removed, v⟩, ends, ⟨found, rfl, slot⟩, rfl, balance⟩ := runs
  have lives : preparedHistory.live.erase found.lba = [] := by
    rw [slot]
    decide
  have step := CatalogStep.removed search ends
  rw [lives] at step
  exact ⟨_, .cons prepared_created (.single step), by simpa using balance, by decide +kernel⟩

end Ne.Kernel.FS
