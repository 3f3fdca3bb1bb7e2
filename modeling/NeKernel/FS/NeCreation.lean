import NeKernel.FS.NeResolution

/-!
# The catalog that a creation returns

`CreateCatalog` copies the buffer it read the slot into, and not the catalog it wrote there. So it returns
what the slot held before.
-/

namespace Ne.Kernel.FS
open ByteMem Loops

/-- The catalog that is returned is the one that was written, and the one that `GetCatalog` returns then. -/
def ReturnsCreated (drive : NeDrive) (beside : Beside) (name : CString) (flags kind : BitVec 32)
    (v : NeVolume) : Prop :=
  ∀ fuel returned v', createCatalog drive fuel beside name flags kind v = some (some returned, v') →
    (∃ outLba slot old, findSlot drive fuel beside name kind v = some (some ⟨outLba, .free slot old⟩) ∧
      SameSector returned
        (placeChild drive (drive.partition v) (childCatalog name.text flags kind outLba) slot)) ∧
    ∀ beside', ∃ fuel' found, getCatalog drive fuel' beside' name v' = some (some found) ∧
      SameSector returned found.catalog

/-! ## Slots -/

/-- The address is one of a catalog that the partition block counts. -/
def Counted (drive : NeDrive) (v : NeVolume) (lba : Lba) : Prop :=
  lba < NefsRootPartitionBlock.StartCatalog.get (drive.partition v) +
    NefsRootPartitionBlock.CatalogCount.get (drive.partition v) * drive.catalogSectors

/-- Live catalogs of other names, and then one that is not live or has the path for a name. -/
inductive SlotAhead (drive : NeDrive) (v : NeVolume) (text : List Byte) : Lba → Prop
  | free {lba : Lba} : Counted drive v lba → ¬ live (drive.input lba v) → SlotAhead drive v text lba
  | present {lba : Lba} : Counted drive v lba → live (drive.input lba v) →
      nameOf (drive.input lba v) = text → SlotAhead drive v text lba
  | later {lba : Lba} : Counted drive v lba → live (drive.input lba v) → nameOf (drive.input lba v) ≠ text →
      SlotAhead drive v text (lba + drive.catalogSectors) → SlotAhead drive v text lba

/-- A new path of the right ending whose parent is not a file, on a drive that can be written and has a free
catalog and a slot behind the parent. -/
structure NeCreates (drive : NeDrive) (beside : Beside) (name : CString) (kind : BitVec 32) (v : NeVolume) : Prop where
  ended : name.text ≠ [] ∧ endFits name.text kind
  absent : ∃ fuel, findCatalog drive fuel beside name true false v = some none
  several : 2 ≤ name.length
  writable : drive.fPacketReadOnly = false
  roomy : 1 ≤ NefsRootPartitionBlock.FreeCatalog.get (drive.partition v)
  below : ∃ above fuel parent, name.parent beside.heap = some above ∧
    findCatalog drive fuel beside above true false v = some parent ∧
    match parent with
    | none => SlotAhead drive v name.text (NefsRootPartitionBlock.StartCatalog.get (drive.partition v))
    | some found => NefsCatalogStruct.Kind.get found.catalog ≠ kNeFSCatalogKindFile.setWidth 64 ∧
        SlotAhead drive v name.text found.lba

section Search
variable {drive : NeDrive} {fuel : Nat} {beside : Beside} {name above : CString} {kind : BitVec 32} {v : NeVolume}
  {text : List Byte} {start outLba lba : Lba} {slot : Slot} {old : Image} {parent : Option Found}

theorem slotRound_counted (counted : Counted drive v start) : slotRound drive v (drive.partition v) text start =
    let tmp := drive.input start v
    if ¬ live tmp then .done (some (.free start tmp))
    else if nameOf tmp = text then .done (some (.present tmp))
    else .again (start + drive.catalogSectors) := if_pos counted

theorem slot_ahead (ends : loop (slotRound drive v (drive.partition v) text) fuel start = some (some slot)) :
    SlotAhead drive v text start := by
  induction fuel generalizing start with
  | zero => cases ends
  | succ fuel ih =>
      by_cases counted : Counted drive v start
      · by_cases isLive : live (drive.input start v)
        · by_cases same : nameOf (drive.input start v) = text
          · exact .present counted isLive same
          · have turn : slotRound drive v (drive.partition v) text start = .again (start + drive.catalogSectors) := by
              rw [slotRound_counted counted]
              dsimp only
              rw [if_neg (not_not.mpr isLive), if_neg same]
            rw [loop_again turn] at ends
            exact .later counted isLive same (ih ends)
        · exact .free counted isLive
      · have turn : slotRound drive v (drive.partition v) text start = .done none := if_neg counted
        rw [loop_done turn] at ends
        cases ends

theorem SlotAhead.found (ahead : SlotAhead drive v text start) :
    ∃ fuel slot, loop (slotRound drive v (drive.partition v) text) fuel start = some (some slot) := by
  induction ahead with
  | @free lba counted blank =>
      refine ⟨1, .free lba (drive.input lba v), loop_done ?_⟩
      rw [slotRound_counted counted]
      exact if_pos blank
  | @present lba counted isLive same =>
      refine ⟨1, .present (drive.input lba v), loop_done ?_⟩
      rw [slotRound_counted counted]
      dsimp only
      rw [if_neg (not_not.mpr isLive), if_pos same]
  | later counted isLive differ _ ih =>
      obtain ⟨fuel, slot, ends⟩ := ih
      refine ⟨fuel + 1, slot, ?_⟩
      rw [loop_again, ends]
      rw [slotRound_counted counted]
      dsimp only
      rw [if_neg (not_not.mpr isLive), if_neg differ]

theorem slot_blank (ends : loop (slotRound drive v (drive.partition v) text) fuel start = some (some (.free lba old))) :
    ¬ live old := by
  have last (cursor : Lba) (result : Option Slot)
      (done : slotRound drive v (drive.partition v) text cursor = .done result) :
      ∀ lba old, result = some (.free lba old) → ¬ live old := by
    rintro lba old rfl
    by_cases counted : Counted drive v cursor
    · rw [slotRound_counted counted] at done
      dsimp only at done
      split at done
      case isTrue blank =>
        cases done
        exact blank
      · split at done <;> cases done
    · rw [show slotRound drive v (drive.partition v) text cursor = .done none from if_neg counted] at done
      cases done
  have whole : ∀ lba' old', some (Slot.free lba old) = some (.free lba' old') → ¬ live old' :=
    @loop_invariant _ _ _ _ _ _ (fun _ => True) _ (fun _ _ _ _ => trivial)
      (fun cursor result _ done => last cursor result done) trivial ends
  exact whole lba old rfl

theorem findSlotFrom_ahead {allocation : Allocation}
    (ends : findSlotFrom drive fuel text outLba v = some (some allocation)) :
    drive.fPacketReadOnly = false ∧ 1 ≤ NefsRootPartitionBlock.FreeCatalog.get (drive.partition v) ∧
      SlotAhead drive v text outLba ∧
      ∀ lba old, allocation.slot = .free lba old → ¬ live old := by
  obtain ⟨writable, roomy⟩ := findSlotFrom_checks ends
  rw [findSlotFrom] at ends
  split at ends
  · cases ends
  obtain ⟨found, search, same⟩ := Option.map_eq_some_iff.mp ends
  obtain ⟨slot, rfl, rfl⟩ := Option.map_eq_some_iff.mp same
  refine ⟨writable, BitVec.not_lt.mp roomy, slot_ahead search, ?_⟩
  rintro lba old rfl
  exact slot_blank search

theorem SlotAhead.allocated (ahead : SlotAhead drive v text start) (writable : drive.fPacketReadOnly = false)
    (roomy : 1 ≤ NefsRootPartitionBlock.FreeCatalog.get (drive.partition v)) :
    ∃ fuel allocation, findSlotFrom drive fuel text start v = some (some allocation) := by
  obtain ⟨fuel, slot, ends⟩ := ahead.found
  refine ⟨fuel, ⟨start, slot⟩, ?_⟩
  unfold findSlotFrom
  dsimp only
  rw [if_neg, ends]
  · rfl
  · rintro (readOnly | full)
    · cases writable.symm.trans readOnly
    · exact BitVec.not_le.mpr full roomy

theorem findSlot_creates {allocation : Allocation}
    (ends : findSlot drive fuel beside name kind v = some (some allocation)) :
    NeCreates drive beside name kind v ∧ ∀ lba old, allocation.slot = .free lba old → ¬ live old := by
  obtain ⟨ended, absent, several, above, parent, outLba, split, search, searched, origin⟩ := findSlot_some ends
  obtain ⟨writable, roomy, ahead, blank⟩ := findSlotFrom_ahead searched
  refine ⟨⟨ended, ⟨fuel, absent⟩, several, writable, roomy, above, fuel, parent, split, search, ?_⟩, blank⟩
  rcases origin with ⟨rfl, rfl⟩ | ⟨found, rfl, folder, rfl⟩
  · exact ahead
  · exact ⟨folder, ahead⟩

theorem NeCreates.allocated (creates : NeCreates drive beside name kind v) :
    ∃ fuel allocation, findSlot drive fuel beside name kind v = some (some allocation) := by
  obtain ⟨⟨nonempty, fits⟩, ⟨fuel, search⟩, several, writable, roomy, above, fuel', parent, split, search', below⟩ :=
    creates
  obtain ⟨start, ahead, folder⟩ : ∃ start, SlotAhead drive v name.text start ∧ match parent with
      | none => start = NefsRootPartitionBlock.StartCatalog.get (drive.partition v)
      | some found => NefsCatalogStruct.Kind.get found.catalog ≠ kNeFSCatalogKindFile.setWidth 64 ∧
          start = found.lba := by
    cases parent with
    | none => exact ⟨_, below, rfl⟩
    | some found => exact ⟨_, below.2, below.1, rfl⟩
  obtain ⟨fuel'', allocation, ends⟩ := ahead.allocated writable roomy
  refine ⟨fuel + fuel' + fuel'', allocation, ?_⟩
  rw [findSlot, if_neg (not_or.mpr ⟨nonempty, not_not.mpr fits⟩), Option.bind_eq_bind,
    findCatalog_steady.mono search (by omega), Option.bind_some,
    if_neg (not_or.mpr ⟨by simp, Nat.not_lt.mpr several⟩), split]
  dsimp only
  rw [findCatalog_steady.mono search' (by omega), Option.bind_some]
  have last := (findSlotFrom_steady name.text start).mono ends (by omega : fuel'' ≤ fuel + fuel' + fuel'')
  cases parent with
  | none => exact folder ▸ last
  | some found =>
      dsimp only
      rw [if_neg folder.1]
      exact folder.2 ▸ last

end Search

/-! ## Creation -/

section Returns
variable {drive : NeDrive} {fuel : Nat} {beside : Beside} {name : CString} {flags kind : BitVec 32} {v v' : NeVolume}
  {returned s s' : Image}

theorem SameSector.live_iff (same : SameSector s s') : live s' ↔ live s := by
  unfold live
  rw [same.get (by decide)]

theorem createCatalog_slot (created : createCatalog drive fuel beside name flags kind v = some (some returned, v')) :
    ∃ allocation, findSlot drive fuel beside name kind v = some (some allocation) ∧
      (allocation.slot = .present returned ∨ ∃ slot, allocation.slot = .free slot returned) := by
  obtain ⟨allocation, ends, used⟩ := Option.map_eq_some_iff.mp created
  match allocation, used with
  | some ⟨outLba, .present tmp⟩, used =>
      obtain ⟨same, -⟩ := Prod.mk.inj used
      exact ⟨_, ends, .inl (congrArg Slot.present (Option.some.inj same))⟩
  | some ⟨outLba, .free slot tmp⟩, used =>
      obtain ⟨same, -⟩ := Prod.mk.inj used
      exact ⟨_, ends, .inr ⟨slot, congrArg (Slot.free slot) (Option.some.inj same)⟩⟩

theorem allocated_created {allocation : Allocation}
    (ends : findSlot drive fuel beside name kind v = some (some allocation)) :
    ∃ returned v', createCatalog drive fuel beside name flags kind v = some (some returned, v') := by
  unfold createCatalog
  rw [ends]
  match allocation with
  | ⟨_, .present tmp⟩ => exact ⟨tmp, _, rfl⟩
  | ⟨_, .free slot tmp⟩ => exact ⟨tmp, _, rfl⟩

/-- What was in the slot is not what was written there. -/
theorem created_differs (created : createCatalog drive fuel beside name flags kind v = some (some returned, v')) :
    ¬ ∃ outLba slot old, findSlot drive fuel beside name kind v = some (some ⟨outLba, .free slot old⟩) ∧
      SameSector returned
        (placeChild drive (drive.partition v) (childCatalog name.text flags kind outLba) slot) := by
  rintro ⟨outLba, slot, old, ends, same⟩
  obtain ⟨allocation, ends', shape⟩ := createCatalog_slot created
  obtain rfl := Option.some.inj (Option.some.inj (ends.symm.trans ends'))
  have blank := (findSlot_creates ends).2 slot old rfl
  rcases shape with present | ⟨slot', free⟩
  · cases present
  · obtain ⟨-, rfl⟩ := Slot.free.inj free
    exact blank (same.live_iff.mp child_live)

/-- What was in a free slot is found nowhere, since a lookup returns live catalogs. -/
theorem blank_not_found {outLba slot : Lba} {old : Image} {beside' : Beside} {found : Found}
    (ends : findSlot drive fuel beside name kind v = some (some ⟨outLba, .free slot old⟩))
    (search : getCatalog drive fuel beside' name v' = some (some found)) : ¬ SameSector old found.catalog :=
  fun same => (findSlot_creates ends).2 slot old rfl (same.live_iff.mp (findCatalog_finds search).isLive)

end Returns

/-- The catalog that is returned is never the one that was written. -/
theorem returns_created_iff (drive : NeDrive) (beside : Beside) (name : CString) (flags kind : BitVec 32)
    (v : NeVolume) : ReturnsCreated drive beside name flags kind v ↔ ¬ NeCreates drive beside name kind v := by
  constructor
  · intro returns creates
    obtain ⟨fuel, allocation, ends⟩ := creates.allocated
    obtain ⟨returned, v', created⟩ := @allocated_created _ _ _ _ flags _ _ _ ends
    exact created_differs created (returns fuel returned v' created).1
  · intro slotless fuel returned v' created
    obtain ⟨allocation, ends, -⟩ := createCatalog_slot created
    exact absurd (findSlot_creates ends).1 slotless

/-- The slot of the first file was all zeros. -/
theorem first_file_not_returned :
    ¬ ∀ drive beside name flags kind v, ReturnsCreated drive beside name flags kind v := by
  intro every
  obtain ⟨old, ends⟩ := prepared_slot
  obtain ⟨returned, v', created⟩ := @allocated_created _ _ _ _ 0 _ _ _ ends
  exact created_differs created (every _ _ _ _ _ _ _ _ _ created).1

end Ne.Kernel.FS
