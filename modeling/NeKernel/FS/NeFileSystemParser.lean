import NeKernel.FS.NeFS
import NeKernel.Lib.Loop

/-!
# The NeFS parser

A result of `none` is a loop that was still going when its fuel ran out. Pointers the parser returns
are options inside it.
-/

namespace Ne.Kernel.FS
open ByteMem Loops

/-- `is_valid_size`. -/
def isValidSize (size maxSize : SizeT) : Bool := 0 < size ∧ size ≤ maxSize

/-- `is_valid_lba`. Reading the partition block leaves `fPacketGood` as it is. -/
def isValidLba (drive : NeDrive) (lba : Lba) (v : NeVolume) : Bool :=
  v.fPacketGood ∧ NefsRootPartitionBlock.StartCatalog.get (drive.partition v) ≤ lba ∧
    lba < NefsRootPartitionBlock.DiskSize.get (drive.partition v) / drive.fSectorSz

/-! ## Lookup -/

/-- A catalog and the address it was read from, `out_lba`. -/
structure Found where
  lba : Lba
  catalog : Image

def live (catalog : Image) : Prop := NefsCatalogStruct.Flags.get catalog &&& kNeFSFlagCreated ≠ 0

instance (catalog : Image) : Decidable (live catalog) := inferInstanceAs (Decidable (_ ≠ _))

/-- What the scan does with a catalog whose name ends the path. -/
def matched (allowHidden : Bool) (cursor : Lba) (tmp : Image) : Option Found :=
  if NefsCatalogStruct.Status.get tmp = kNeFSStatusLocked ∧ allowHidden = false then none
  else if live tmp then some ⟨cursor, tmp⟩
  else none

def scanRound (drive : NeDrive) (v : NeVolume) (name : CString) (allowHidden : Bool) (cursor : Lba) :
    Turn Lba (Option Found) :=
  if NefsRootPartitionBlock.StartCatalog.get (drive.partition v) ≤ cursor ∧ v.fPacketGood then
    let tmp := drive.input cursor v
    if name.endsWith (nameOf tmp) then .done (matched allowHidden cursor tmp)
    else .again (NefsCatalogStruct.NextSibling.get tmp)
  else .done none

section Rounds
variable {drive : NeDrive} {v : NeVolume} {name : CString} {hidden : Bool} {cursor next : Lba} {found : Found}

theorem scanRound_again (turn : scanRound drive v name hidden cursor = .again next) :
    NefsRootPartitionBlock.StartCatalog.get (drive.partition v) ≤ cursor ∧
      next = NefsCatalogStruct.NextSibling.get (drive.input cursor v) := by
  rw [scanRound] at turn
  split at turn
  · rename_i inside
    dsimp only at turn
    split at turn
    · cases turn
    · cases turn
      exact ⟨inside.1, rfl⟩
  · cases turn

theorem scanRound_found (turn : scanRound drive v name hidden cursor = .done (some found)) :
    NefsRootPartitionBlock.StartCatalog.get (drive.partition v) ≤ cursor ∧
      found = ⟨cursor, drive.input cursor v⟩ ∧ live found.catalog := by
  rw [scanRound] at turn
  split at turn
  · rename_i inside
    dsimp only at turn
    split at turn
    · rw [matched] at turn
      split at turn
      · cases turn
      split at turn
      · cases turn
        exact ⟨inside.1, rfl, ‹_›⟩
      · cases turn
    · cases turn
  · cases turn

end Rounds

/-- The lambda `scan_from`. -/
def scanFrom (drive : NeDrive) (fuel : Nat) (v : NeVolume) (name : CString) (allowHidden : Bool)
    (start : Lba) : Option (Option Found) :=
  loop (scanRound drive v name allowHidden) fuel start

/-- `FindCatalog` without `local_search`. -/
def findAnywhere (drive : NeDrive) (fuel : Nat) (name : CString) (searchHidden : Bool) (v : NeVolume) :
    Option (Option Found) :=
  if name.text = [] then some none
  else scanFrom drive fuel v name searchHidden
    (NefsRootPartitionBlock.StartCatalog.get (drive.partition v))

/-- The part of `FindCatalog` that starts behind the parent. A path that leaves no room for its NUL is
not copied, and a longer one is written to outside the copy. -/
def findBelow (drive : NeDrive) (fuel : Nat) (beside : Beside) (name : CString) (searchHidden : Bool)
    (v : NeVolume) : Option (Option Found) :=
  if kNeFSCatalogNameLen < name.length then none
  else if name.length = kNeFSCatalogNameLen then some none
  else match name.parent beside.stack with
    | none => some none
    | some parentName => do
      let parentCatalog ← findAnywhere drive fuel parentName searchHidden v
      match parentCatalog with
      | none => findAnywhere drive fuel name searchHidden v
      | some parentCatalog =>
        let found ← scanFrom drive fuel v name searchHidden
          (NefsCatalogStruct.NextSibling.get parentCatalog.catalog)
        match found with
        | none => findAnywhere drive fuel name searchHidden v
        | some found => some (some found)

def findCatalog (drive : NeDrive) (fuel : Nat) (beside : Beside) (name : CString)
    (searchHidden localSearch : Bool) (v : NeVolume) : Option (Option Found) :=
  if name.text ≠ [] ∧ name.text ≠ kNeFSRoot ∧ localSearch then
    findBelow drive fuel beside name searchHidden v
  else findAnywhere drive fuel name searchHidden v

def getCatalog (drive : NeDrive) (fuel : Nat) (beside : Beside) (name : CString) (v : NeVolume) :
    Option (Option Found) := findCatalog drive fuel beside name true true v

section Fuel
variable {drive : NeDrive} {v : NeVolume} {beside : Beside} {name : CString} {hidden localSearch : Bool}

theorem findAnywhere_steady : Steady fun fuel => findAnywhere drive fuel name hidden v := by
  unfold findAnywhere
  split
  · exact steady_const _
  · exact loop_steady _ _

theorem findBelow_steady : Steady fun fuel => findBelow drive fuel beside name hidden v := by
  unfold findBelow
  split
  · exact steady_const _
  split
  · exact steady_const _
  split
  · exact steady_const _
  refine findAnywhere_steady.bind fun parentCatalog => ?_
  cases parentCatalog with
  | none => exact findAnywhere_steady
  | some parentCatalog =>
      refine (loop_steady _ _).bind fun found => ?_
      cases found with
      | none => exact findAnywhere_steady
      | some found => exact steady_const _

theorem findCatalog_steady :
    Steady fun fuel => findCatalog drive fuel beside name hidden localSearch v := by
  unfold findCatalog
  split
  · exact findBelow_steady
  · exact findAnywhere_steady

end Fuel

/-! ## Creation -/

/-- The part of the path the catalog keeps, from the separator before its last component. -/
def baseOf (text : List Byte) (kind : BitVec 32) : List Byte :=
  let last := if kind = kNeFSCatalogKindDir then text.drop (text.length - 1) else []
  let body := if kind = kNeFSCatalogKindDir then text.take (text.length - 1) else text
  kNeFSSeparator :: (body.reverse.takeWhile (· ≠ kNeFSSeparator)).reverse ++ last

def childCatalog (text : List Byte) (flags kind : BitVec 32) (outLba : Lba) : Image :=
  let child := NefsCatalogStruct.Checksum.set 0 zeroed
  let child := NefsCatalogStruct.ResourceForkSize.set 0 child
  let child := NefsCatalogStruct.DataForkSize.set 0 child
  let child := NefsCatalogStruct.CatalogFlags.set kNeFSStatusUnlocked child
  let child := NefsCatalogStruct.NextSibling.set outLba child
  let child := NefsCatalogStruct.PrevSibling.set outLba child
  let child := NefsCatalogStruct.Kind.set (kind.setWidth 64) child
  let child := NefsCatalogStruct.Flags.set
    (NefsCatalogStruct.Flags.get child ||| kNeFSFlagCreated) child
  let child := NefsCatalogStruct.CatalogFlags.set (flags.setWidth 64) child
  copyChars child NefsCatalogStruct.Name (baseOf text kind) kNeFSCatalogNameLen

inductive Slot
  | free (lba : Lba) (old : Image)
  | present (catalog : Image)

def slotRound (drive : NeDrive) (v : NeVolume) (part : Image) (text : List Byte) (startFree : Lba) :
    Turn Lba (Option Slot) :=
  if startFree < NefsRootPartitionBlock.StartCatalog.get part +
      NefsRootPartitionBlock.CatalogCount.get part * drive.catalogSectors then
    let tmp := drive.input startFree v
    if ¬ live tmp then .done (some (.free startFree tmp))
    else if nameOf tmp = text then .done (some (.present tmp))
    else .again (startFree + drive.catalogSectors)
  else .done none

/-- `NextSibling` and the forks of a catalog that goes to `startFree`. -/
def placeChild (drive : NeDrive) (part child : Image) (startFree : Lba) : Image :=
  let child := NefsCatalogStruct.NextSibling.set (startFree + drive.catalogSectors) child
  let child := NefsCatalogStruct.DataFork.set
    (NefsRootPartitionBlock.DiskSize.get part - startFree) child
  NefsCatalogStruct.ResourceFork.set (NefsCatalogStruct.DataFork.get child) child

/-- The counters of the partition block after a creation. -/
def countCreated (drive : NeDrive) (part : Image) : Image :=
  let part := NefsRootPartitionBlock.FreeSectors.set
    (NefsRootPartitionBlock.FreeSectors.get part - drive.catalogSectors) part
  let part := NefsRootPartitionBlock.CatalogCount.set
    (NefsRootPartitionBlock.CatalogCount.get part + 1) part
  NefsRootPartitionBlock.FreeCatalog.set (NefsRootPartitionBlock.FreeCatalog.get part - 1) part

def takeSlot (drive : NeDrive) (part child : Image) (startFree : Lba) (v : NeVolume) : NeVolume :=
  let v := drive.output startFree NefsCatalogStruct.size zeroed v
  let v := drive.output startFree NefsCatalogStruct.size (placeChild drive part child startFree) v
  drive.output kNeFSRootCatalogStartAddress NefsRootPartitionBlock.size
    (countCreated drive (drive.partition v)) v

/-- A directory's path ends in a separator, any other path does not. -/
def endFits (text : List Byte) (kind : BitVec 32) : Prop :=
  if kind = kNeFSCatalogKindDir then text.getLast? = some kNeFSSeparator
  else text.getLast? ≠ some kNeFSSeparator

instance (text : List Byte) (kind : BitVec 32) : Decidable (endFits text kind) := by
  unfold endFits
  infer_instance

/-- Where the search for a slot ends, and the address it starts from, `out_lba`. -/
structure Allocation where
  outLba : Lba
  slot : Slot

/-- The search for a slot, from the address the parent lies at. -/
def findSlotFrom (drive : NeDrive) (fuel : Nat) (text : List Byte) (outLba : Lba) (v : NeVolume) :
    Option (Option Allocation) :=
  let part := drive.partition v
  if drive.fPacketReadOnly ∨ NefsRootPartitionBlock.FreeCatalog.get part < 1 then some none
  else (loop (slotRound drive v part text) fuel outLba).map (·.map (Allocation.mk outLba))

/-- `CreateCatalog` up to its first write. -/
def findSlot (drive : NeDrive) (fuel : Nat) (beside : Beside) (name : CString) (kind : BitVec 32)
    (v : NeVolume) : Option (Option Allocation) :=
  if name.text = [] ∨ ¬ endFits name.text kind then some none else do
    let present ← findCatalog drive fuel beside name true false v
    if present.isSome ∨ name.length < 2 then some none
    else match name.parent beside.heap with
      | none => some none
      | some parentName => do
        let parentCatalog ← findCatalog drive fuel beside parentName true false v
        match parentCatalog with
        | none =>
          let first := NefsRootPartitionBlock.StartCatalog.get (drive.partition v)
          findSlotFrom drive fuel name.text first v
        | some parentCatalog =>
          if NefsCatalogStruct.Kind.get parentCatalog.catalog = kNeFSCatalogKindFile.setWidth 64 then
            some none
          else findSlotFrom drive fuel name.text parentCatalog.lba v

/-- The path is in order, nothing is found under it, and the search for a place started at the first catalog or
at that of a parent that is no file. -/
theorem findSlot_some {drive : NeDrive} {fuel : Nat} {beside : Beside} {name : CString} {kind : BitVec 32}
    {v : NeVolume} {allocation : Allocation}
    (ends : findSlot drive fuel beside name kind v = some (some allocation)) :
    (name.text ≠ [] ∧ endFits name.text kind) ∧ findCatalog drive fuel beside name true false v = some none ∧
    2 ≤ name.length ∧ ∃ above parent outLba, name.parent beside.heap = some above ∧
      findCatalog drive fuel beside above true false v = some parent ∧
      findSlotFrom drive fuel name.text outLba v = some (some allocation) ∧
      (parent = none ∧ outLba = NefsRootPartitionBlock.StartCatalog.get (drive.partition v) ∨
        ∃ found, parent = some found ∧
          NefsCatalogStruct.Kind.get found.catalog ≠ kNeFSCatalogKindFile.setWidth 64 ∧ outLba = found.lba) := by
  rw [findSlot] at ends
  split at ends
  · cases ends
  rename_i checks
  simp only [Option.bind_eq_bind, Option.bind_eq_some_iff] at ends
  obtain ⟨present, search, ends⟩ := ends
  split at ends
  · cases ends
  rename_i checks'
  obtain ⟨nonempty, fits⟩ := not_or.mp checks
  obtain ⟨absent, several⟩ := not_or.mp checks'
  obtain rfl : present = none := by simpa using absent
  refine ⟨⟨nonempty, not_not.mp fits⟩, search, Nat.le_of_not_lt several, ?_⟩
  cases split : name.parent beside.heap with
  | none => simp [split] at ends
  | some above =>
      simp only [split, Option.bind_eq_some_iff] at ends
      obtain ⟨parent, search', ends⟩ := ends
      cases parent with
      | none => exact ⟨above, none, _, rfl, search', ends, .inl ⟨rfl, rfl⟩⟩
      | some found =>
          dsimp only at ends
          split at ends
          · cases ends
          · rename_i folder
            exact ⟨above, some found, _, rfl, search', ends, .inr ⟨found, rfl, folder, rfl⟩⟩

theorem findSlotFrom_steady {drive : NeDrive} {v : NeVolume} (text : List Byte) (outLba : Lba) :
    Steady fun fuel => findSlotFrom drive fuel text outLba v := by
  unfold findSlotFrom
  dsimp only
  split
  · exact steady_const _
  · exact (loop_steady _ _).map _

theorem findSlot_steady {drive : NeDrive} {beside : Beside} {name : CString} {kind : BitVec 32}
    {v : NeVolume} : Steady fun fuel => findSlot drive fuel beside name kind v := by
  unfold findSlot
  split
  · exact steady_const _
  refine findCatalog_steady.bind fun present => ?_
  split
  · exact steady_const _
  split
  · exact steady_const _
  refine findCatalog_steady.bind fun parentCatalog => ?_
  cases parentCatalog with
  | none => exact findSlotFrom_steady _ _
  | some parentCatalog =>
      dsimp only
      split
      · exact steady_const _
      · exact findSlotFrom_steady _ _

/-- What `CreateCatalog` does with the slot. It hands out the structure that was read from there. -/
def useSlot (drive : NeDrive) (text : List Byte) (flags kind : BitVec 32) (v : NeVolume) :
    Option Allocation → Option Image × NeVolume
  | none => (none, v)
  | some ⟨_, .present tmp⟩ => (some tmp, v)
  | some ⟨outLba, .free startFree tmp⟩ =>
    (some tmp, takeSlot drive (drive.partition v) (childCatalog text flags kind outLba) startFree v)

def createCatalog (drive : NeDrive) (fuel : Nat) (beside : Beside) (name : CString)
    (flags kind : BitVec 32) (v : NeVolume) : Option (Option Image × NeVolume) :=
  (findSlot drive fuel beside name kind v).map (useSlot drive name.text flags kind v)

/-! ## Removal -/

def markDeleted (flags : Field) (s : Image) : Image :=
  let s := flags.set (flags.get s &&& ~~~ kNeFSFlagCreated) s
  flags.set (flags.get s ||| kNeFSFlagDeleted) s

def forkRound (drive : NeDrive) : Lba × NeVolume → Turn (Lba × NeVolume) NeVolume
  | (forkLba, v) =>
    if kNeFSCatalogStartAddress ≤ forkLba then
      let forkBuf := markDeleted NefsForkStruct.Flags (drive.input forkLba v)
      .again (NefsForkStruct.NextSibling.get forkBuf,
        drive.output forkLba NefsForkStruct.size forkBuf v)
    else .done v

/-- The counters of the partition block after a removal. -/
def countRemoved (part : Image) : Image :=
  let part := if 0 < NefsRootPartitionBlock.CatalogCount.get part
    then NefsRootPartitionBlock.CatalogCount.set
      (NefsRootPartitionBlock.CatalogCount.get part - 1) part
    else part
  NefsRootPartitionBlock.FreeSectors.set (NefsRootPartitionBlock.FreeSectors.get part + 1) part

def markRemoved (drive : NeDrive) (found : Found) (v : NeVolume) : NeVolume :=
  let v := drive.output found.lba NefsCatalogStruct.size
    (markDeleted NefsCatalogStruct.Flags found.catalog) v
  drive.output kNeFSRootCatalogStartAddress NefsRootPartitionBlock.size
    (countRemoved (drive.partition v)) v

def removeCatalog (drive : NeDrive) (fuel : Nat) (beside : Beside) (name : CString) (v : NeVolume) :
    Option (Bool × NeVolume) :=
  if name.text = kNeFSRoot then some (false, v) else do
    let catalog ← findCatalog drive fuel beside name true true v
    match catalog with
    | none => some (false, v)
    | some found => do
      let v ← loop (forkRound drive) fuel (NefsCatalogStruct.DataFork.get found.catalog, v)
      let v ← loop (forkRound drive) fuel (NefsCatalogStruct.ResourceFork.get found.catalog, v)
      if kNeFSCatalogStartAddress ≤ found.lba ∨ live found.catalog then
        some (true, markRemoved drive found v)
      else some (false, v)

/-! ## Forks -/

def forkNameOf (fork : Image) : List Byte := charsOf fork NefsForkStruct.ForkName

def catalogNameOf (fork : Image) : List Byte := charsOf fork NefsForkStruct.CatalogName

/-- The pointer to the path inside a fork structure that has the bytes `before` in front of it. -/
def forkPath (fork : Image) (before : Nat → Byte) : CString where
  behind := fun i =>
    if i < NefsForkStruct.CatalogName.toNat then fork (NefsForkStruct.CatalogName - 1 - BitVec.ofNat 64 i)
    else before (i - NefsForkStruct.CatalogName.toNat)
  text := catalogNameOf fork
  ended := fun _ => charsOf_ended

def forkCreated (fork : Image) : Prop := NefsForkStruct.Flags.get fork &&& kNeFSFlagCreated ≠ 0

instance (fork : Image) : Decidable (forkCreated fork) := inferInstanceAs (Decidable (_ ≠ _))

/-- Where `CreateFork` is in the chain: `lba`, `lba_prev` and `prev_fork`. -/
structure ForkCursor where
  lba : Lba
  lbaPrev : Lba
  prevFork : Image

/-- A slot of the chain, and whether there is no fork of that name in it. -/
structure ForkSlot where
  cursor : ForkCursor
  new : Bool

def forkSlotRound (drive : NeDrive) (v : NeVolume) (theFork : Image) (here : ForkCursor) :
    Turn ForkCursor (Option ForkSlot) :=
  let curFork := drive.input here.lba v
  if v.fPacketGood = false then .done none
  else if forkCreated curFork then
    if forkNameOf curFork = forkNameOf theFork ∧ catalogNameOf curFork = catalogNameOf theFork then
      .done (some ⟨here, false⟩)
    else .again ⟨NefsForkStruct.NextSibling.get curFork, here.lba, curFork⟩
  else .done (some ⟨here, true⟩)

/-- What `CreateFork` asks of the structure. -/
def forkFits (theFork : Image) : Prop :=
  forkNameOf theFork ≠ [] ∧ catalogNameOf theFork ≠ [] ∧ NefsForkStruct.DataSize.get theFork ≠ 0

instance (theFork : Image) : Decidable (forkFits theFork) := inferInstanceAs (Decidable (_ ∧ _ ∧ _))

/-- `CreateFork` up to its first write. -/
def findForkSlot (drive : NeDrive) (fuel : Nat) (beside : Beside) (theFork : Image) (before : Nat → Byte)
    (v : NeVolume) : Option (Option ForkSlot) :=
  if ¬ forkFits theFork then some none else do
    let catalog ← getCatalog drive fuel beside (forkPath theFork before) v
    match catalog with
    | none => some none
    | some found =>
      let lba := NefsCatalogStruct.DataFork.get found.catalog
      let start : ForkCursor := ⟨lba, lba, NefsForkStruct.ForkOrCatalog.set 1 zeroed⟩
      if lba < kNeFSCatalogStartAddress then some none
      else loop (forkSlotRound drive v theFork) fuel start

theorem findForkSlot_steady {drive : NeDrive} {beside : Beside} {theFork : Image} {before : Nat → Byte}
    {v : NeVolume} : Steady fun fuel => findForkSlot drive fuel beside theFork before v := by
  unfold findForkSlot
  split
  · exact steady_const _
  refine findCatalog_steady.bind fun catalog => ?_
  cases catalog with
  | none => exact steady_const _
  | some found =>
      dsimp only
      split
      · exact steady_const _
      · exact loop_steady _ _

/-- The sectors the data of a fork takes. -/
def forkSectors (theFork : Image) : SizeT :=
  (NefsForkStruct.DataSize.get theFork + BitVec.ofNat 64 kNeFSSectorSz - 1) / BitVec.ofNat 64 kNeFSSectorSz

def placeFork (theFork : Image) (slot : ForkCursor) : Image :=
  let fork := NefsForkStruct.DataOffset.set (slot.lba + 1) theFork
  let fork := NefsForkStruct.PreviousSibling.set slot.lbaPrev fork
  let fork := NefsForkStruct.NextSibling.set (slot.lba + 1 + forkSectors theFork) fork
  NefsForkStruct.Flags.set (NefsForkStruct.Flags.get fork ||| kNeFSFlagCreated) fork

/-- A new fork is linked from the one before it, or from itself if it is the first. -/
def linkFork (drive : NeDrive) (slot : ForkSlot) (v : NeVolume) : NeVolume :=
  if slot.new ∧ kNeFSCatalogStartAddress ≤ slot.cursor.lba then
    drive.output slot.cursor.lbaPrev NefsForkStruct.size
      (NefsForkStruct.NextSibling.set slot.cursor.lba slot.cursor.prevFork) v
  else v

/-- What `CreateFork` does with the slot. The structure comes back as the parser leaves it. -/
def useForkSlot (drive : NeDrive) (theFork : Image) (v : NeVolume) :
    Option ForkSlot → Bool × Image × NeVolume
  | none => (false, theFork, v)
  | some slot =>
    let fork := placeFork theFork slot.cursor
    let v := drive.output slot.cursor.lba NefsForkStruct.size fork (linkFork drive slot v)
    (true, fork, drive.fsIfsWrite slot.cursor.lba NefsForkStruct.size fork v)

def createFork (drive : NeDrive) (fuel : Nat) (beside : Beside) (theFork : Image) (before : Nat → Byte)
    (v : NeVolume) : Option (Bool × Image × NeVolume) :=
  (findForkSlot drive fuel beside theFork before v).map (useForkSlot drive theFork v)

def forkRoundWrite (drive : NeDrive) (v : NeVolume) (part : Image) (catalogName forkName : List Byte)
    (size : SizeT) (startFork : Lba) : Turn Lba (Option Lba) :=
  if NefsRootPartitionBlock.StartCatalog.get part ≤ startFork ∧ v.fPacketGood then
    let fork := drive.input startFork v
    if forkCreated fork ∧ forkNameOf fork = forkName ∧ catalogNameOf fork = catalogName ∧
        NefsForkStruct.DataSize.get fork = size then
      .done (some (NefsForkStruct.DataOffset.get fork))
    else .again (NefsForkStruct.NextSibling.get fork)
  else .done none

/-- The transfers of a buffer, a sector each. -/
def writeChunks (drive : NeDrive) (baseLba : Lba) (size : Nat) (buf : Image) (v : NeVolume) : NeVolume :=
  (List.range ((size + kNeFSSectorSz - 1) / kNeFSSectorSz)).foldl (fun v i =>
    drive.output (baseLba + BitVec.ofNat 64 i) (min (size - kNeFSSectorSz * i) kNeFSSectorSz)
      (fun x => buf (x + BitVec.ofNat 64 (kNeFSSectorSz * i))) v) v

def writeCatalog (drive : NeDrive) (fuel : Nat) (beside : Beside) (catalogName : CString)
    (isRsrcFork : Bool) (data : Image) (sizeOfData : SizeT) (forkName : List Byte) (v : NeVolume) :
    Option (Bool × NeVolume) :=
  if sizeOfData < 1 then some (false, v) else do
    let catalog ← getCatalog drive fuel beside catalogName v
    match catalog with
    | none => some (false, v)
    | some found =>
      let maxSize := if isRsrcFork then NefsCatalogStruct.ResourceForkSize.get found.catalog
        else NefsCatalogStruct.DataForkSize.get found.catalog
      let startFork := if isRsrcFork then NefsCatalogStruct.ResourceFork.get found.catalog
        else NefsCatalogStruct.DataFork.get found.catalog
      if isValidSize sizeOfData maxSize = false then some (false, v)
      else if isValidLba drive startFork v = false then some (false, v)
      else do
        let base ← loop (forkRoundWrite drive v (drive.partition v) catalogName.text forkName sizeOfData)
          fuel startFork
        match base with
        | none => some (false, v)
        | some base => some (true, writeChunks drive base sizeOfData.toNat data v)

def forkRoundRead (drive : NeDrive) (v : NeVolume) (catalogName forkName : List Byte) (lba : Lba) :
    Turn Lba (Option Image) :=
  if kNeFSCatalogStartAddress ≤ lba then
    let fork := drive.input lba v
    if forkName = forkNameOf fork ∧ catalogName = catalogNameOf fork then .done (some fork)
    else .again (NefsForkStruct.NextSibling.get fork)
  else .done none

/-- `ReadCatalog`, which hands out the fork structure it found. -/
def readCatalog (drive : NeDrive) (fuel : Nat) (catalog : Option Image) (isRsrcFork : Bool)
    (dataSz : SizeT) (forkName : List Byte) (v : NeVolume) : Option (Option Image) :=
  match catalog with
  | none => some none
  | some catalog =>
    let maxSize := if isRsrcFork then NefsCatalogStruct.ResourceForkSize.get catalog
      else NefsCatalogStruct.DataForkSize.get catalog
    let dataForkLba := if isRsrcFork then NefsCatalogStruct.ResourceFork.get catalog
      else NefsCatalogStruct.DataFork.get catalog
    if isValidSize dataSz maxSize = false then some none
    else if isValidLba drive dataForkLba v = false then some none
    else loop (forkRoundRead drive v (nameOf catalog) forkName) fuel dataForkLba

/-! ## Format -/

/-- The eight bytes at the identifier's literal. -/
def identBytes (drive : NeDrive) : List Byte := kNeFSIdent ++ [drive.identNext]

/-- The partition block `Format` writes over what it read. -/
def formatPartition (drive : NeDrive) (partName : List Byte) (part : Image) : Image :=
  let totalBytes := drive.sectorCount * drive.fSectorSz
  let catalogEntries := totalBytes / BitVec.ofNat 64 NefsCatalogStruct.size
  let part := write part NefsRootPartitionBlock.Ident (identBytes drive)
  let part := copyChars part NefsRootPartitionBlock.PartitionName partName kNeFSPartLen
  let part := NefsRootPartitionBlock.Version.set kNeFSVersionInteger part
  let part := NefsRootPartitionBlock.Kind.set kNeFSPartitionTypeStandard part
  let part := NefsRootPartitionBlock.StartCatalog.set (drive.fLbaStart + drive.catalogSectors) part
  let part := NefsRootPartitionBlock.Flags.set 0 part
  let part := NefsRootPartitionBlock.CatalogCount.set catalogEntries part
  let part := NefsRootPartitionBlock.FreeCatalog.set (catalogEntries - 1) part
  let part := NefsRootPartitionBlock.SectorCount.set drive.sectorCount part
  let part := NefsRootPartitionBlock.DiskSize.set totalBytes part
  let part := NefsRootPartitionBlock.SectorSize.set drive.fSectorSz part
  NefsRootPartitionBlock.FreeSectors.set (drive.sectorCount - drive.catalogSectors) part

def formatted (drive : NeDrive) (v : NeVolume) : Prop :=
  read (drive.input drive.fLbaStart v) NefsRootPartitionBlock.Ident 8 = identBytes drive

instance (drive : NeDrive) (v : NeVolume) : Decidable (formatted drive v) :=
  inferInstanceAs (Decidable (_ = _))

def format (drive : NeDrive) (partName : List Byte) (v : NeVolume) : Bool × NeVolume :=
  if partName = [] then (false, v)
  else if v.fPacketGood = false then (false, v)
  else if formatted drive v then (true, v)
  else (true, drive.output drive.fLbaStart NefsRootPartitionBlock.size
    (formatPartition drive partName (drive.input drive.fLbaStart v)) v)

end Ne.Kernel.FS
