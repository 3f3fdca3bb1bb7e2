import NeKernel.FS.NamespaceFrame

/-!
# Runs that keep the names in order

A call is tidy when what it takes has room in its region and its balance writes loose bytes only. Then it
changes the names by one node or one slice.
-/

namespace Ne.Kernel.FS
open ByteMem Strides ScanTable Runs
open HefsBootNode hiding size fChecksum
open HefsIndexNodeDirectory hiding size fChecksum

/-- What the call takes has room in its region. Index nodes begin behind the hash of the last directory node. -/
def StoresTidy (mnt : DriveTrait) (σ : Mount) : FsCall → Prop
  | .directory _ dir deleteOrCreate => ∀ start,
      (indScan (bootAt mnt σ.disk)).find? (fun start =>
        indMatches dir deleteOrCreate (directoryAt σ.disk start)) = some start →
      start.toNat + 512 ≤ (indEnd mnt).toNat
  | .inode _ dir name deleteOrCreate _ => ∀ start i,
      (indScan (bootAt mnt σ.disk)).findSome?
        (sliceIn σ.disk (hefsiHash64 dir) (hefsiHash64 name) deleteOrCreate) = some (start, i) →
      start.toNat + 512 ≤ (indEnd mnt).toNat ∧ (∀ s ∈ slotsOf mnt, s.toNat + 8 ≤ (indEnd mnt).toNat) ∧
        (deleteOrCreate = false → (fStartIN.get (bootAt mnt σ.disk)).toNat + 512 ≤ (inEnd mnt).toNat)

/-- The directory a call names. -/
def FsCall.dir : FsCall → Path
  | .directory _ dir _ => dir
  | .inode _ dir _ _ _ => dir

def Tidy (mnt : DriveTrait) (call : FsCall) (σ : Mount) : Prop :=
  hefsiHash64 call.dir ≠ 0 ∧ StoresTidy mnt σ call ∧ ∀ boot' τ, call.update mnt σ = some (boot', τ) →
    BalanceAll mnt boot' (Spares mnt boot') (indScan boot') τ

/-- A volume on which lookups work. -/
structure Ordered (mnt : DriveTrait) (σ : Mount) : Prop where
  sane : BootSane mnt (bootAt mnt σ.disk)
  good : σ.fPacketGood = true
  room : fStartIN.get (bootAt mnt σ.disk) ≤ inEnd mnt
  cursor : OnCursor mnt (fStartIN.get (bootAt mnt σ.disk))
  names : InOrder mnt σ.disk (fStartIN.get (bootAt mnt σ.disk))

/-- What a call that was carried out did to the names. -/
inductive Effect (mnt : DriveTrait) (σ : Mount) (disk' : Memory) : FsCall → Prop
  | directory {flags dir deleteOrCreate s}
      (found : (indScan (bootAt mnt σ.disk)).find? (fun start =>
        indMatches dir deleteOrCreate (directoryAt σ.disk start)) = some s)
      (inside : InRegion mnt s)
      (changed : SlotChanged mnt σ.disk disk' s (if deleteOrCreate then 0 else hefsiHash64 dir))
      (cursor : fStartIN.get (bootAt mnt disk') = fStartIN.get (bootAt mnt σ.disk)) :
      Effect mnt σ disk' (.directory flags dir deleteOrCreate)
  | created {flags dir name kind s i}
      (found : (indScan (bootAt mnt σ.disk)).findSome?
        (sliceIn σ.disk (hefsiHash64 dir) (hefsiHash64 name) false) = some (s, i))
      (inside : InRegion mnt s)
      (changed : CellChanged mnt σ.disk disk' s i (fStartIN.get (bootAt mnt σ.disk))
        (fStartIN.get (bootAt mnt σ.disk)) (hefsiHash64 name, kind.setWidth 64))
      (cursor : (fStartIN.get (bootAt mnt disk')).toNat = (fStartIN.get (bootAt mnt σ.disk)).toNat + 512)
      (room : (fStartIN.get (bootAt mnt disk')).toNat ≤ (inEnd mnt).toNat) :
      Effect mnt σ disk' (.inode flags dir name false kind)
  | deleted {flags dir name kind s i}
      (found : (indScan (bootAt mnt σ.disk)).findSome?
        (sliceIn σ.disk (hefsiHash64 dir) (hefsiHash64 name) true) = some (s, i))
      (inside : InRegion mnt s)
      (changed : CellChanged mnt σ.disk disk' s i 0 (sliceOf σ.disk s i) (hefsiHash64 name, kind.setWidth 64))
      (cursor : fStartIN.get (bootAt mnt disk') = fStartIN.get (bootAt mnt σ.disk)) :
      Effect mnt σ disk' (.inode flags dir name true kind)

section Calls
variable {mnt : DriveTrait} {boot boot' : Image} {σ σ' τ : Mount} {call : FsCall} {s : Lba}
  {i : Fin kOpenHeFSSliceCount} {dirName fileName : BitVec 64} {deleteOrCreate r : Bool} {disk disk' : Memory}

theorem scanned_inRegion (sane : BootSane mnt boot) (visited : s ∈ indScan boot)
    (room : s.toNat + 512 ≤ (indEnd mnt).toNat) : InRegion mnt s := by
  have last := indEnd_toNat mnt
  refine ⟨?_, room⟩
  have bounds := last
  rw [← sane.startIND, ← sane.endIND] at bounds
  have fits : (fEndIND.get boot).toNat + kNodeSize.toNat < 2 ^ 64 := by
    simp [kNodeSize]
    omega
  obtain ⟨j, position⟩ := scan_aligned (indScan_stays boot) fits bounds.1 visited
  rw [sane.startIND] at position
  exact ⟨j, by rw [position, Nat.mul_comm]; rfl⟩

theorem slice_found {scan : List Lba}
    (found : scan.findSome? (sliceIn disk dirName fileName deleteOrCreate) = some (s, i)) :
    s ∈ scan ∧ dirHash disk s = dirName ∧ sliceMatches disk fileName deleteOrCreate (sliceOf disk s i) = true := by
  refine ⟨search_visited found, ?_⟩
  obtain ⟨visited, -, here⟩ := List.exists_of_findSome?_eq_some found
  obtain rfl := sliceIn_start here
  unfold sliceIn at here
  dsimp only at here
  split at here
  · rename_i named
    obtain ⟨j, matching, pair⟩ := Option.map_eq_some_iff.mp here
    obtain ⟨-, rfl⟩ := Prod.ext_iff.mp pair
    have matched := List.find?_some matching
    exact ⟨named.symm, matched⟩
  · cases here

theorem Effect.core (effect : Effect mnt σ disk call) (same : SameCore mnt disk disk') : Effect mnt σ disk' call := by
  have boot := bootAt_core same
  cases effect with
  | directory found inside changed cursor =>
      exact .directory found inside (changed.core same inside) (by rwa [boot])
  | created found inside changed cursor room =>
      exact .created found inside (changed.core same) (by rwa [boot]) (by rwa [boot])
  | deleted found inside changed cursor =>
      exact .deleted found inside (changed.core same) (by rwa [boot])

/-! ## One step -/

theorem stored_startIN (stored : bootAt mnt disk = window (sealBoot boot) 0 HefsBootNode.size) :
    fStartIN.get (bootAt mnt disk) = fStartIN.get boot := by
  rw [stored, get_trim (by decide), sealBoot, Field.get_set_other (by decide)]

theorem deleted_slice (ordered : Ordered mnt σ) (named : dirName ≠ 0)
    (found : (indScan (bootAt mnt σ.disk)).findSome? (sliceIn σ.disk dirName fileName true) = some (s, i))
    (inside : InRegion mnt s) : OnCursor mnt (sliceOf σ.disk s i) := by
  obtain ⟨-, hash, matching⟩ := slice_found found
  rw [sliceMatches, if_pos rfl, decide_eq_true_iff] at matching
  exact (ordered.names.cells s inside.mem (hash ▸ named) i matching.1).1

section Steps
variable (writable : mnt.fPacketReadOnly = false) (low : 512 ≤ mnt.fLbaStart.toNat)
include writable low

theorem update_effect (ordered : Ordered mnt σ) (named : hefsiHash64 call.dir ≠ 0) (stores : StoresTidy mnt σ call)
    (updated : call.update mnt σ = some (boot', τ)) :
    BootSane mnt boot' ∧ τ.fPacketGood = true ∧ bootAt mnt τ.disk = window boot' 0 HefsBootNode.size ∧
      Effect mnt σ τ.disk call := by
  have nonzero := boot_nonzero low
  have same : (mnt.completed σ).disk = σ.disk := completed_disk
  have deletes : DeletesIn (OffBoot mnt) mnt σ call := by
    cases call with
    | directory flags dir deleteOrCreate => trivial
    | inode flags dir name deleteOrCreate kind =>
        cases deleteOrCreate with
        | false => trivial
        | true =>
            intro start i search
            have inside := scanned_inRegion ordered.sane (search_visited search) (stores start i search).1
            exact record_off_boot low (.inr (deleted_slice ordered named search inside))
  obtain ⟨rfl, sane, stored⟩ := update_boot writable nonzero ordered.sane deletes updated
  have cursor := stored_startIN stored
  refine ⟨sane, ?_⟩
  cases call with
  | directory flags dir deleteOrCreate =>
      obtain ⟨start, search, pair⟩ := Option.map_eq_some_iff.mp updated
      obtain ⟨-, rfl⟩ := Prod.ext_iff.mp pair
      have inside := scanned_inRegion ordered.sane (List.mem_of_find?_eq_some search) (stores start search)
      refine ⟨(storeDirectory_changed writable low inside).2.trans (completed_good.trans ordered.good), stored,
        .directory search inside ?_ (cursor.trans (Field.get_set_other (by decide)))⟩
      rw [← same]
      exact (storeDirectory_changed writable low inside).1
  | inode flags dir name deleteOrCreate kind =>
      obtain ⟨bounds, start, i, search, pair⟩ := update_inode updated
      obtain ⟨room, hashes, cursorRoom⟩ := stores start i search
      have inside := scanned_inRegion ordered.sane (search_visited search) room
      cases deleteOrCreate with
      | false =>
          obtain ⟨-, rfl⟩ := Prod.ext_iff.mp pair
          have next := advanced_inodes ordered.sane bounds.2.1
          have onCursor := ordered.cursor
          refine ⟨(linkINode_changed writable low inside hashes onCursor).2.trans (completed_good.trans ordered.good),
            stored, .created search inside ?_ ?_ ?_⟩
          · rw [← same] at onCursor ⊢
            exact (linkINode_changed writable low inside hashes onCursor).1
          · rw [cursor]
            exact next
          · rw [cursor]
            exact next.trans_le (cursorRoom rfl)
      | true =>
          rw [if_pos rfl] at pair
          obtain ⟨-, rfl⟩ := Prod.ext_iff.mp pair
          have slice := deleted_slice ordered named search inside
          rw [← same] at slice
          refine ⟨(unlinkINode_changed writable low inside hashes slice).2.trans (completed_good.trans ordered.good),
            stored, .deleted search inside ?_ cursor⟩
          rw [← same]
          exact (unlinkINode_changed writable low inside hashes slice).1

end Steps

theorem OnCursor.next {a b : Lba} (here : OnCursor mnt a) (step : b.toNat = a.toNat + 512)
    (room : b.toNat ≤ (inEnd mnt).toNat) : OnCursor mnt b := by
  obtain ⟨⟨j, position⟩, -⟩ := here
  refine ⟨⟨j + 1, ?_⟩, room.trans_lt ((inEnd_toNat mnt).2.trans (by decide))⟩
  rw [step, position, Nat.mul_succ, Nat.add_assoc]

theorem Ordered.effect (ordered : Ordered mnt σ) (named : hefsiHash64 call.dir ≠ 0)
    (sane : BootSane mnt (bootAt mnt σ'.disk)) (good : σ'.fPacketGood = true) (effect : Effect mnt σ σ'.disk call) :
    Ordered mnt σ' := by
  have room := BitVec.le_def.mp ordered.room
  cases effect with
  | directory found inside changed cursor =>
      refine ⟨sane, good, ?_, ?_, ?_⟩ <;> rw [cursor]
      · exact ordered.room
      · exact ordered.cursor
      · exact ordered.names.slotChanged inside changed
  | created found inside changed cursor fits =>
      refine ⟨sane, good, BitVec.le_def.mpr fits, ordered.cursor.next cursor fits, ?_⟩
      exact ordered.names.cellChanged changed (cursor ▸ Nat.le_add_right _ _)
        fun _ => ⟨ordered.cursor, le_rfl, cursor.ge⟩
  | deleted found inside changed cursor =>
      refine ⟨sane, good, ?_, ?_, ?_⟩ <;> rw [cursor]
      · exact ordered.room
      · exact ordered.cursor
      · exact ordered.names.cellChanged changed le_rfl fun filled => absurd rfl filled

theorem run_status (valid : bootValid (bootAt mnt σ.disk) = true) (taken : call.run mnt σ = some (true, σ'))
    (balanced : ∀ boot' τ, call.update mnt σ = some (boot', τ) →
      (hefsiBalanceInd mnt boot' τ).2.errGlobal = kErrorSuccess) : σ'.errGlobal = kErrorSuccess := by
  cases call with
  | directory flags dir deleteOrCreate =>
      rcases iNodeDirectoryCtlManip_cases valid taken with ⟨wrong, -⟩ | ⟨-, boot', τ, updated, rfl⟩
      · cases wrong
      · exact balanced boot' τ updated
  | inode flags dir name deleteOrCreate kind =>
      rcases iNodeCtlManip_cases valid (Option.some.inj taken) with ⟨wrong, -⟩ | ⟨-, boot', τ, updated, rfl⟩
      · cases wrong
      · rfl

theorem step_effect (writable : mnt.fPacketReadOnly = false) (low : 512 ≤ mnt.fLbaStart.toNat)
    (ordered : Ordered mnt σ) (tidy : Tidy mnt call σ) (taken : call.run mnt σ = some (r, σ')) :
    (r = false ∧ Unmoved σ σ') ∨ (r = true ∧ Effect mnt σ σ'.disk call ∧ BootSane mnt (bootAt mnt σ'.disk) ∧
      σ'.fPacketGood = true ∧ σ'.errGlobal = kErrorSuccess) := by
  obtain ⟨named, stores, rounds⟩ := tidy
  have balanced {boot' : Image} {τ : Mount} (updated : call.update mnt σ = some (boot', τ)) :
      Keeps mnt τ.disk (hefsiBalanceInd mnt boot' τ).2 ∧ (hefsiBalanceInd mnt boot' τ).2.errGlobal = kErrorSuccess := by
    obtain ⟨sane, good, -⟩ := update_effect writable low ordered named stores updated
    exact hefsiBalanceInd_keeps writable sane good (rounds boot' τ updated)
  rcases run_cases ordered.sane.valid taken with failed | ⟨rfl, boot', τ, updated, disk, -, good⟩
  · exact .inl failed
  · obtain ⟨sane, -, stored, effect⟩ := update_effect writable low ordered named stores updated
    obtain ⟨⟨same, packet⟩, -⟩ := balanced updated
    rw [← disk] at same
    refine .inr ⟨rfl, effect.core same, ?_, good.trans packet, ?_⟩
    · rw [bootAt_core same, stored]
      exact sane.trim
    · exact run_status ordered.sane.valid taken fun boot' τ updated => (balanced updated).2

theorem Unmoved.ordered (unmoved : Unmoved σ σ') (ordered : Ordered mnt σ) : Ordered mnt σ' := by
  obtain ⟨disk, -, good, -⟩ := unmoved
  obtain ⟨sane, packet, room, cursor, names⟩ := ordered
  rw [← disk] at sane room cursor names
  exact ⟨sane, good.trans packet, room, cursor, names⟩

/-- No status that lookups give up on. -/
def Readable (σ : Mount) : Prop := σ.errGlobal ≠ kErrorDiskIsCorrupted

theorem success_status : kErrorSuccess ≠ kErrorDiskIsCorrupted := by decide

theorem step_ordered (writable : mnt.fPacketReadOnly = false) (low : 512 ≤ mnt.fLbaStart.toNat)
    (ordered : Ordered mnt σ) (tidy : Tidy mnt call σ) (taken : call.run mnt σ = some (r, σ')) :
    Ordered mnt σ' ∧ Readable σ' := by
  rcases step_effect writable low ordered tidy taken with ⟨-, unmoved⟩ | ⟨-, effect, sane, good, status⟩
  · exact ⟨unmoved.ordered ordered, unmoved.2.2.2⟩
  · refine ⟨ordered.effect tidy.1 sane good effect, ?_⟩
    rw [Readable, status]
    exact success_status

theorem Ordered.status (ordered : Ordered mnt σ) (status : Int) : Ordered mnt { σ with errGlobal := status } :=
  ⟨ordered.sane, ordered.good, ordered.room, ordered.cursor, ordered.names⟩

end Calls

theorem run_ordered {mnt : DriveTrait} (writable : mnt.fPacketReadOnly = false) (low : 512 ≤ mnt.fLbaStart.toNat)
    {calls : List FsCall} {σ σ' : Mount} (run : Run (Guarded (Tidy mnt) (FsStep mnt)) σ calls σ')
    (ordered : Ordered mnt σ) : Ordered mnt σ' ∧ (Readable σ → Readable σ') := by
  induction run with
  | nil => exact ⟨ordered, id⟩
  | cons head _ ih =>
      obtain ⟨tidy, r, taken⟩ := head
      obtain ⟨next, readable⟩ := step_ordered writable low ordered tidy taken
      obtain ⟨last, kept⟩ := ih next
      exact ⟨last, fun _ => kept readable⟩

/-! ## What the calls leave alone -/

/-- The call names another directory, or for index nodes another directory or name. -/
def FsCall.Elsewhere (file : HefsFile) : FsCall → Prop
  | .directory _ dir _ => hefsiHash64 file.dir ≠ hefsiHash64 dir
  | .inode _ dir name _ _ => hefsiHash64 file.dir ≠ hefsiHash64 dir ∨ hefsiHash64 file.name ≠ hefsiHash64 name

instance (file : HefsFile) : (call : FsCall) → Decidable (call.Elsewhere file)
  | .directory .. => inferInstanceAs (Decidable (_ ≠ _))
  | .inode .. => inferInstanceAs (Decidable (_ ∨ _))

/-- Behind the node that a call for a directory takes, the nodes of other directories have no files. -/
def Bare (mnt : DriveTrait) (σ : Mount) : FsCall → Prop
  | .directory _ dir deleteOrCreate => ∀ start,
      (indScan (bootAt mnt σ.disk)).find? (fun start =>
        indMatches dir deleteOrCreate (directoryAt σ.disk start)) = some start →
      ∀ s, Behind (slotsOf mnt) (namesOn σ.disk) start s → dirHash σ.disk s ≠ hefsiHash64 dir →
        ∀ i, sliceOf σ.disk s i = 0
  | .inode .. => True

section Frames
variable {mnt : DriveTrait} {σ σ' : Mount} {call : FsCall} {file : HefsFile} {disk' : Memory} {s : Lba}
  {dir : Path} {deleteOrCreate r : Bool}

theorem taken_hash (ordered : Ordered mnt σ) (inside : InRegion mnt s)
    (found : (indScan (bootAt mnt σ.disk)).find? (fun start =>
      indMatches dir deleteOrCreate (directoryAt σ.disk start)) = some s) :
    dirHash σ.disk s = if deleteOrCreate then hefsiHash64 dir else 0 := by
  have matching := List.find?_some found
  cases deleteOrCreate with
  | true =>
      rw [indMatches, if_pos rfl, decide_eq_true_iff] at matching
      exact matching.2.2.symm
  | false =>
      rw [indMatches, if_neg Bool.false_ne_true, decide_eq_true_iff] at matching
      by_contra used
      rcases matching with ⟨uncreated, deleted⟩ | free
      · rcases (ordered.names.slots s inside.mem used).2 with created | undeleted
        · exact created uncreated
        · exact deleted undeleted
      · exact used free

theorem Ordered.cursor_alone (ordered : Ordered mnt σ) (member : s ∈ slotsOf mnt) (used : dirHash σ.disk s ≠ 0)
    (i : Fin kOpenHeFSSliceCount) : sliceOf σ.disk s i ≠ fStartIN.get (bootAt mnt σ.disk) := by
  intro same
  by_cases zero : sliceOf σ.disk s i = 0
  · exact ordered.cursor.ne_zero (same.symm.trans zero)
  · have behind := (ordered.names.cells s member used i zero).2
    rw [same] at behind
    omega

theorem Ordered.slice_alone {u : Lba} {i j : Fin kOpenHeFSSliceCount} (ordered : Ordered mnt σ)
    (member : s ∈ slotsOf mnt) (used : dirHash σ.disk s ≠ 0) (filled : sliceOf σ.disk s i ≠ 0)
    (member' : u ∈ slotsOf mnt) (used' : dirHash σ.disk u ≠ 0) (other : ¬ (u = s ∧ j = i)) :
    sliceOf σ.disk u j ≠ sliceOf σ.disk s i := by
  intro same
  obtain ⟨rfl, rfl⟩ := ordered.names.distinct s member used u member' used' i j filled same.symm
  exact other ⟨rfl, rfl⟩

theorem Effect.frame (ordered : Ordered mnt σ) (named : hefsiHash64 call.dir ≠ 0)
    (effect : Effect mnt σ disk' call) (bare : Bare mnt σ call) (elsewhere : call.Elsewhere file)
    (dirNamed : hefsiHash64 file.dir ≠ 0) (sector : inodeKey σ.disk 0 ≠ file.key) :
    Has (slotsOf mnt) (namesOn disk') (hefsiHash64 file.dir) file.key ↔
      Has (slotsOf mnt) (namesOn σ.disk) (hefsiHash64 file.dir) file.key := by
  cases effect with
  | @directory flags dir deleteOrCreate s found inside changed cursor =>
      have hash := taken_hash ordered inside found
      refine has_slotChanged ordered.names changed ?_ ?_ fun u behind i entry => ?_
      · rw [hash]
        split
        · exact elsewhere.symm
        · exact dirNamed.symm
      · split
        · exact dirNamed.symm
        · exact elsewhere.symm
      · have empty := bare s found u behind (fun same => elsewhere (entry.1.symm.trans same)) i
        have key : inodeKey σ.disk (sliceOf σ.disk u i) = file.key := entry.2
        rw [empty] at key
        exact sector key
  | @created flags dir name kind s i found inside changed cursor room =>
      obtain ⟨-, hash, matching⟩ := slice_found found
      rw [sliceMatches, if_neg Bool.false_ne_true, decide_eq_true_iff] at matching
      refine has_cellChanged ordered.names changed (fun u member used j _ => ordered.cursor_alone member used j)
        fun same => ⟨?_, ?_⟩
      · rw [matching]
        exact sector
      · rw [changed.keys _ (.inr ordered.cursor), if_pos rfl]
        intro key
        rcases elsewhere with otherDir | otherName
        · exact otherDir (same.symm.trans hash)
        · exact otherName (congrArg Prod.fst key).symm
  | @deleted flags dir name kind s i found inside changed cursor =>
      obtain ⟨-, hash, matching⟩ := slice_found found
      rw [sliceMatches, if_pos rfl, decide_eq_true_iff] at matching
      have used : dirHash σ.disk s ≠ 0 := hash ▸ named
      refine has_cellChanged ordered.names changed (fun u member used' j other =>
        ordered.slice_alone inside.mem used matching.1 member used' other) fun same => ⟨?_, ?_⟩
      · intro key
        rcases elsewhere with otherDir | otherName
        · exact otherDir (same.symm.trans hash)
        · exact otherName ((congrArg Prod.fst key).symm.trans matching.2)
      · rw [changed.keys 0 (.inl rfl), if_neg matching.1.symm]
        exact sector

theorem Readable.completed (readable : Readable σ) : (mnt.completed σ).errGlobal ≠ kErrorDiskIsCorrupted := by
  unfold DriveTrait.completed
  split
  · exact success_status
  · exact readable

theorem step_frame (writable : mnt.fPacketReadOnly = false) (low : 512 ≤ mnt.fLbaStart.toNat)
    (ordered : Ordered mnt σ) (readable : Readable σ) (tidy : Tidy mnt call σ)
    (taken : call.run mnt σ = some (r, σ')) (bare : Bare mnt σ call) (elsewhere : call.Elsewhere file)
    (dirNamed : hefsiHash64 file.dir ≠ 0) (sector : inodeKey σ.disk 0 ≠ file.key) :
    (iNodeExists mnt file.dir file.name file.kind σ').1 = true ↔
      (iNodeExists mnt file.dir file.name file.kind σ).1 = true := by
  obtain ⟨next, readable'⟩ := step_ordered writable low ordered tidy taken
  have before := exists_iff file ordered.sane readable.completed
  have after := exists_iff file next.sane readable'.completed
  have same : Has (slotsOf mnt) (namesOn σ'.disk) (hefsiHash64 file.dir) file.key ↔
      Has (slotsOf mnt) (namesOn σ.disk) (hefsiHash64 file.dir) file.key := by
    rcases step_effect writable low ordered tidy taken with ⟨-, unmoved⟩ | ⟨-, effect, -⟩
    · rw [unmoved.1]
    · exact effect.frame ordered tidy.1 bare elsewhere dirNamed sector
  rw [before, after, same]
  simp [next.room, ordered.room]

end Frames

/-! ## Formatted volumes -/

section Format
variable {mnt : DriveTrait} {flags : BitVec 32} {volName : Path} {σ σ' : Mount} {file : HefsFile}

theorem heFormat_good (formatted : heFormat mnt flags volName σ = some (true, σ')) : σ.fPacketGood = true := by
  cases good : σ.fPacketGood with
  | true => rfl
  | false =>
      rw [heFormat, good, if_pos (by decide)] at formatted
      cases formatted

theorem header_cursors (writable : mnt.fPacketReadOnly = false) (nonzero : mnt.fLbaStart ≠ 0) :
    fStartIN.get (bootAt mnt (formatHeader mnt flags volName σ).disk) = indEnd mnt ∧
      fStartBlock.get (bootAt mnt (formatHeader mnt flags volName σ).disk) = inEnd mnt := by
  constructor
  · rw [stored_startIN (header_boot writable nonzero)]
    simp (disch := decide) only [formatBoot, Field.get_set_other, Field.get_set_full]
    rfl
  · rw [header_boot writable nonzero, get_trim (by decide), sealBoot, Field.get_set_other (by decide)]
    simp (disch := decide) only [formatBoot, Field.get_set_other, Field.get_set_full]
    rfl

/-- A fresh volume has room for directory nodes, index nodes and blocks, when the drive has. -/
theorem header_bounds (writable : mnt.fPacketReadOnly = false) (nonzero : mnt.fLbaStart ≠ 0)
    (sane : BootSane mnt (bootAt mnt (formatHeader mnt flags volName σ).disk)) (fits : inEnd mnt ≤ mnt.drvStdGetSize) :
    fStartIND.get (bootAt mnt (formatHeader mnt flags volName σ).disk) ≤
        fEndIND.get (bootAt mnt (formatHeader mnt flags volName σ).disk) ∧
      fStartIN.get (bootAt mnt (formatHeader mnt flags volName σ).disk) ≤
        fEndIN.get (bootAt mnt (formatHeader mnt flags volName σ).disk) ∧
      fStartBlock.get (bootAt mnt (formatHeader mnt flags volName σ).disk) ≤
        fEndBlock.get (bootAt mnt (formatHeader mnt flags volName σ).disk) := by
  obtain ⟨inodes, blocks⟩ : fStartIN.get (bootAt mnt (formatHeader mnt flags volName σ).disk) = indEnd mnt ∧ _ :=
    header_cursors writable nonzero
  rw [inodes, blocks, sane.startIND, sane.endIND, sane.endIN, sane.endBlock]
  exact ⟨(indEnd_toNat mnt).1, (inEnd_toNat mnt).1, fits⟩

theorem header_ordered (writable : mnt.fPacketReadOnly = false) (nonzero : mnt.fLbaStart ≠ 0)
    (good : σ.fPacketGood = true)
    (valid : bootValid (bootAt mnt (formatHeader mnt flags volName σ).disk) = true)
    (leftover : InOrder mnt (formatHeader mnt flags volName σ).disk (indEnd mnt)) :
    Ordered mnt (formatHeader mnt flags volName σ) := by
  have last := indEnd_toNat mnt
  have cursor : fStartIN.get (bootAt mnt (formatHeader mnt flags volName σ).disk) = indEnd mnt :=
    (header_cursors writable nonzero).1
  refine ⟨header_sane writable nonzero valid, ?_, ?_, ?_, ?_⟩
  · rw [formatHeader, ioDrvOutput_taken writable nonzero, completed_good]
    exact completed_good.trans good
  · rw [cursor, BitVec.le_def]
    exact (inEnd_toNat mnt).1
  · rw [cursor]
    exact ⟨⟨0, rfl⟩, by omega⟩
  · rwa [cursor]

theorem exists_invalid (invalid : bootValid (bootAt mnt σ.disk) = false) :
    (iNodeExists mnt file.dir file.name file.kind σ).1 ≠ true := by
  intro found
  obtain ⟨node, held⟩ := exists_iff_holds.mp found
  rw [(inodeOf_checks held.inode).1] at invalid
  cases invalid

end Format

theorem completed_idle {mnt : DriveTrait} {σ : Mount} (idle : mnt.ahci = false) : mnt.completed σ = σ := by
  rw [DriveTrait.completed, idle, if_neg Bool.false_ne_true]

theorem tidy_full {mnt : DriveTrait} {σ : Mount} (full : NoneFree mnt σ.disk) (flags : BitVec 32) {dir : Path}
    (named : hefsiHash64 dir ≠ 0) : Tidy mnt (.directory flags dir false) σ := by
  refine ⟨named, fun start search => ?_, fun boot' τ updated => ?_⟩
  · rw [indMatches_create, full] at search
    cases search
  · rw [update_full full] at updated
    cases updated

theorem bare_full {mnt : DriveTrait} {σ : Mount} (full : NoneFree mnt σ.disk) (flags : BitVec 32) (dir : Path) :
    Bare mnt σ (.directory flags dir false) := by
  intro start search
  rw [indMatches_create, full] at search
  cases search

/-! A drive with room for one directory node. `/a` and an index node are still there from before. -/

def leftDrive : DriveTrait := { fullDrive with sectorCount := 153600, sectors_lt := by decide }

def leftMount : Mount :=
  { fullMount with disk := place fullMount.disk 2049 HefsIndexNode.size (inodeEntry 0 (utf8 ['f']) false 0) }

def leftFormatted : Mount := { formatHeader leftDrive 0 [] leftMount with errGlobal := kErrorSuccess }

theorem leftDrive_sane : BootSane leftDrive (bootAt leftDrive (formatHeader leftDrive 0 [] leftMount).disk) :=
  header_sane rfl (by decide) (header_valid rfl (by decide) (by decide))

/-- The directory node from before has no file, and what follows it is no free node either. -/
theorem leftDrive_disk :
    (([1537, 2049] : List Lba).find?
        (fun start => indMatches [] false (directoryAt leftFormatted.disk start)) = none ∧
      HefsBootNode.fChecksum.get (bootAt leftDrive leftMount.disk) = 0) ∧
      ((∀ i, sliceOf leftFormatted.disk 1537 i = 0) ∧ fCreated.get (directoryAt leftFormatted.disk 1537) ≠ 0) ∧
      inodeKey leftFormatted.disk 0 ≠ (⟨utf8 ['/', 'a'], utf8 ['f'], 0⟩ : HefsFile).key := by
  decide +kernel

theorem leftDrive_full : NoneFree leftDrive leftFormatted.disk := by
  have sane : BootSane leftDrive (bootAt leftDrive leftFormatted.disk) := leftDrive_sane
  have scanned : indScan (bootAt leftDrive leftFormatted.disk) = [1537, 2049] := by
    rw [indScan, sane.startIND, sane.endIND]
    decide
  rw [NoneFree, scanned]
  exact leftDrive_disk.1.1

theorem leftDrive_order : InOrder leftDrive (formatHeader leftDrive 0 [] leftMount).disk (indEnd leftDrive) := by
  have scanned : slotsOf leftDrive = [1537] := by decide
  have regions : (indStart leftDrive).toNat = 1537 ∧ (indEnd leftDrive).toNat = 2049 := by decide
  obtain ⟨-, ⟨bare, used⟩, -⟩ := leftDrive_disk
  have empty (s : Lba) (member : s ∈ slotsOf leftDrive) (i : Fin kOpenHeFSSliceCount) :
      sliceOf (formatHeader leftDrive 0 [] leftMount).disk s i = 0 := by
    rw [scanned, List.mem_singleton] at member
    rw [member]
    exact bare i
  refine ⟨fun s member _ => ?_, fun s member _ i filled => absurd (empty s member i) filled,
    fun s member _ _ _ _ i _ filled => absurd (empty s member i) filled⟩
  rw [scanned, List.mem_singleton] at member
  rw [member]
  refine ⟨⟨⟨0, regions.1.symm⟩, ?_⟩, .inl used⟩
  rw [regions.2]
  decide

/-! A drive with room for two: `/a`, and `/b` with a file `f`. -/

def cutDrive : DriveTrait := { fullDrive with sectorCount := 204800, sectors_lt := by decide }

def cutMount : Mount :=
  let other := (fINSlices ⟨0, sliceCount_pos⟩).set 3072 (fHashPath.set (hefsiHash64 (utf8 ['/', 'b'])) fullDirectory)
  let disk := place fullMount.disk 2049 HefsIndexNodeDirectory.size other
  { fullMount with disk := place disk 3072 HefsIndexNode.size (inodeEntry 0 (utf8 ['f']) false 0) }

def cutFormatted : Mount := { formatHeader cutDrive 0 [] cutMount with errGlobal := kErrorSuccess }

theorem cutDrive_sane : BootSane cutDrive (bootAt cutDrive cutFormatted.disk) :=
  header_sane rfl (by decide) (header_valid rfl (by decide) (by decide))

theorem cut_scan {boot : Image} (sane : BootSane cutDrive boot) : indScan boot = [1537, 2049] := by
  rw [indScan, sane.startIND, sane.endIND]
  decide

def cutCall : FsCall := .directory 0 (utf8 ['/', 'a']) true

def cutRemoved : Image × Mount :=
  storeDirectory cutDrive (bootAt cutDrive cutFormatted.disk) (utf8 ['/', 'a']) ((0 : BitVec 32).setWidth 16) true 1537
    (cutDrive.completed cutFormatted)

theorem cutDrive_disk :
    (HefsBootNode.fChecksum.get (bootAt cutDrive cutMount.disk) = 0 ∧
      ([1537, 2049] : List Lba).find? (fun start => indMatches [] false (directoryAt cutFormatted.disk start)) = none) ∧
      ([1537, 2049] : List Lba).find?
        (fun start => indMatches (utf8 ['/', 'a']) true (directoryAt cutFormatted.disk start)) = some 1537 ∧
      (dirHash cutRemoved.2.disk 1537 = 0 ∧ fChild.get (directoryAt cutRemoved.2.disk 2049) = 0) ∧
      (iNodeExists cutDrive (utf8 ['/', 'b']) (utf8 ['f']) 0 cutFormatted).1 = true ∧
      (cutCall.run cutDrive cutFormatted).map Prod.fst = some true := by
  decide +kernel

theorem cutDrive_formatted : heFormat cutDrive 0 [] cutMount = some (true, cutFormatted) := by
  obtain ⟨⟨unset, none⟩, -⟩ := cutDrive_disk
  have full : NoneFree cutDrive cutFormatted.disk := by
    rw [NoneFree, cut_scan cutDrive_sane]
    exact none
  have formatted : heFormat cutDrive 0 [] cutMount = _ := format_full rfl (by decide)
    (checksumGood_unset unset) (by decide) (by decide) rfl (by decide) cutDrive_sane full
  rw [completed_idle rfl] at formatted
  exact formatted

theorem cut_update : cutCall.update cutDrive cutFormatted = some cutRemoved := by
  have search : (indScan (bootAt cutDrive cutFormatted.disk)).find? (fun start =>
      indMatches (utf8 ['/', 'a']) true (directoryAt cutFormatted.disk start)) = some 1537 := by
    rw [cut_scan cutDrive_sane]
    exact cutDrive_disk.2.1
  rw [cutCall, FsCall.update, search]
  rfl

/-- The balance behind the removal leaves the hash of the removed node at zero. -/
theorem cut_balance {boot' : Image} {τ : Mount}
    (updated : cutCall.update cutDrive cutFormatted = some (boot', τ)) :
    dirHash (hefsiBalanceInd cutDrive boot' τ).2.disk 1537 = 0 ∧
      lookupScan (bootAt cutDrive (hefsiBalanceInd cutDrive boot' τ).2.disk) = [1537, 2049] := by
  have deletes : DeletesIn (OffBoot cutDrive) cutDrive cutFormatted cutCall := trivial
  obtain ⟨-, sane, stored⟩ := update_boot rfl (by decide) cutDrive_sane deletes updated
  have removed : τ = cutRemoved.2 := congrArg Prod.snd (Option.some.inj (updated.symm.trans cut_update))
  obtain ⟨-, -, ⟨free, still⟩, -⟩ := cutDrive_disk
  rw [← removed] at free still
  have regions : (indStart cutDrive).toNat = 1537 ∧ (indEnd cutDrive).toNat = 2219 := by decide
  have region : InRegion cutDrive 1537 := ⟨⟨0, regions.1.symm⟩, by rw [regions.2]; decide⟩
  have last : SpareNode cutDrive 2049 := by
    have place : (2049 : Lba).toNat = 2049 := rfl
    constructor <;> intro i low high <;> rw [Loose, offset_toNat (by omega)] <;> omega
  have all : BalanceAll cutDrive boot' (Spares cutDrive boot') (indScan boot') τ := by
    refine unturned_balance (indScan_apart sane) ?_ ?_ <;> rw [cut_scan sane] <;> intro s member <;>
      simp only [List.mem_cons, List.not_mem_nil, or_false] at member <;> rcases member with rfl | rfl
    · exact region.spare
    · exact last
    · exact .inl free
    · exact .inr still
  have good : τ.fPacketGood = true := by
    rw [removed]
    decide
  obtain ⟨⟨same, -⟩, -⟩ := hefsiBalanceInd_keeps rfl sane good all
  constructor
  · rw [dirHash_core same region.mem, free]
  · rw [bootAt_core same, stored, lookupScan_eq sane.trim]
    decide

theorem exists_cut {mnt : DriveTrait} {σ : Mount} {file : HefsFile} {first : Lba} {rest : List Lba}
    (free : dirHash σ.disk first = 0) (scanned : lookupScan (bootAt mnt σ.disk) = first :: rest) :
    (iNodeExists mnt file.dir file.name file.kind σ).1 ≠ true := by
  intro found
  obtain ⟨node, held⟩ := exists_iff_holds.mp found
  obtain ⟨-, -, -, fetched⟩ := inodeOf_checks held.inode
  rw [dirHash] at free
  rw [scanned, fetchFrom, if_pos free] at fetched
  cases fetched

end Ne.Kernel.FS
