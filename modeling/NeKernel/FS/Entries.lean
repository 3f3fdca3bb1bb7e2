import NeKernel.FS.NamespaceRuns

/-!
# Entries of files

A creation does not look for an entry that is there already, and a deletion takes the first entry of the
name, whatever its kind.
-/

namespace Ne.Kernel.FS
open ByteMem Strides ScanTable Runs
open HefsBootNode hiding size fChecksum
open HefsIndexNodeDirectory hiding size fChecksum

/-- Slice `i` of the directory node at `s` leads to an index node of this key. -/
def EntryAt (mnt : DriveTrait) (disk : Memory) (dirName : BitVec 64) (key : BitVec 64 × BitVec 64) (s : Lba)
    (i : Fin kOpenHeFSSliceCount) : Prop :=
  s ∈ slotsOf mnt ∧ dirHash disk s ≠ 0 ∧ dirHash disk s = dirName ∧ sliceOf disk s i ≠ 0 ∧
    inodeKey disk (sliceOf disk s i) = key

/-- No directory has two entries of one key. -/
def Single (mnt : DriveTrait) (disk : Memory) : Prop :=
  ∀ dirName key s i s' i', EntryAt mnt disk dirName key s i → EntryAt mnt disk dirName key s' i' → s = s' ∧ i = i'

/-- A creation is of a file that has no entry yet, in a node that lookups come to. A deletion finds an entry
of its kind. -/
def Proper (mnt : DriveTrait) (σ : Mount) : FsCall → Prop
  | .directory .. => True
  | .inode _ dir name deleteOrCreate kind => ∀ start i,
      (indScan (bootAt mnt σ.disk)).findSome?
        (sliceIn σ.disk (hefsiHash64 dir) (hefsiHash64 name) deleteOrCreate) = some (start, i) →
      if deleteOrCreate then (inodeKey σ.disk (sliceOf σ.disk start i)).2 = kind.setWidth 64
      else Reached (slotsOf mnt) (namesOn σ.disk) start ∧
        ∀ s j, ¬ EntryAt mnt σ.disk (hefsiHash64 dir) (hefsiHash64 name, kind.setWidth 64) s j

section Entries
variable {mnt : DriveTrait} {σ σ' : Mount} {call : FsCall} {disk disk' : Memory} {s s₀ a₀ cell : Lba}
  {i i₀ : Fin kOpenHeFSSliceCount} {dirName hash : BitVec 64} {key key₀ : BitVec 64 × BitVec 64} {cursor : Lba}

/-- An entry of the changed volume, other than the changed slice, was there before. -/
theorem EntryAt.of_cellChanged (inOrder : InOrder mnt disk cursor)
    (changed : CellChanged mnt disk disk' s₀ i₀ cell a₀ key₀) (entry : EntryAt mnt disk' dirName key s i)
    (other : ¬ (s = s₀ ∧ i = i₀)) (alone : dirHash disk s ≠ 0 → sliceOf disk s i ≠ a₀) :
    EntryAt mnt disk dirName key s i := by
  obtain ⟨member, used, named, filled, found⟩ := entry
  rw [changed.hashes s member] at used named
  have same : sliceOf disk' s i = sliceOf disk s i := by
    rw [changed.cells s (inOrder.slots s member used).1, if_neg other]
  rw [same] at filled found
  rw [changed.keys _ (inOrder.record member used), if_neg (alone used)] at found
  exact ⟨member, used, named, filled, found⟩

theorem EntryAt.of_slotChanged (inOrder : InOrder mnt disk cursor) (changed : SlotChanged mnt disk disk' s₀ hash)
    (entry : EntryAt mnt disk' dirName key s i) : EntryAt mnt disk dirName key s i := by
  obtain ⟨member, used, named, filled, found⟩ := entry
  have distinct : s ≠ s₀ := by
    rintro rfl
    exact filled (changed.own.2 i)
  rw [changed.others s member distinct] at used named
  rw [changed.cells s (inOrder.slots s member used).1 distinct] at filled found
  rw [changed.keys _ (inOrder.record member used)] at found
  exact ⟨member, used, named, filled, found⟩

theorem Effect.single (ordered : Ordered mnt σ) (named : hefsiHash64 call.dir ≠ 0) (single : Single mnt σ.disk)
    (proper : Proper mnt σ call) (effect : Effect mnt σ disk' call) : Single mnt disk' := by
  intro dirName key u j u' j' first second
  cases effect with
  | directory found inside changed cursor =>
      exact single dirName key u j u' j' (first.of_slotChanged ordered.names changed)
        (second.of_slotChanged ordered.names changed)
  | @created flags dir name kind s i found inside changed cursor room =>
      obtain ⟨-, hash, -⟩ := slice_found found
      obtain ⟨-, absent⟩ := proper s i found
      have old {v : Lba} {l : Fin kOpenHeFSSliceCount} (entry : EntryAt mnt disk' dirName key v l)
          (other : ¬ (v = s ∧ l = i)) : EntryAt mnt σ.disk dirName key v l :=
        entry.of_cellChanged ordered.names changed other fun used => ordered.cursor_alone entry.1 used l
      have new {v : Lba} {l : Fin kOpenHeFSSliceCount} (entry : EntryAt mnt disk' dirName key v l)
          (here : v = s ∧ l = i) : dirName = hefsiHash64 dir ∧ key = (hefsiHash64 name, kind.setWidth 64) := by
        obtain ⟨rfl, rfl⟩ := here
        obtain ⟨member, -, dirNamed, -, record⟩ := entry
        rw [changed.hashes v member] at dirNamed
        rw [changed.cells v inside, if_pos ⟨rfl, rfl⟩, changed.keys _ (.inr ordered.cursor), if_pos rfl] at record
        exact ⟨dirNamed.symm.trans hash, record.symm⟩
      by_cases here : u = s ∧ j = i
      · by_cases here' : u' = s ∧ j' = i
        · exact ⟨here.1.trans here'.1.symm, here.2.trans here'.2.symm⟩
        · obtain ⟨rfl, rfl⟩ := new first here
          exact absurd (old second here') (absent u' j')
      · by_cases here' : u' = s ∧ j' = i
        · obtain ⟨rfl, rfl⟩ := new second here'
          exact absurd (old first here) (absent u j)
        · exact single dirName key u j u' j' (old first here) (old second here')
  | @deleted flags dir name kind s i found inside changed cursor =>
      obtain ⟨-, hash, matching⟩ := slice_found found
      rw [sliceMatches, if_pos rfl, decide_eq_true_iff] at matching
      have used : dirHash σ.disk s ≠ 0 := hash ▸ named
      have old {v : Lba} {l : Fin kOpenHeFSSliceCount} (entry : EntryAt mnt disk' dirName key v l) :
          EntryAt mnt σ.disk dirName key v l := by
        have other : ¬ (v = s ∧ l = i) := by
          rintro ⟨rfl, rfl⟩
          have filled := entry.2.2.2.1
          rw [changed.cells v inside, if_pos ⟨rfl, rfl⟩] at filled
          exact filled rfl
        exact entry.of_cellChanged ordered.names changed other fun used' =>
          ordered.slice_alone inside.mem used matching.1 entry.1 used' other
      exact single dirName key u j u' j' (old first) (old second)

/-! ## What a creation and a deletion bring about -/

section Files
variable {flags : BitVec 32} {dir name : Path} {kind kind' : BitVec 8} {file : HefsFile}

theorem kind_injective (same : kind'.setWidth 64 = kind.setWidth 64) : kind' = kind := by
  apply BitVec.eq_of_toNat_eq
  have values := congrArg BitVec.toNat same
  have small := kind.isLt
  have small' := kind'.isLt
  simp only [BitVec.toNat_setWidth] at values
  omega

theorem created_has (ordered : Ordered mnt σ) (proper : Proper mnt σ (.inode flags dir name false kind))
    (effect : Effect mnt σ disk' (.inode flags dir name false kind)) :
    Has (slotsOf mnt) (namesOn disk') (hefsiHash64 dir) (hefsiHash64 name, kind.setWidth 64) := by
  cases effect with
  | @created _ _ _ _ s i found inside changed cursor room =>
      obtain ⟨-, hash, -⟩ := slice_found found
      obtain ⟨reached, -⟩ := proper s i found
      refine ⟨s, i, reached.congr changed.hashes, (changed.hashes s inside.mem).trans hash, ?_⟩
      change inodeKey disk' (sliceOf disk' s i) = _
      rw [changed.cells s inside, if_pos ⟨rfl, rfl⟩, changed.keys _ (.inr ordered.cursor), if_pos rfl]

theorem deleted_has (ordered : Ordered mnt σ) (named : hefsiHash64 dir ≠ 0) (single : Single mnt σ.disk)
    (proper : Proper mnt σ (.inode flags dir name true kind)) (sector : (inodeKey σ.disk 0).1 ≠ hefsiHash64 name)
    (effect : Effect mnt σ disk' (.inode flags dir name true kind)) :
    ¬ Has (slotsOf mnt) (namesOn disk') (hefsiHash64 dir) (hefsiHash64 name, kind.setWidth 64) := by
  cases effect with
  | @deleted _ _ _ _ s i found inside changed cursor =>
      obtain ⟨-, hash, matching⟩ := slice_found found
      rw [sliceMatches, if_pos rfl, decide_eq_true_iff] at matching
      have used : dirHash σ.disk s ≠ 0 := hash ▸ named
      have taken : EntryAt mnt σ.disk (hefsiHash64 dir) (hefsiHash64 name, kind.setWidth 64) s i :=
        ⟨inside.mem, used, hash, matching.1, Prod.ext matching.2 (proper s i found)⟩
      have cleared : sliceOf disk' s i = 0 := by rw [changed.cells s inside, if_pos ⟨rfl, rfl⟩]
      rintro ⟨u, j, reached, dirNamed, record⟩
      change inodeKey disk' (sliceOf disk' u j) = _ at record
      by_cases filled : sliceOf disk' u j = 0
      · rw [filled, changed.keys 0 (.inl rfl), if_neg matching.1.symm] at record
        exact sector (congrArg Prod.fst record)
      · have other : ¬ (u = s ∧ j = i) := by
          rintro ⟨rfl, rfl⟩
          exact filled cleared
        have entry : EntryAt mnt disk' (hefsiHash64 dir) (hefsiHash64 name, kind.setWidth 64) u j :=
          ⟨reached.mem, reached.used, dirNamed, filled, record⟩
        have before := entry.of_cellChanged ordered.names changed other fun used' =>
          ordered.slice_alone inside.mem used matching.1 reached.mem used' other
        exact other (single _ _ u j s i before taken)

theorem deleted_kind (ordered : Ordered mnt σ) (named : hefsiHash64 dir ≠ 0)
    (proper : Proper mnt σ (.inode flags dir name true kind)) (sector : (inodeKey σ.disk 0).1 ≠ hefsiHash64 name)
    (effect : Effect mnt σ disk' (.inode flags dir name true kind)) (other : kind' ≠ kind) :
    Has (slotsOf mnt) (namesOn disk') (hefsiHash64 dir) (hefsiHash64 name, kind'.setWidth 64) ↔
      Has (slotsOf mnt) (namesOn σ.disk) (hefsiHash64 dir) (hefsiHash64 name, kind'.setWidth 64) := by
  cases effect with
  | @deleted _ _ _ _ s i found inside changed cursor =>
      obtain ⟨-, hash, matching⟩ := slice_found found
      rw [sliceMatches, if_pos rfl, decide_eq_true_iff] at matching
      have used : dirHash σ.disk s ≠ 0 := hash ▸ named
      refine has_cellChanged ordered.names changed (fun u member used' j apart =>
        ordered.slice_alone inside.mem used matching.1 member used' apart) fun _ => ⟨fun key => ?_, fun key => ?_⟩
      · exact other (kind_injective ((congrArg Prod.snd key).symm.trans (proper s i found)))
      · rw [changed.keys 0 (.inl rfl), if_neg matching.1.symm] at key
        exact sector (congrArg Prod.fst key)

theorem inode_fits {deleteOrCreate : Bool}
    (taken : iNodeCtlManip mnt flags dir name deleteOrCreate kind σ = (true, σ')) :
    dir.length ≤ kOpenHeFSFileNameLen ∧ name.length ≤ kOpenHeFSFileNameLen := by
  unfold iNodeCtlManip at taken
  split at taken
  · cases taken
  rename_i nameFits
  split at taken
  · cases taken
  rename_i dirFits
  exact ⟨Nat.not_lt.mp dirFits, Nat.not_lt.mp nameFits⟩

end Files

end Entries

theorem run_single {mnt : DriveTrait} (writable : mnt.fPacketReadOnly = false) (low : 512 ≤ mnt.fLbaStart.toNat)
    {calls : List FsCall} {σ σ' : Mount}
    (run : Run (Guarded (fun call σ => Tidy mnt call σ ∧ Proper mnt σ call) (FsStep mnt)) σ calls σ')
    (ordered : Ordered mnt σ) (single : Single mnt σ.disk) : Ordered mnt σ' ∧ Single mnt σ'.disk := by
  induction run with
  | nil => exact ⟨ordered, single⟩
  | cons head _ ih =>
      obtain ⟨⟨tidy, proper⟩, r, taken⟩ := head
      refine ih (step_ordered writable low ordered tidy taken).1 ?_
      rcases step_effect writable low ordered tidy taken with ⟨-, unmoved⟩ | ⟨-, effect, -⟩
      · rwa [unmoved.1]
      · exact effect.single ordered tidy.1 single proper

section Posts
variable {mnt : DriveTrait} {σ σ' : Mount} {bits : BitVec 32} {dir name : Path} {kind : BitVec 8}
  {deleteOrCreate : Bool} (writable : mnt.fPacketReadOnly = false) (low : 512 ≤ mnt.fLbaStart.toNat)
  (ordered : Ordered mnt σ) (tidy : Tidy mnt (.inode bits dir name deleteOrCreate kind) σ)
  (done : iNodeCtlManip mnt bits dir name deleteOrCreate kind σ = (true, σ'))
include writable low ordered tidy done

theorem exists_after (kind' : BitVec 8) : (iNodeExists mnt dir name kind' σ').1 = true ↔
    Has (slotsOf mnt) (namesOn σ'.disk) (hefsiHash64 dir) (hefsiHash64 name, kind'.setWidth 64) := by
  have taken : (FsCall.inode bits dir name deleteOrCreate kind).run mnt σ = some (true, σ') := congrArg some done
  obtain ⟨next, readable⟩ := step_ordered writable low ordered tidy taken
  have fits := inode_fits done
  have answer := exists_iff ⟨dir, name, kind'⟩ next.sane readable.completed
  simp only [fits.1, fits.2, next.room, true_and] at answer
  exact answer

omit writable low tidy in
theorem exists_before (readable : Readable σ) (kind' : BitVec 8) : (iNodeExists mnt dir name kind' σ).1 = true ↔
    Has (slotsOf mnt) (namesOn σ.disk) (hefsiHash64 dir) (hefsiHash64 name, kind'.setWidth 64) := by
  have fits := inode_fits done
  have answer := exists_iff ⟨dir, name, kind'⟩ ordered.sane readable.completed
  simp only [fits.1, fits.2, ordered.room, true_and] at answer
  exact answer

theorem done_effect : Effect mnt σ σ'.disk (.inode bits dir name deleteOrCreate kind) := by
  have taken : (FsCall.inode bits dir name deleteOrCreate kind).run mnt σ = some (true, σ') := congrArg some done
  rcases step_effect writable low ordered tidy taken with ⟨wrong, -⟩ | ⟨-, effect, -⟩
  · cases wrong
  · exact effect

end Posts

/-! A drive with room for two directory nodes: `/a`, `/b`, and an index node from before. -/

def twinDrive : DriveTrait := { fullDrive with sectorCount := 307200, sectors_lt := by decide }

def twinMount : Mount :=
  let other := fHashPath.set (hefsiHash64 (utf8 ['/', 'b'])) fullDirectory
  let disk := place fullMount.disk 2049 HefsIndexNodeDirectory.size other
  { fullMount with disk := place disk 2561 HefsIndexNode.size (inodeEntry 0 (utf8 ['f']) false 0) }

def twinFormatted : Mount := { formatHeader twinDrive 0 [] twinMount with errGlobal := kErrorSuccess }

def twinFile : HefsFile := ⟨utf8 ['/', 'a'], utf8 ['g'], 0⟩

def twinCall : FsCall := .inode 0 twinFile.dir twinFile.name false twinFile.kind

def twinLinked : Image × Mount :=
  linkINode twinDrive (bootAt twinDrive twinFormatted.disk) 1537 ⟨0, sliceCount_pos⟩
    (inodeEntry 0 twinFile.name false twinFile.kind) (twinDrive.completed twinFormatted)

/-- Both directories are there and no slice of theirs leads anywhere. The call takes the first slice. -/
theorem twinDrive_disk :
    (HefsBootNode.fChecksum.get (bootAt twinDrive twinMount.disk) = 0 ∧
      ([1537, 2049, 2561] : List Lba).find?
        (fun start => indMatches [] false (directoryAt twinFormatted.disk start)) = none) ∧
      ([1537, 2049, 2561] : List Lba).findSome?
        (sliceIn twinFormatted.disk (hefsiHash64 twinFile.dir) (hefsiHash64 twinFile.name) false) =
          some (1537, ⟨0, by decide⟩) ∧
      ((dirHash twinFormatted.disk 1537 ≠ 0 ∧ fCreated.get (directoryAt twinFormatted.disk 1537) ≠ 0 ∧
          ∀ i, sliceOf twinFormatted.disk 1537 i = 0) ∧
        fCreated.get (directoryAt twinFormatted.disk 2049) ≠ 0 ∧ ∀ i, sliceOf twinFormatted.disk 2049 i = 0) ∧
      fChild.get (directoryAt twinLinked.2.disk 1537) = 0 ∧ fChild.get (directoryAt twinLinked.2.disk 2049) = 0 ∧
      fChild.get (directoryAt twinLinked.2.disk 2561) = 0 := by
  decide +kernel

theorem twinDrive_sane : BootSane twinDrive (bootAt twinDrive (formatHeader twinDrive 0 [] twinMount).disk) :=
  header_sane rfl (by decide) (header_valid rfl (by decide) (by decide))

theorem twin_scan {boot : Image} (sane : BootSane twinDrive boot) : indScan boot = [1537, 2049, 2561] := by
  rw [indScan, sane.startIND, sane.endIND]
  decide

theorem twinDrive_full : NoneFree twinDrive twinFormatted.disk := by
  have sane : BootSane twinDrive (bootAt twinDrive twinFormatted.disk) := twinDrive_sane
  rw [NoneFree, twin_scan sane]
  exact twinDrive_disk.1.2

theorem twinDrive_formatted : heFormat twinDrive 0 [] twinMount = some (true, twinFormatted) := by
  have formatted := format_full rfl (by decide) (checksumGood_unset twinDrive_disk.1.1) (by decide)
    (by decide) rfl (by decide) twinDrive_sane twinDrive_full
  rw [completed_idle rfl] at formatted
  exact formatted

theorem twinDrive_slots : slotsOf twinDrive = [1537, 2049] := by decide

theorem twinDrive_regions : (indStart twinDrive).toNat = 1537 ∧ (indEnd twinDrive).toNat = 2561 := by decide

theorem twinDrive_each {P : Lba → Prop} (first : P 1537) (second : P 2049) : ∀ s ∈ slotsOf twinDrive, P s := by
  intro s member
  rw [twinDrive_slots] at member
  rcases List.mem_cons.mp member with rfl | member
  · exact first
  · rw [List.mem_singleton.mp member]
    exact second

theorem twinDrive_region : ∀ s ∈ slotsOf twinDrive, InRegion twinDrive s := by
  obtain ⟨first, last⟩ := twinDrive_regions
  apply twinDrive_each
  · exact ⟨⟨0, first.symm⟩, by rw [last]; decide⟩
  · exact ⟨⟨1, by rw [first]; decide⟩, by rw [last]; decide⟩

theorem twinDrive_bare : ∀ s ∈ slotsOf twinDrive,
    fCreated.get (directoryAt twinFormatted.disk s) ≠ 0 ∧ ∀ i, sliceOf twinFormatted.disk s i = 0 := by
  obtain ⟨-, -, nodes, -⟩ := twinDrive_disk
  exact twinDrive_each nodes.1.2 nodes.2

theorem twinDrive_order : InOrder twinDrive (formatHeader twinDrive 0 [] twinMount).disk (indEnd twinDrive) :=
  ⟨fun s member _ => ⟨twinDrive_region s member, .inl (twinDrive_bare s member).1⟩,
    fun s member _ i filled => absurd ((twinDrive_bare s member).2 i) filled,
    fun s member _ _ _ _ i _ filled => absurd ((twinDrive_bare s member).2 i) filled⟩

theorem twin_search : (indScan (bootAt twinDrive twinFormatted.disk)).findSome?
    (sliceIn twinFormatted.disk (hefsiHash64 twinFile.dir) (hefsiHash64 twinFile.name) false) =
      some (1537, ⟨0, by decide⟩) := by
  have sane : BootSane twinDrive (bootAt twinDrive twinFormatted.disk) := twinDrive_sane
  rw [twin_scan sane]
  exact twinDrive_disk.2.1

theorem twin_update : twinCall.update twinDrive twinFormatted = some twinLinked := by
  exact update_link (header_bounds rfl (by decide) twinDrive_sane (by decide)) twin_search

theorem twinDrive_ordered : Ordered twinDrive twinFormatted := by
  have header : Ordered twinDrive (formatHeader twinDrive 0 [] twinMount) :=
    header_ordered rfl (by decide) rfl twinDrive_sane.valid twinDrive_order
  exact header.status kErrorSuccess

theorem twin_stores : StoresTidy twinDrive twinFormatted twinCall := by
  have last := twinDrive_regions.2
  intro start i search
  have found := Option.some.inj (twin_search.symm.trans search)
  have here : start = 1537 := (congrArg Prod.fst found).symm
  rw [here, last]
  have cursor : fStartIN.get (bootAt twinDrive twinFormatted.disk) = indEnd twinDrive :=
    (header_cursors rfl (by decide)).1
  refine ⟨by decide, fun s member => ?_, fun _ => ?_⟩
  · have room := (twinDrive_region s member).2
    omega
  · rw [cursor]
    decide

theorem twin_spare : ∀ s ∈ ([1537, 2049, 2561] : List Lba), SpareNode twinDrive s := by
  have cursor : OnCursor twinDrive 2561 := ⟨⟨0, twinDrive_regions.2.symm⟩, by decide⟩
  intro s member
  simp only [List.mem_cons, List.not_mem_nil, or_false] at member
  rcases member with rfl | rfl | rfl
  · exact (twinDrive_region 1537 (by rw [twinDrive_slots]; simp)).spare
  · exact (twinDrive_region 2049 (by rw [twinDrive_slots]; simp)).spare
  · exact cursor.spare

theorem twin_tidy : Tidy twinDrive twinCall twinFormatted := by
  have named : hefsiHash64 twinCall.dir ≠ 0 := by decide
  refine ⟨named, twin_stores, fun boot' τ updated => ?_⟩
  obtain ⟨sane, -⟩ := update_effect rfl (by decide) twinDrive_ordered named twin_stores updated
  have stored : τ = twinLinked.2 := congrArg Prod.snd (Option.some.inj (updated.symm.trans twin_update))
  rw [stored]
  refine unturned_balance (indScan_apart sane) ?_ ?_ <;> rw [twin_scan sane]
  · exact twin_spare
  · obtain ⟨-, -, -, first, second, third⟩ := twinDrive_disk
    intro s member
    simp only [List.mem_cons, List.not_mem_nil, or_false] at member
    rcases member with rfl | rfl | rfl
    · exact .inr first
    · exact .inr second
    · exact .inr third

theorem twin_proper : Proper twinDrive twinFormatted twinCall := by
  intro start i search
  have found := Option.some.inj (twin_search.symm.trans search)
  have here : start = 1537 := (congrArg Prod.fst found).symm
  rw [if_neg Bool.false_ne_true, here, twinDrive_slots]
  refine ⟨⟨[], [2049], rfl, by simp, twinDrive_disk.2.2.1.1.1⟩, ?_⟩
  rintro s j ⟨member, -, -, filled, -⟩
  exact filled ((twinDrive_bare s member).2 j)

/-! The same drive with a file `f` of kind 0 in `/a`. -/

def kindMount : Mount :=
  let disk := place twinMount.disk 1537 HefsIndexNodeDirectory.size
    ((fINSlices ⟨0, sliceCount_pos⟩).set 3073 fullDirectory)
  { twinMount with disk := place disk 3073 HefsIndexNode.size (inodeEntry 0 (utf8 ['f']) false 0) }

def kindFormatted : Mount := { formatHeader twinDrive 0 [] kindMount with errGlobal := kErrorSuccess }

def kindFile : HefsFile := ⟨utf8 ['/', 'a'], utf8 ['f'], 0⟩

def kindCall : FsCall := .inode 0 kindFile.dir kindFile.name true 1

def kindDeleted : Image × Mount :=
  unlinkINode twinDrive (bootAt twinDrive kindFormatted.disk) 1537 ⟨0, sliceCount_pos⟩
    (inodeEntry 0 kindFile.name true 1) (twinDrive.completed kindFormatted)

theorem kind_sane : BootSane twinDrive (bootAt twinDrive kindFormatted.disk) :=
  header_sane rfl (by decide) (header_valid rfl (by decide) (by decide))

theorem kind_disk :
    (HefsBootNode.fChecksum.get (bootAt twinDrive kindMount.disk) = 0 ∧
      ([1537, 2049, 2561] : List Lba).find?
        (fun start => indMatches [] false (directoryAt kindFormatted.disk start)) = none) ∧
      (([1537, 2049, 2561] : List Lba).findSome?
          (sliceIn kindFormatted.disk (hefsiHash64 kindFile.dir) (hefsiHash64 kindFile.name) true) =
            some (1537, ⟨0, by decide⟩) ∧
        sliceOf kindFormatted.disk 1537 ⟨0, by decide⟩ = 3073 ∧ dirHash kindFormatted.disk 1537 ≠ 0 ∧
        dirHash kindFormatted.disk 1537 = hefsiHash64 kindFile.dir ∧
        (iNodeExists twinDrive kindFile.dir kindFile.name kindFile.kind kindFormatted).1 = true) ∧
      kindDeleted.2.fPacketGood = true ∧ fChild.get (directoryAt kindDeleted.2.disk 1537) = 0 ∧
      fChild.get (directoryAt kindDeleted.2.disk 2049) = 0 ∧ fChild.get (directoryAt kindDeleted.2.disk 2561) = 0 ∧
      ((∀ i, sliceOf kindDeleted.2.disk 1537 i = 0) ∧ ∀ i, sliceOf kindDeleted.2.disk 2049 i = 0) ∧
      inodeKey kindDeleted.2.disk 0 ≠ kindFile.key := by
  decide +kernel

theorem kind_formatted : heFormat twinDrive 0 [] kindMount = some (true, kindFormatted) := by
  obtain ⟨⟨unset, none⟩, -⟩ := kind_disk
  have full : NoneFree twinDrive kindFormatted.disk := by
    rw [NoneFree, twin_scan kind_sane]
    exact none
  have formatted : heFormat twinDrive 0 [] kindMount = _ := format_full rfl (by decide) (checksumGood_unset unset)
    (by decide) (by decide) rfl (by decide) kind_sane full
  rw [completed_idle rfl] at formatted
  exact formatted

theorem kind_search : (indScan (bootAt twinDrive kindFormatted.disk)).findSome?
    (sliceIn kindFormatted.disk (hefsiHash64 kindFile.dir) (hefsiHash64 kindFile.name) true) =
      some (1537, ⟨0, by decide⟩) := by
  rw [twin_scan kind_sane]
  exact kind_disk.2.1.1

theorem kind_update : kindCall.update twinDrive kindFormatted = some kindDeleted := by
  exact update_unlink (header_bounds rfl (by decide) kind_sane (by decide)) kind_search

theorem kind_gone {boot' : Image} {τ : Mount} (updated : kindCall.update twinDrive kindFormatted = some (boot', τ)) :
    inodeOf twinDrive (hefsiBalanceInd twinDrive boot' τ).2.disk kindFile = none := by
  have deletes : DeletesIn (OffBoot twinDrive) twinDrive kindFormatted kindCall := by
    intro start i search
    have found := Option.some.inj (kind_search.symm.trans search)
    have here : start = 1537 := (congrArg Prod.fst found).symm
    have slot : i = ⟨0, by decide⟩ := (congrArg Prod.snd found).symm
    rw [here, slot]
    obtain ⟨-, ⟨-, slice, -⟩, -⟩ := kind_disk
    refine offBoot_behind ?_ ?_ <;> dsimp only [sliceOf] at slice <;> rw [slice]
    · decide
    · decide
  obtain ⟨-, sane, stored⟩ := update_boot rfl (by decide) kind_sane deletes updated
  have deleted : τ = kindDeleted.2 := congrArg Prod.snd (Option.some.inj (updated.symm.trans kind_update))
  obtain ⟨-, -, good, first, second, third, bare, sector⟩ := kind_disk
  rw [← deleted] at good first second third bare sector
  have all : BalanceAll twinDrive boot' (Spares twinDrive boot') (indScan boot') τ := by
    refine unturned_balance (indScan_apart sane) ?_ ?_ <;> rw [twin_scan sane]
    · exact twin_spare
    · intro s member
      simp only [List.mem_cons, List.not_mem_nil, or_false] at member
      rcases member with rfl | rfl | rfl
      · exact .inr first
      · exact .inr second
      · exact .inr third
  have empty : ∀ s ∈ slotsOf twinDrive, ∀ i, sliceOf τ.disk s i = 0 := twinDrive_each bare.1 bare.2
  obtain ⟨⟨same, -⟩, -⟩ := hefsiBalanceInd_keeps rfl sane good all
  have next : BootSane twinDrive (bootAt twinDrive (hefsiBalanceInd twinDrive boot' τ).2.disk) := by
    rw [bootAt_core same, stored]
    exact sane.trim
  rw [← Option.not_isSome_iff_eq_none, inodeOf_isSome next,
    has_core same twinDrive_region fun s member i => .inl (empty s member i)]
  rintro ⟨-, s, i, reached, hash, record⟩
  change inodeKey τ.disk (sliceOf τ.disk s i) = kindFile.key at record
  rw [empty s reached.mem i] at record
  exact sector record

theorem kind_done : ∃ σ', deleteINode twinDrive 0 kindFile.dir kindFile.name 1 kindFormatted = (true, σ') ∧
    inodeOf twinDrive σ'.disk kindFile = none := by
  have updated : kindCall.update twinDrive kindFormatted = some (kindDeleted.1, kindDeleted.2) := kind_update
  obtain ⟨σ', done, disk⟩ := manip_disk kind_sane.valid (by decide) (by decide) updated
  have gone := kind_gone updated
  rw [← disk] at gone
  exact ⟨σ', done, gone⟩

end Ne.Kernel.FS
