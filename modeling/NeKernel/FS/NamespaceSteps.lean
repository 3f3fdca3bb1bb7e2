import NeKernel.FS.Namespace

/-!
# What a call does to the names

A call for a directory rewrites one directory node, a call for a file one slice of a node and one
index node. As long as each is written in its own region, everything else that lookups read is kept.
-/

namespace Ne.Kernel.FS
open ByteMem Strides ScanTable Runs
open HefsBootNode hiding size fChecksum
open HefsIndexNodeDirectory hiding size fChecksum

/-- Where a slice leads: to sector 0, or to an index node. -/
def Record (mnt : DriveTrait) (a : Lba) : Prop := a = 0 ∨ OnCursor mnt a

/-- A directory node that is not marked as deleted. -/
def Live (disk : Memory) (s : Lba) : Prop :=
  fCreated.get (directoryAt disk s) ≠ 0 ∨ fDeleted.get (directoryAt disk s) = 0

/-! ## Ranges apart from each other -/

section Ranges
variable {mnt : DriveTrait} {disk : Memory} {a b s s' : Lba} {body : Image} {n : Nat}

theorem directoryAt_place (apart : Apart s 512 b n) : directoryAt (place disk b n body) s = directoryAt disk s :=
  window_congr fun x inside => place_outside (apart x inside)

theorem dirHash_place (apart : Apart s 8 b n) : dirHash (place disk b n body) s = dirHash disk s :=
  dirHash_congr fun i bound => place_outside (apart _ (by
    have there := within_add (a := s) i.toNat i.isLt bound
    simpa using there))

theorem inodeKey_place (apart : Apart a 512 b n) : inodeKey (place disk b n body) a = inodeKey disk a := by
  have same : inodeAt (place disk b n body) a = inodeAt disk a :=
    window_congr fun x inside => place_outside (apart x inside)
  rw [inodeKey, same, inodeKey]

theorem slots_apart (member : s ∈ slotsOf mnt) (member' : s' ∈ slotsOf mnt) (distinct : s ≠ s') :
    Apart s 512 s' 512 := by
  obtain ⟨⟨j, position⟩, high⟩ := slot_grid member
  obtain ⟨⟨j', position'⟩, high'⟩ := slot_grid member'
  have last := indEnd_toNat mnt
  have apart : j ≠ j' := by
    rintro rfl
    exact distinct (BitVec.eq_of_toNat_eq (by rw [position, position']))
  rcases Nat.lt_or_gt_of_ne apart with before | behind
  · exact .of_le (by omega) (by omega)
  · exact (Apart.of_le (by omega) (by omega)).symm

theorem slot_off_boot (member : s ∈ slotsOf mnt) : Apart s 512 mnt.fLbaStart HefsBootNode.size := by
  obtain ⟨⟨j, position⟩, high⟩ := slot_grid member
  have last := indEnd_toNat mnt
  exact offBoot_behind (by omega) (by omega)

theorem slot_off_inode (inside : InRegion mnt s) (inode : OnCursor mnt a) : Apart s 512 a 512 := by
  obtain ⟨⟨j, position⟩, high⟩ := inode
  have room := inside.2
  exact .of_le (by omega) (by omega)

theorem hash_off_inode (room : s.toNat + 8 ≤ (indEnd mnt).toNat) (inode : OnCursor mnt a) : Apart s 8 a 512 := by
  obtain ⟨⟨j, position⟩, high⟩ := inode
  exact .of_le (by omega) (by omega)

theorem record_off_boot (low : 512 ≤ mnt.fLbaStart.toNat) (record : Record mnt a) :
    Apart a 512 mnt.fLbaStart HefsBootNode.size := by
  rcases record with rfl | ⟨⟨j, position⟩, high⟩
  · have start := mnt.start_lt
    have size : HefsBootNode.size = 513 := rfl
    exact .of_le (by omega) (by simpa using low)
  · have last := indEnd_toNat mnt
    exact offBoot_behind (by omega) (by omega)

theorem record_off_slot (record : Record mnt a) (inside : InRegion mnt s) : Apart a 512 s 512 := by
  rcases record with rfl | inode
  · obtain ⟨⟨j, position⟩, high⟩ := inside
    have first := indStart_toNat mnt
    have last := indEnd_toNat mnt
    refine .of_le (by omega) ?_
    simp
    omega
  · exact (slot_off_inode inside inode).symm

theorem records_apart (record : Record mnt a) (inode : OnCursor mnt b) (distinct : a ≠ b) : Apart a 512 b 512 := by
  obtain ⟨⟨j, position⟩, high⟩ := inode
  rcases record with rfl | ⟨⟨j', position'⟩, high'⟩
  · have first := indStart_toNat mnt
    have last := indEnd_toNat mnt
    refine .of_le (by omega) ?_
    simp
    omega
  · have apart : j ≠ j' := by
      rintro rfl
      exact distinct (BitVec.eq_of_toNat_eq (by rw [position, position']))
    rcases Nat.lt_or_gt_of_ne apart with before | behind
    · exact (Apart.of_le (by omega) (by omega)).symm
    · exact .of_le (by omega) (by omega)

end Ranges

theorem get_place {f : Field} {disk : Memory} {s : Lba} {body : Image} (inside : f.off + f.size ≤ 512) :
    f.get (directoryAt (place disk s 512 body) s) = f.get body := by
  rw [directoryAt, show HefsIndexNodeDirectory.size = 512 from rfl, window_place_same, get_trim inside]

/-! ## A balance without rotations -/

/-- A node that no round rotates: it is free or has no child. -/
def Unturned (disk : Memory) (s : Lba) : Prop := dirHash disk s = 0 ∨ fChild.get (directoryAt disk s) = 0

section Unturned
variable {mnt : DriveTrait} {boot : Image} {σ : Mount} {start s : Lba}

theorem blackened_child : fChild.get (blackened mnt boot start σ).1 = fChild.get (directoryAt σ.disk start) := by
  unfold blackened
  simp only [ioDrvInput_directory]
  split
  · exact Field.get_set_other (by decide)
  · rfl

theorem blackened_hash : dirHash (blackened mnt boot start σ).2.disk start = dirHash σ.disk start := by
  unfold blackened
  simp only [ioDrvInput_directory]
  split
  · by_cases refused : mnt.fPacketReadOnly = true ∨ start = 0
    · rw [ioDrvOutput_refused refused]
      simp
    · obtain ⟨writable, nonzero⟩ := not_or.mp refused
      rw [ioDrvOutput_taken (Bool.eq_false_iff.mpr writable) nonzero]
      simp only [completed_disk]
      exact (get_place (by decide)).trans (Field.get_set_other (by decide))
  · simp

theorem Unturned.still (unturned : Unturned σ.disk start) (child : fChild.get (blackened mnt boot start σ).1 ≠ 0) :
    ¬ Rotates (blackened mnt boot start σ).2.disk start := by
  rintro ⟨used, -⟩
  rcases unturned with free | childless
  · exact used (blackened_hash.trans free)
  · exact child (blackened_child.trans childless)

theorem unturned_round (unturned : Unturned σ.disk start) (apart : Apart s 512 start 512) :
    directoryAt (balanceNode mnt boot start σ).disk s = directoryAt σ.disk s := by
  have writes : Writes (fun p => p.content = .directory ∧ p.fPacketLba = start) σ (balanceNode mnt boot start σ) :=
    balanceNode_writes (fun _ => ⟨rfl, rfl⟩) fun _ child rotates => absurd rotates (unturned.still child)
  apply window_congr
  intro x inside
  apply writes.disk_eq
  rintro ⟨content, lba, body⟩ ⟨rfl, rfl⟩ covered
  exact apart x inside covered

theorem unturned_balance {scan : List Lba} (apart : scan.Pairwise fun a b => Apart b 512 a 512)
    (spare : ∀ s ∈ scan, SpareNode mnt s) (unturned : ∀ s ∈ scan, Unturned σ.disk s) :
    BalanceAll mnt boot (Spares mnt boot) scan σ := by
  induction scan generalizing σ with
  | nil => trivial
  | cons start rest ih =>
      intro _
      have here := unturned start (by simp)
      obtain ⟨before, apart⟩ := List.pairwise_cons.mp apart
      refine ⟨.inr ⟨(spare start (by simp)).1, fun _ => ⟨(spare start (by simp)).2, fun child rotates => ?_⟩⟩,
        ih apart ?_ ?_⟩
      · exact absurd rotates (here.still child)
      · exact fun s member => spare s (by simp [member])
      · intro s member
        rw [Unturned, dirHash, unturned_round here (before s member)]
        exact unturned s (by simp [member])

theorem indScan_apart (sane : BootSane mnt boot) : (indScan boot).Pairwise fun a b => Apart b 512 a 512 := by
  have last := indEnd_toNat mnt
  have room : (fEndIND.get boot).toNat + kNodeSize.toNat < 2 ^ 64 := by
    rw [sane.endIND]
    simp [kNodeSize]
    omega
  have first : (fStartIND.get boot).toNat ≤ (fEndIND.get boot).toNat := by
    rw [sane.startIND, sane.endIND]
    exact last.1
  refine (scan_rises (indScan_stays boot) room first).imp_of_mem fun {a b} _ visited order => ?_
  have bound := (indScan_bounds sane visited).2
  have size : kNodeSize.toNat = 512 := rfl
  exact (Apart.of_le (by omega) (by omega)).symm

theorem InRegion.spare (inside : InRegion mnt s) : SpareNode mnt s := by
  obtain ⟨⟨j, position⟩, room⟩ := inside
  have last := indEnd_toNat mnt
  constructor <;> intro i low high <;> rw [Loose, offset_toNat (by omega)] <;> right <;> left <;> omega

theorem OnCursor.spare (inode : OnCursor mnt s) : SpareNode mnt s := by
  obtain ⟨⟨j, position⟩, room⟩ := inode
  constructor <;> intro i low high <;> rw [Loose, offset_toNat (by omega)] <;> right <;> right <;> omega

end Unturned

/-! ## Changes of the names -/

/-- The node at `s₀` now has the hash `hash` and no slices, and all others are what they were. -/
structure SlotChanged (mnt : DriveTrait) (disk disk' : Memory) (s₀ : Lba) (hash : BitVec 64) : Prop where
  others : ∀ s ∈ slotsOf mnt, s ≠ s₀ → dirHash disk' s = dirHash disk s
  cells : ∀ s, InRegion mnt s → s ≠ s₀ → ∀ i, sliceOf disk' s i = sliceOf disk s i
  lives : ∀ s, InRegion mnt s → s ≠ s₀ → Live disk s → Live disk' s
  keys : ∀ a, Record mnt a → inodeKey disk' a = inodeKey disk a
  own : dirHash disk' s₀ = hash ∧ ∀ i, sliceOf disk' s₀ i = 0
  live : hash ≠ 0 → Live disk' s₀

/-- Slice `i₀` of the node at `s₀` is now `cell`, and the index node at `a₀` has the key `key`. -/
structure CellChanged (mnt : DriveTrait) (disk disk' : Memory) (s₀ : Lba) (i₀ : Fin kOpenHeFSSliceCount)
    (cell a₀ : Lba) (key : BitVec 64 × BitVec 64) : Prop where
  hashes : ∀ s ∈ slotsOf mnt, dirHash disk' s = dirHash disk s
  cells : ∀ s, InRegion mnt s → ∀ i, sliceOf disk' s i = if s = s₀ ∧ i = i₀ then cell else sliceOf disk s i
  lives : ∀ s, InRegion mnt s → Live disk s → Live disk' s
  keys : ∀ a, Record mnt a → inodeKey disk' a = if a = a₀ then key else inodeKey disk a

section Core
variable {mnt : DriveTrait} {disk disk' disk'' : Memory} {s s₀ a a₀ cell : Lba} {hash : BitVec 64}
  {i₀ : Fin kOpenHeFSSliceCount} {key : BitVec 64 × BitVec 64}

theorem live_core (same : SameCore mnt disk disk') (inside : InRegion mnt s) (live : Live disk s) : Live disk' s := by
  rw [Live, slot_core same inside (by decide), slot_core same inside (by decide)]
  exact live

theorem SlotChanged.core (changed : SlotChanged mnt disk disk' s₀ hash) (same : SameCore mnt disk' disk'')
    (inside : InRegion mnt s₀) : SlotChanged mnt disk disk'' s₀ hash where
  others s member distinct := (dirHash_core same member).trans (changed.others s member distinct)
  cells s region distinct i := (sliceOf_core same region).trans (changed.cells s region distinct i)
  lives s region distinct live := live_core same region (changed.lives s region distinct live)
  keys a record := (inodeKey_core same record).trans (changed.keys a record)
  own := ⟨(dirHash_core same inside.mem).trans changed.own.1,
    fun i => (sliceOf_core same inside).trans (changed.own.2 i)⟩
  live used := live_core same inside (changed.live used)

theorem CellChanged.core (changed : CellChanged mnt disk disk' s₀ i₀ cell a₀ key)
    (same : SameCore mnt disk' disk'') : CellChanged mnt disk disk'' s₀ i₀ cell a₀ key where
  hashes s member := (dirHash_core same member).trans (changed.hashes s member)
  cells s region i := (sliceOf_core same region).trans (changed.cells s region i)
  lives s region live := live_core same region (changed.lives s region live)
  keys a record := (inodeKey_core same record).trans (changed.keys a record)

end Core

/-! ## The three stores -/

section Stores
variable {mnt : DriveTrait} {boot node : Image} {σ : Mount} {start : Lba} {i : Fin kOpenHeFSSliceCount}
  {dir : Path} {flags : BitVec 16} {deleteOrCreate : Bool} {f : Field} {disk : Memory} {body : Image} {s : Lba}

theorem get_zeroed : f.get zeroed = 0 := by
  have fits := f.fits
  have none : load zeroed (BitVec.ofNat 64 f.off) f.size = 0 := load_zero (by omega) fun _ _ => rfl
  rw [Field.get, none]
  rfl

theorem directory_hash {tmpdir : Image} : fHashPath.get
    (directoryEntry boot dir flags deleteOrCreate tmpdir disk) = if deleteOrCreate then 0 else hefsiHash64 dir := by
  simp (disch := decide) only [directoryEntry, sealDirectory_get, Field.get_set_other]
  exact Field.get_set_full rfl

theorem directory_slice {tmpdir : Image} : (fINSlices i).get
    (directoryEntry boot dir flags deleteOrCreate tmpdir disk) = 0 := by
  rw [directoryEntry, sealDirectory_get (slice_disjoint i (by decide))]
  iterate 9 rw [Field.get_set_other (slice_disjoint i (by decide))]
  exact get_zeroed

theorem directory_live {tmpdir : Image} : fCreated.get
    (directoryEntry boot dir flags false tmpdir disk) ≠ 0 := by
  simp (disch := decide) only [directoryEntry, sealDirectory_get, Field.get_set_other]
  rw [Field.get_set_full rfl]
  decide

theorem slice_fits (i : Fin kOpenHeFSSliceCount) : (fINSlices i).off + (fINSlices i).size ≤ 512 := by
  have bound : i.val < 16 := i.isLt
  have place : (fINSlices i).off = 66 + 8 * i.val ∧ (fINSlices i).size = 8 := ⟨rfl, rfl⟩
  omega

theorem boot_nonzero (low : 512 ≤ mnt.fLbaStart.toNat) : mnt.fLbaStart ≠ 0 := by
  intro zero
  rw [zero] at low
  simp at low

theorem InRegion.ne_zero (inside : InRegion mnt start) : start ≠ 0 := by
  rintro rfl
  obtain ⟨⟨j, position⟩, -⟩ := inside
  have first := indStart_toNat mnt
  simp at position
  omega

theorem OnCursor.ne_zero {a : Lba} (inode : OnCursor mnt a) : a ≠ 0 := by
  rintro rfl
  obtain ⟨⟨j, position⟩, -⟩ := inode
  have first := indStart_toNat mnt
  have last := indEnd_toNat mnt
  simp at position
  omega

theorem placed_slot (low : 512 ≤ mnt.fLbaStart.toNat) (inside : InRegion mnt start) {boot : Image}
    {hash : BitVec 64} (named : fHashPath.get body = hash) (bare : ∀ i, (fINSlices i).get body = 0)
    (live : hash ≠ 0 → fCreated.get body ≠ 0) : SlotChanged mnt disk
      (place (place disk start 512 body) mnt.fLbaStart HefsBootNode.size boot) start hash := by
  have here : directoryAt (place (place disk start 512 body) mnt.fLbaStart HefsBootNode.size boot) start =
      directoryAt (place disk start 512 body) start := directoryAt_place (slot_off_boot inside.mem)
  have there (s : Lba) (region : s ∈ slotsOf mnt) (distinct : s ≠ start) :
      directoryAt (place (place disk start 512 body) mnt.fLbaStart HefsBootNode.size boot) s = directoryAt disk s :=
    (directoryAt_place (slot_off_boot region)).trans (directoryAt_place (slots_apart region inside.mem distinct))
  constructor
  · intro s member distinct
    rw [dirHash, there s member distinct, dirHash]
  · intro s region distinct i
    rw [sliceOf, there s region.mem distinct, sliceOf]
  · intro s region distinct isLive
    rw [Live, there s region.mem distinct]
    exact isLive
  · intro a record
    rw [inodeKey_place (record_off_boot low record), inodeKey_place (record_off_slot record inside)]
  · constructor
    · rw [dirHash, here, get_place (by decide), named]
    · intro i
      rw [sliceOf, here, get_place (slice_fits i), bare]
  · intro used
    left
    rw [here, get_place (by decide)]
    exact live used

theorem storeDirectory_changed (writable : mnt.fPacketReadOnly = false) (low : 512 ≤ mnt.fLbaStart.toNat)
    (inside : InRegion mnt start) :
    SlotChanged mnt σ.disk (storeDirectory mnt boot dir flags deleteOrCreate start σ).2.disk start
      (if deleteOrCreate then 0 else hefsiHash64 dir) ∧
    (storeDirectory mnt boot dir flags deleteOrCreate start σ).2.fPacketGood = σ.fPacketGood := by
  constructor
  · have stored : (storeDirectory mnt boot dir flags deleteOrCreate start σ).2.disk =
        place (place σ.disk start 512 (directoryEntry boot dir flags deleteOrCreate (directoryAt σ.disk start) σ.disk))
          mnt.fLbaStart HefsBootNode.size (sealBoot (counted deleteOrCreate boot)) := by
      rw [storeDirectory, ioDrvOutput_taken writable (boot_nonzero low), ioDrvOutput_taken writable inside.ne_zero,
        completed_disk, completed_disk]
      rfl
    rw [stored]
    refine placed_slot low inside directory_hash (fun i => directory_slice) fun used => ?_
    cases deleteOrCreate with
    | false => exact directory_live
    | true => exact absurd (if_pos rfl) used
  · rw [storeDirectory, ioDrvOutput_taken writable (boot_nonzero low), ioDrvOutput_taken writable inside.ne_zero,
      completed_good, completed_good]

theorem recounted_get {cell count : Lba} {dir : Image} (other : f.Disjoint fEntryCount)
    (sum : f.Disjoint HefsIndexNodeDirectory.fChecksum) (slice : f.Disjoint (fINSlices i)) :
    f.get (sealDirectory (fEntryCount.set count ((fINSlices i).set cell dir))) = f.get dir := by
  rw [sealDirectory_get sum, Field.get_set_other other, Field.get_set_other slice]

theorem slices_disjoint {j : Fin kOpenHeFSSliceCount} (distinct : j ≠ i) : (fINSlices j).Disjoint (fINSlices i) := by
  have first : (fINSlices j).off = 66 + 8 * j.val ∧ (fINSlices j).size = 8 := ⟨rfl, rfl⟩
  have second : (fINSlices i).off = 66 + 8 * i.val ∧ (fINSlices i).size = 8 := ⟨rfl, rfl⟩
  have apart : j.val ≠ i.val := fun same => distinct (Fin.ext same)
  unfold Field.Disjoint
  omega

/-- The node `directory` with slice `i` set, its entries counted again. -/
def recounted (i : Fin kOpenHeFSSliceCount) (cell count : Lba) (directory : Image) : Image :=
  sealDirectory (fEntryCount.set count ((fINSlices i).set cell directory))

theorem cellChanged_of {disk' : Memory} {a₀ cell : Lba} {key : BitVec 64 × BitVec 64}
    (hashes : ∀ s ∈ slotsOf mnt, s ≠ start → dirHash disk' s = dirHash disk s)
    (there : ∀ s, InRegion mnt s → s ≠ start → directoryAt disk' s = directoryAt disk s)
    (here : ∃ count, directoryAt disk' start = window (recounted i cell count (directoryAt disk start)) 0 512)
    (keys : ∀ a, Record mnt a → inodeKey disk' a = if a = a₀ then key else inodeKey disk a) :
    CellChanged mnt disk disk' start i cell a₀ key := by
  obtain ⟨count, here⟩ := here
  have kept {f : Field} (other : f.Disjoint fEntryCount) (sum : f.Disjoint HefsIndexNodeDirectory.fChecksum)
      (slice : f.Disjoint (fINSlices i)) (inside : f.off + f.size ≤ 512) :
      f.get (directoryAt disk' start) = f.get (directoryAt disk start) := by
    rw [here, get_trim inside, recounted, recounted_get other sum slice]
  constructor
  · intro s member
    by_cases own : s = start
    · rw [own]
      exact kept (by decide) (by decide) ((slice_disjoint i (by decide)).symm) (by decide)
    · exact hashes s member own
  · intro s region j
    by_cases own : s = start
    · rw [own]
      by_cases same : j = i
      · rw [if_pos ⟨rfl, same⟩, same, sliceOf, here, get_trim (slice_fits i)]
        exact linked_slice i cell count _
      · rw [if_neg fun both => same both.2]
        exact kept (slice_disjoint j (by decide)) (slice_disjoint j (by decide)) (slices_disjoint same) (slice_fits j)
    · rw [if_neg fun both => own both.1, sliceOf, there s region own, sliceOf]
  · intro s region live
    by_cases own : s = start
    · rw [own, Live, kept (by decide) (by decide) ((slice_disjoint i (by decide)).symm) (by decide),
        kept (by decide) (by decide) ((slice_disjoint i (by decide)).symm) (by decide)]
      rwa [own] at live
    · rw [Live, there s region own]
      exact live
  · exact keys

theorem inodeEntry_kind {bits : BitVec 32} {name : Path} {kind : BitVec 8} :
    HefsIndexNode.fKind.get (inodeEntry bits name deleteOrCreate kind) = kind.setWidth 64 := by
  simp (disch := decide) only [inodeEntry, Field.get_set_other, Field.get_set_same]
  apply BitVec.eq_of_toNat_eq
  have small := kind.isLt
  simp [HefsIndexNode.fKind]
  omega

theorem inodeKey_own {a : Lba} : inodeKey (place disk a 512 node) a =
    (HefsIndexNode.fHashPath.get node, HefsIndexNode.fKind.get node) := by
  rw [inodeKey, inodeAt, show HefsIndexNode.size = 512 from rfl, window_place_same, get_trim (by decide),
    get_trim (by decide)]

theorem directory_size : Content.directory.size = 512 := rfl

theorem inode_size : Content.inode.size = 512 := rfl

theorem boot_size : Content.boot.size = HefsBootNode.size := rfl

section Files
variable {bits : BitVec 32} {name : Path} {kind : BitVec 8} (writable : mnt.fPacketReadOnly = false)
  (low : 512 ≤ mnt.fLbaStart.toNat) (inside : InRegion mnt start)
  (room : ∀ s ∈ slotsOf mnt, s.toNat + 8 ≤ (indEnd mnt).toNat)
include writable low inside room

theorem linkINode_changed (cursor : OnCursor mnt (fStartIN.get boot)) :
    CellChanged mnt σ.disk (linkINode mnt boot start i (inodeEntry bits name false kind) σ).2.disk start i
      (fStartIN.get boot) (fStartIN.get boot) (hefsiHash64 name, kind.setWidth 64) ∧
    (linkINode mnt boot start i (inodeEntry bits name false kind) σ).2.fPacketGood = σ.fPacketGood := by
  unfold linkINode
  dsimp only
  rw [linked_slice, ioDrvOutput_taken writable (boot_nonzero low), ioDrvOutput_taken writable cursor.ne_zero,
    ioDrvOutput_taken writable inside.ne_zero]
  simp only [completed_disk, completed_good, and_true, directory_size, inode_size, boot_size]
  refine cellChanged_of ?_ ?_ ?_ ?_
  · intro s member distinct
    rw [dirHash_place ((slot_off_boot member).mono (by decide) le_rfl),
      dirHash_place (hash_off_inode (room s member) cursor),
      dirHash_place ((slots_apart member inside.mem distinct).mono (by decide) le_rfl)]
  · intro s region distinct
    rw [directoryAt_place (slot_off_boot region.mem), directoryAt_place (slot_off_inode region cursor),
      directoryAt_place (slots_apart region.mem inside.mem distinct)]
  · rw [directoryAt_place (slot_off_boot inside.mem), directoryAt_place (slot_off_inode inside cursor)]
    exact ⟨_, window_place_same⟩
  · intro a record
    rw [inodeKey_place (record_off_boot low record)]
    split
    · rename_i own
      rw [own, inodeKey_own, sealINode]
      simp (disch := decide) only [Field.get_set_other, inodeEntry_hash, inodeEntry_kind]
    · rename_i distinct
      rw [inodeKey_place (records_apart record cursor distinct), inodeKey_place (record_off_slot record inside)]

theorem unlinkINode_changed (cursor : OnCursor mnt (sliceOf σ.disk start i)) :
    CellChanged mnt σ.disk (unlinkINode mnt boot start i (inodeEntry bits name true kind) σ).2.disk start i
      0 (sliceOf σ.disk start i) (hefsiHash64 name, kind.setWidth 64) ∧
    (unlinkINode mnt boot start i (inodeEntry bits name true kind) σ).2.fPacketGood = σ.fPacketGood := by
  have slice : (fINSlices i).get (directoryAt σ.disk start) = sliceOf σ.disk start i := rfl
  unfold unlinkINode
  dsimp only
  rw [slice, ioDrvOutput_taken writable inside.ne_zero, ioDrvOutput_taken writable cursor.ne_zero,
    ioDrvOutput_taken writable (boot_nonzero low)]
  simp only [completed_disk, completed_good, and_true, directory_size, inode_size, boot_size]
  refine cellChanged_of ?_ ?_ ?_ ?_
  · intro s member distinct
    rw [dirHash_place ((slots_apart member inside.mem distinct).mono (by decide) le_rfl),
      dirHash_place (hash_off_inode (room s member) cursor),
      dirHash_place ((slot_off_boot member).mono (by decide) le_rfl)]
  · intro s region distinct
    rw [directoryAt_place (slots_apart region.mem inside.mem distinct),
      directoryAt_place (slot_off_inode region cursor), directoryAt_place (slot_off_boot region.mem)]
  · exact ⟨_, window_place_same⟩
  · intro a record
    rw [inodeKey_place (record_off_slot record inside)]
    split
    · rename_i own
      rw [own, inodeKey_own]
      simp (disch := decide) only [Field.get_set_other, inodeEntry_hash, inodeEntry_kind]
    · rename_i distinct
      rw [inodeKey_place (records_apart record cursor distinct),
        inodeKey_place (record_off_boot low record)]

end Files

end Stores

end Ne.Kernel.FS
