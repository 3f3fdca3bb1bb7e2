import Mathlib.Data.BitVec
import NeKernel.FS.Lookups
import NeKernel.FS.BootSteps
import NeKernel.Lib.ScanTable

/-!
# The names on a volume

A lookup reads the hashes and slices of directory nodes and the hashes and kinds of index nodes. All other
bytes behind sector 0 and outside the boot node can change without any effect on it.
-/

namespace Ne.Kernel.FS
open ByteMem Strides ScanTable
open HefsBootNode hiding size fChecksum
open HefsIndexNodeDirectory hiding size fChecksum

def dirHash (disk : Memory) (s : Lba) : BitVec 64 := fHashPath.get (directoryAt disk s)

def sliceOf (disk : Memory) (s : Lba) (i : Fin kOpenHeFSSliceCount) : Lba := (fINSlices i).get (directoryAt disk s)

/-- What a lookup compares of an index node. -/
def inodeKey (disk : Memory) (a : Lba) : BitVec 64 × BitVec 64 :=
  (HefsIndexNode.fHashPath.get (inodeAt disk a), HefsIndexNode.fKind.get (inodeAt disk a))

def namesOn (disk : Memory) : Table Lba (BitVec 64) (Fin kOpenHeFSSliceCount) Lba (BitVec 64 × BitVec 64) :=
  ⟨dirHash disk, sliceOf disk, inodeKey disk⟩

def HefsFile.key (file : HefsFile) : BitVec 64 × BitVec 64 := (hefsiHash64 file.name, file.kind.setWidth 64)

/-- The directory nodes a lookup scans. -/
def slotsOf (mnt : DriveTrait) : List Lba :=
  scan kNodeSize (fun start => start ≥ indEnd mnt) kNodeMax (indStart mnt)

section Lookups
variable {mnt : DriveTrait} {boot node : Image} {disk : Memory} {file : HefsFile} {slots : List Lba} {s : Lba}
  {dirName fileName : BitVec 64} {kind : BitVec 8} {σ : Mount}

theorem lookupScan_eq (sane : BootSane mnt boot) : lookupScan boot = slotsOf mnt := by
  rw [lookupScan, sane.startIND, sane.endIND, slotsOf]

theorem fetchFrom_isSome : (fetchFrom disk dirName fileName kind slots).isSome ↔
    Has slots (namesOn disk) dirName (fileName, kind.setWidth 64) := by
  have matches_iff (start : Lba) : (((slices (directoryAt disk start)).map (inodeAt disk)).find?
      (inodeMatches fileName kind)).isSome ↔
        ∃ i, (namesOn disk).record ((namesOn disk).cell start i) = (fileName, kind.setWidth 64) := by
    simp only [List.find?_isSome, List.mem_map, slices, List.mem_finRange, true_and, inodeMatches,
      decide_eq_true_iff, namesOn, inodeKey, sliceOf, Prod.mk.injEq]
    constructor
    · rintro ⟨_, ⟨_, ⟨i, rfl⟩, rfl⟩, hash, kind⟩
      exact ⟨i, hash.symm, kind⟩
    · rintro ⟨i, hash, kind⟩
      exact ⟨_, ⟨_, ⟨i, rfl⟩, rfl⟩, hash.symm, kind⟩
  induction slots with
  | nil =>
      simp [fetchFrom, Has, Reached]
  | cons start rest ih =>
      have hash : (namesOn disk).hash start = fHashPath.get (directoryAt disk start) := rfl
      rw [fetchFrom, has_cons, hash]
      by_cases free : fHashPath.get (directoryAt disk start) = 0
      · simp [free]
      by_cases named : dirName = fHashPath.get (directoryAt disk start)
      · have here := matches_iff start
        have entry (i : Fin kOpenHeFSSliceCount) : Entry (namesOn disk) start i dirName (fileName, kind.setWidth 64) ↔
            (namesOn disk).record ((namesOn disk).cell start i) = (fileName, kind.setWidth 64) := by
          simp [Entry, hash, named]
        simp only [entry]
        rw [if_neg free, if_pos named]
        cases found : ((slices (directoryAt disk start)).map (inodeAt disk)).find? (inodeMatches fileName kind) with
        | some node =>
            rw [found] at here
            simp only [Option.isSome_some, true_iff] at here ⊢
            exact ⟨free, .inl here⟩
        | none =>
            rw [found] at here
            simp only [Option.isSome_none, Bool.false_eq_true, false_iff] at here
            exact ih.trans ⟨fun later => ⟨free, .inr later⟩, fun found => found.2.resolve_left here⟩
      · have entry (i : Fin kOpenHeFSSliceCount) :
            ¬ Entry (namesOn disk) start i dirName (fileName, kind.setWidth 64) := fun found => named found.1.symm
        rw [if_neg free, if_neg named]
        exact ih.trans ⟨fun later => ⟨free, .inr later⟩,
          fun found => found.2.resolve_left (not_exists.mpr entry)⟩

theorem inodeOf_isSome (sane : BootSane mnt (bootAt mnt disk)) :
    (inodeOf mnt disk file).isSome ↔ fStartIN.get (bootAt mnt disk) ≤ inEnd mnt ∧
      Has (slotsOf mnt) (namesOn disk) (hefsiHash64 file.dir) file.key := by
  have ordered : ¬ fStartIND.get (bootAt mnt disk) > fEndIND.get (bootAt mnt disk) := by
    rw [sane.startIND, sane.endIND]
    exact BitVec.not_lt.mpr (indEnd_toNat mnt).1
  rw [inodeOf, sane.endIN, HefsFile.key, ← fetchFrom_isSome, ← lookupScan_eq sane]
  by_cases room : fStartIN.get (bootAt mnt disk) ≤ inEnd mnt
  · rw [if_pos ⟨sane.valid, ordered, BitVec.not_lt.mpr room⟩]
    simp [room]
  · rw [if_neg fun checks => room (BitVec.not_lt.mp checks.2.2)]
    simp [room]

theorem exists_iff (file : HefsFile) (sane : BootSane mnt (bootAt mnt σ.disk))
    (uncorrupted : (mnt.completed σ).errGlobal ≠ kErrorDiskIsCorrupted) :
    (iNodeExists mnt file.dir file.name file.kind σ).1 = true ↔
      file.dir.length ≤ kOpenHeFSFileNameLen ∧ file.name.length ≤ kOpenHeFSFileNameLen ∧
        fStartIN.get (bootAt mnt σ.disk) ≤ inEnd mnt ∧
          Has (slotsOf mnt) (namesOn σ.disk) (hefsiHash64 file.dir) file.key := by
  rw [exists_iff_holds, ← inodeOf_isSome sane, Option.isSome_iff_exists]
  constructor
  · rintro ⟨node, held⟩
    exact ⟨held.dir_fits, held.name_fits, node, held.inode⟩
  · rintro ⟨dirFits, nameFits, node, found⟩
    exact ⟨node, dirFits, nameFits, uncorrupted, found⟩

theorem slots_stay (x : Lba) (going : (fun start => decide (start ≥ indEnd mnt)) x = false) :
    x.toNat ≤ (indEnd mnt).toNat := by
  simp only [decide_eq_false_iff_not, BitVec.not_le] at going
  exact Nat.le_of_lt (BitVec.lt_def.mp going)

theorem slots_room : (indEnd mnt).toNat + kNodeSize.toNat < 2 ^ 64 := by
  have bounds := indEnd_toNat mnt
  simp [kNodeSize]
  omega

theorem slot_grid (member : s ∈ slotsOf mnt) : (∃ j, s.toNat = (indStart mnt).toNat + 512 * j) ∧
    s.toNat ≤ (indEnd mnt).toNat := by
  have bounds := indEnd_toNat mnt
  refine ⟨?_, (scan_bounds slots_stay slots_room bounds.1 member).2⟩
  obtain ⟨j, position⟩ := scan_aligned slots_stay slots_room bounds.1 member
  exact ⟨j, by rw [position, Nat.mul_comm]; rfl⟩

theorem slots_nodup : (slotsOf mnt).Nodup := by
  have bounds := indEnd_toNat mnt
  refine (scan_rises slots_stay slots_room bounds.1).imp fun {x y} apart same => ?_
  rw [same] at apart
  simp [kNodeSize] at apart

end Lookups

/-! ## Bytes that no lookup reads -/

/-- The byte lies in front of the volume but not in sector 0, in the checksum, the colour or the links of a
directory node, or in the flags, the checksum or the rest of an index node. -/
def Loose (mnt : DriveTrait) (x : Lba) : Prop :=
  512 ≤ x.toNat ∧ x.toNat < mnt.fLbaStart.toNat ∨
  ((indStart mnt).toNat ≤ x.toNat ∧ x.toNat < (indEnd mnt).toNat ∧
    (18 ≤ (x.toNat - (indStart mnt).toNat) % 512 ∧ (x.toNat - (indStart mnt).toNat) % 512 < 22 ∨
      194 ≤ (x.toNat - (indStart mnt).toNat) % 512 ∧ (x.toNat - (indStart mnt).toNat) % 512 < 227)) ∨
  (indEnd mnt).toNat ≤ x.toNat ∧
    (8 ≤ (x.toNat - (indEnd mnt).toNat) % 512 ∧ (x.toNat - (indEnd mnt).toNat) % 512 < 12 ∨
      14 ≤ (x.toNat - (indEnd mnt).toNat) % 512)

instance (mnt : DriveTrait) (x : Lba) : Decidable (Loose mnt x) := by
  unfold Loose
  infer_instance

/-- Disks that differ in loose bytes only. -/
def SameCore (mnt : DriveTrait) (disk disk' : Memory) : Prop := ∀ x, ¬ Loose mnt x → disk' x = disk x

/-- A directory node slot that ends in the region. -/
def InRegion (mnt : DriveTrait) (s : Lba) : Prop :=
  (∃ j, s.toNat = (indStart mnt).toNat + 512 * j) ∧ s.toNat + 512 ≤ (indEnd mnt).toNat

/-- An address the cursor for index nodes goes through. -/
def OnCursor (mnt : DriveTrait) (a : Lba) : Prop :=
  (∃ j, a.toNat = (indEnd mnt).toNat + 512 * j) ∧ a.toNat < 2 ^ 61

theorem InRegion.mem {mnt : DriveTrait} {s : Lba} (inside : InRegion mnt s) : s ∈ slotsOf mnt := by
  obtain ⟨⟨j, position⟩, high⟩ := inside
  have last := indEnd_toNat mnt
  have stride (i : Nat) (bound : i ≤ j) :
      (indStart mnt + BitVec.ofNat 64 i * kNodeSize).toNat = (indStart mnt).toNat + 512 * i := by
    have size : kNodeSize.toNat = 512 := rfl
    have small : i < 2 ^ 64 := by omega
    have product : (BitVec.ofNat 64 i * kNodeSize).toNat = 512 * i := by
      rw [BitVec.toNat_mul, BitVec.toNat_ofNat, size, Nat.mod_eq_of_lt small, Nat.mul_comm]
      exact Nat.mod_eq_of_lt (by omega)
    rw [BitVec.toNat_add, product]
    exact Nat.mod_eq_of_lt (by omega)
  have here : s = indStart mnt + BitVec.ofNat 64 j * kNodeSize := by
    apply BitVec.eq_of_toNat_eq
    rw [stride j le_rfl, position]
  rw [here]
  refine mem_scan (by unfold kNodeMax; omega) fun i _ bound => ?_
  rw [decide_eq_false_iff_not, BitVec.not_le, BitVec.lt_def, stride i bound]
  omega

section Core
variable {mnt : DriveTrait} {disk disk' disk'' : Memory} {s a x : Lba} {body : Image} {f : Field} {v : BitVec 64}

theorem SameCore.refl : SameCore mnt disk disk := fun _ _ => rfl

theorem SameCore.trans (first : SameCore mnt disk disk') (second : SameCore mnt disk' disk'') :
    SameCore mnt disk disk'' := fun x core => (second x core).trans (first x core)

theorem get_core (inside : f.off + f.size ≤ 512) (same : ∀ i : BitVec 64, f.off ≤ i.toNat → i.toNat < f.off + f.size →
    disk' (a + i) = disk (a + i)) : f.get (window disk' a 512) = f.get (window disk a 512) := by
  refine Field.get_congr fun i low high => ?_
  rw [window, window, if_pos (by omega), if_pos (by omega)]
  exact same i low high

theorem offset_toNat {i : BitVec 64} (room : a.toNat + i.toNat < 2 ^ 64) : (a + i).toNat = a.toNat + i.toNat := by
  rw [BitVec.toNat_add, Nat.mod_eq_of_lt room]

theorem dirHash_congr (same : ∀ i : BitVec 64, i.toNat < 8 → disk' (s + i) = disk (s + i)) :
    dirHash disk' s = dirHash disk s :=
  get_core (by decide) fun i _ high => same i (by simpa [fHashPath] using high)

theorem inodeKey_congr (same : ∀ i : BitVec 64, i.toNat < 8 ∨ 12 ≤ i.toNat ∧ i.toNat < 14 →
    disk' (a + i) = disk (a + i)) : inodeKey disk' a = inodeKey disk a := by
  have hash : HefsIndexNode.fHashPath.off = 0 ∧ HefsIndexNode.fHashPath.size = 8 := ⟨rfl, rfl⟩
  have kind : HefsIndexNode.fKind.off = 12 ∧ HefsIndexNode.fKind.size = 2 := ⟨rfl, rfl⟩
  refine Prod.ext (get_core (by decide) fun i low high => same i (.inl (by omega))) ?_
  exact get_core (by decide) fun i low high => same i (.inr (by omega))

theorem dirHash_core (same : SameCore mnt disk disk') (member : s ∈ slotsOf mnt) :
    dirHash disk' s = dirHash disk s := by
  obtain ⟨⟨j, position⟩, high⟩ := slot_grid member
  have first := indStart_toNat mnt
  have last := indEnd_toNat mnt
  refine dirHash_congr fun i bound => same _ fun loose => ?_
  rw [Loose, offset_toNat (by omega)] at loose
  omega

/-- The members of a node in the region, other than the ones that a balance changes. -/
theorem slot_core (same : SameCore mnt disk disk') (inside : InRegion mnt s)
    (steady : f.off + f.size ≤ 18 ∨ 22 ≤ f.off ∧ f.off + f.size ≤ 194) :
    f.get (directoryAt disk' s) = f.get (directoryAt disk s) := by
  obtain ⟨⟨j, position⟩, high⟩ := inside
  have first := indStart_toNat mnt
  have last := indEnd_toNat mnt
  refine get_core (by omega) fun i low bound => same _ fun loose => ?_
  rw [Loose, offset_toNat (by omega)] at loose
  omega

theorem sliceOf_core (same : SameCore mnt disk disk') (inside : InRegion mnt s) {i : Fin kOpenHeFSSliceCount} :
    sliceOf disk' s i = sliceOf disk s i := by
  have bound : i.val < 16 := i.isLt
  have place : (fINSlices i).off = 66 + 8 * i.val ∧ (fINSlices i).size = 8 := ⟨rfl, rfl⟩
  exact slot_core same inside (by omega)

theorem inodeKey_core (same : SameCore mnt disk disk') (place : a = 0 ∨ OnCursor mnt a) :
    inodeKey disk' a = inodeKey disk a := by
  have first := indStart_toNat mnt
  have last := indEnd_toNat mnt
  refine inodeKey_congr fun i bound => same _ fun loose => ?_
  rcases place with rfl | ⟨⟨j, position⟩, high⟩
  · rw [Loose, offset_toNat (by simp; omega), show (0 : Lba).toNat = 0 from rfl] at loose
    omega
  · rw [Loose, offset_toNat (by omega)] at loose
    omega

theorem bootAt_core (same : SameCore mnt disk disk') : bootAt mnt disk' = bootAt mnt disk := by
  have first := indStart_toNat mnt
  have last := indEnd_toNat mnt
  have start := mnt.start_lt
  apply window_congr
  intro x inside
  have size : HefsBootNode.size = 513 := rfl
  rw [within_iff (by omega)] at inside
  refine same x fun loose => ?_
  rw [Loose] at loose
  omega

end Core

/-! ## A balance that no lookup notices -/

/-- The `n` bytes at offset `lo` of the node at `a` are loose. -/
def SpareAt (mnt : DriveTrait) (a : Lba) (lo n : Nat) : Prop :=
  ∀ i : BitVec 64, lo ≤ i.toNat → i.toNat < lo + n → Loose mnt (a + i)

/-- The checksum, the colour and the links of a node at `a` lie on loose bytes. -/
def SpareNode (mnt : DriveTrait) (a : Lba) : Prop := SpareAt mnt a 18 4 ∧ SpareAt mnt a 194 33

/-- What a round changes lies on loose bytes, and a rotation puts the sibling where it came from. -/
def Spares (mnt : DriveTrait) (boot : Image) (start : Lba) (σ : Mount) : Prop :=
  Quiet boot start σ.disk ∨ SpareAt mnt start 18 4 ∧
    let (dir, σ) := blackened mnt boot start σ
    fColor.get dir = kOpenHeFSBlack → SpareAt mnt start 194 33 ∧
      (fChild.get dir ≠ 0 → Rotates σ.disk start →
        fPrev.get (directoryAt σ.disk start) = fParent.get (directoryAt σ.disk start) ∧
          LinksIn (SpareNode mnt) σ.disk start)

/-- The body is the node at `a` but for loose bytes. -/
def Agrees (mnt : DriveTrait) (disk : Memory) (a : Lba) (body : Image) : Prop :=
  ∀ i : BitVec 64, i.toNat < 512 → ¬ Loose mnt (a + i) → body i = disk (a + i)

/-- The mount can still be written to, and its disk differs from `disk` in loose bytes only. -/
def Keeps (mnt : DriveTrait) (disk : Memory) (σ : Mount) : Prop :=
  SameCore mnt disk σ.disk ∧ σ.fPacketGood = true

section Balance
variable {mnt : DriveTrait} {disk disk' : Memory} {a start : Lba} {body dir boot : Image} {f : Field}
  {v : BitVec 64} {σ : Mount} {lo n : Nat}

theorem SpareAt.ne_zero (spare : SpareAt mnt a 18 4) : a ≠ 0 := by
  rintro rfl
  have first := indStart_toNat mnt
  have last := indEnd_toNat mnt
  have loose := spare 18 (by decide) (by decide)
  have byte : ((0 : Lba) + 18).toNat = 18 := rfl
  rw [Loose, byte] at loose
  omega

theorem agrees_directoryAt : Agrees mnt disk a (directoryAt disk a) := by
  intro i bound _
  rw [directoryAt, window]
  exact if_pos bound

theorem Agrees.set (agrees : Agrees mnt disk a body) (spare : SpareAt mnt a lo n)
    (inside : lo ≤ f.off ∧ f.off + f.size ≤ lo + n) : Agrees mnt disk a (f.set v body) := by
  intro i bound core
  rw [Field.set_outside, agrees i bound core]
  by_contra within
  exact core (spare i (by omega) (by omega))

theorem Agrees.sealed (agrees : Agrees mnt disk a body) (spare : SpareAt mnt a 18 4) :
    Agrees mnt disk a (sealDirectory body) := agrees.set spare (by decide)

theorem Agrees.of_core (agrees : Agrees mnt disk a body) (same : SameCore mnt disk disk') :
    Agrees mnt disk' a body := fun i bound core => (agrees i bound core).trans (same _ core).symm

theorem place_core (agrees : Agrees mnt disk a body) : SameCore mnt disk (place disk a 512 body) := by
  intro x core
  rw [place]
  split
  · rename_i inside
    have back : a + (x - a) = x := by rw [BitVec.add_comm, BitVec.sub_add_cancel]
    have byte := agrees (x - a) inside
    rw [back] at byte
    exact byte core
  · rfl

theorem Keeps.completed (keeps : Keeps mnt disk σ) : Keeps mnt disk (mnt.completed σ) := by
  rw [Keeps, completed_disk, completed_good]
  exact keeps

theorem Keeps.output (keeps : Keeps mnt disk σ) (writable : mnt.fPacketReadOnly = false)
    (spare : SpareAt mnt a 18 4) (agrees : Agrees mnt σ.disk a body) :
    Keeps mnt disk (ioDrvOutput mnt .directory a body σ) := by
  rw [ioDrvOutput_taken writable spare.ne_zero, Keeps, completed_disk, completed_good]
  exact ⟨keeps.1.trans (place_core agrees), keeps.2⟩

theorem Keeps.trans {σ' : Mount} (first : Keeps mnt disk σ) (second : Keeps mnt σ.disk σ') : Keeps mnt disk σ' :=
  ⟨first.1.trans second.1, second.2⟩

theorem Keeps.adopt (keeps : Keeps mnt disk σ) (writable : mnt.fPacketReadOnly = false) (spare : SpareNode mnt a)
    (crc parent : BitVec 64) : Keeps mnt disk (ioDrvOutput mnt .directory a
      (HefsIndexNodeDirectory.fChecksum.set crc (fParent.set parent (directoryAt σ.disk a))) (mnt.completed σ)) := by
  refine keeps.completed.output writable spare.1 ?_
  rw [completed_disk]
  exact (agrees_directoryAt.set spare.2 (by decide)).set spare.1 (by decide)

theorem rotate_keeps (writable : mnt.fPacketReadOnly = false) (good : σ.fPacketGood = true)
    (own : SpareNode mnt start) (home : Rotates σ.disk start →
      fPrev.get (directoryAt σ.disk start) = fParent.get (directoryAt σ.disk start) ∧
        LinksIn (SpareNode mnt) σ.disk start) : Keeps mnt σ.disk (hefsiRotateTree mnt start σ) := by
  have keeps : Keeps mnt σ.disk σ := ⟨SameCore.refl, good⟩
  unfold hefsiRotateTree
  rw [if_neg own.1.ne_zero]
  simp only [ioDrvInput_directory, completed_disk]
  split
  · exact keeps.completed
  rename_i curUsed
  split
  · exact keeps.completed.completed
  rename_i siblingUsed
  obtain ⟨home, parent, childCur, childSibling⟩ := home ⟨curUsed, siblingUsed⟩
  have parentKept (child : Lba) (dir : Image) :
      fParent.get (sealDirectory (fChild.set child dir)) = fParent.get dir := by
    rw [sealDirectory_get (by decide), Field.get_set_other (by decide)]
  have relinked {lba : Lba} (spare : SpareNode mnt lba) (child : Lba) :
      Agrees mnt σ.disk lba (sealDirectory (fChild.set child (directoryAt σ.disk lba))) :=
    (agrees_directoryAt.set spare.2 (by decide)).sealed spare.1
  rw [parentKept, home]
  have sibling := keeps.completed.completed.output writable parent.1
    ((relinked parent (fChild.get (directoryAt σ.disk start))).of_core keeps.completed.completed.1)
  have cur := sibling.output writable own.1
    ((relinked own (fChild.get (directoryAt σ.disk (fParent.get (directoryAt σ.disk start))))).of_core sibling.1)
  rw [home] at childSibling
  exact (cur.adopt writable childSibling _ _).adopt writable childCur _ _

theorem color_set : fColor.get (fColor.set kOpenHeFSBlack dir) = kOpenHeFSBlack := by
  rw [Field.get_set_same]
  rfl

theorem rotate_idle (idle : ¬ Rotates σ.disk start) : (hefsiRotateTree mnt start σ).disk = σ.disk ∧
    (hefsiRotateTree mnt start σ).fPacketGood = σ.fPacketGood := by
  unfold hefsiRotateTree
  split
  · exact ⟨rfl, rfl⟩
  simp only [ioDrvInput_directory, completed_disk]
  split
  · exact ⟨completed_disk, completed_good⟩
  rename_i curUsed
  split
  · simp
  rename_i siblingUsed
  exact absurd ⟨curUsed, siblingUsed⟩ idle

theorem quiet_keeps (good : σ.fPacketGood = true) (quiet : Quiet boot start σ.disk) :
    Keeps mnt σ.disk (balanceNode mnt boot start σ) := by
  have keeps : Keeps mnt σ.disk σ := ⟨SameCore.refl, good⟩
  obtain ⟨other, still⟩ := quiet
  rw [balanceNode, blackened_other other]
  dsimp only
  rcases still with ⟨plain, sum⟩ | ⟨black, child, idle, sum⟩
  · rw [turned, if_neg fun black => plain black.1, if_neg fun black => plain black.1, resealed_sealed sum]
    exact keeps.completed
  · rw [turned, if_pos ⟨black, child⟩, resealed_sealed sum]
    have still : ¬ Rotates (mnt.completed σ).disk start := by rwa [completed_disk]
    rw [Keeps, (rotate_idle still).1, (rotate_idle still).2]
    exact keeps.completed

section Rounds
variable (writable : mnt.fPacketReadOnly = false) (sum : SpareAt mnt start 18 4)
include writable sum

theorem blackened_keeps (keeps : Keeps mnt disk σ)
    (links : fColor.get (blackened mnt boot start σ).1 = kOpenHeFSBlack → SpareAt mnt start 194 33) :
    Keeps mnt disk (blackened mnt boot start σ).2 ∧
      Agrees mnt (blackened mnt boot start σ).2.disk start (blackened mnt boot start σ).1 := by
  unfold blackened at links ⊢
  simp only [ioDrvInput_directory] at links ⊢
  split
  · rename_i first
    rw [if_pos first] at links
    have agrees : Agrees mnt σ.disk start (fColor.set kOpenHeFSBlack (directoryAt σ.disk start)) :=
      agrees_directoryAt.set (links color_set) (by decide)
    have here : Keeps mnt (mnt.completed σ).disk (mnt.completed σ) := ⟨SameCore.refl, keeps.completed.2⟩
    have output := here.output writable sum (agrees.of_core (by rw [completed_disk]; exact SameCore.refl))
    have same := output.1
    rw [completed_disk] at same
    exact ⟨keeps.completed.trans output, agrees.of_core same⟩
  · rw [completed_disk]
    exact ⟨keeps.completed, agrees_directoryAt⟩

theorem turned_keeps (good : σ.fPacketGood = true) (agrees : Agrees mnt σ.disk start dir)
    (links : fColor.get dir = kOpenHeFSBlack → SpareAt mnt start 194 33 ∧
      (fChild.get dir ≠ 0 → Rotates σ.disk start →
        fPrev.get (directoryAt σ.disk start) = fParent.get (directoryAt σ.disk start) ∧
          LinksIn (SpareNode mnt) σ.disk start)) : Keeps mnt σ.disk (turned mnt start dir σ).2 ∧
      Agrees mnt (turned mnt start dir σ).2.disk start (turned mnt start dir σ).1 := by
  have keeps : Keeps mnt σ.disk σ := ⟨SameCore.refl, good⟩
  unfold turned
  split
  · rename_i parent
    obtain ⟨own, home⟩ := links parent.1
    have rotated := rotate_keeps writable good ⟨sum, own⟩ (home parent.2)
    exact ⟨rotated, (agrees.set own (by decide)).of_core rotated.1⟩
  split
  · rename_i leaf
    have black := agrees.set (f := fColor) (v := kOpenHeFSBlack) (links leaf.1).1 (by decide)
    have output := keeps.output writable sum black
    exact ⟨output, black.of_core output.1⟩
  · exact ⟨keeps, agrees⟩

theorem resealed_keeps (good : σ.fPacketGood = true) (agrees : Agrees mnt σ.disk start dir) :
    Keeps mnt σ.disk (resealed mnt start dir σ) := by
  have keeps : Keeps mnt σ.disk σ := ⟨SameCore.refl, good⟩
  unfold resealed
  split
  · exact keeps.output writable sum (agrees.sealed sum)
  · exact keeps

end Rounds

theorem balanceNode_keeps (writable : mnt.fPacketReadOnly = false) (good : σ.fPacketGood = true)
    (spares : Spares mnt boot start σ) : Keeps mnt σ.disk (balanceNode mnt boot start σ) := by
  rcases spares with quiet | ⟨sum, links⟩
  · exact quiet_keeps good quiet
  have keeps : Keeps mnt σ.disk σ := ⟨SameCore.refl, good⟩
  obtain ⟨first, dir⟩ := blackened_keeps writable sum keeps fun black => (links black).1
  obtain ⟨second, dir'⟩ := turned_keeps writable sum first.2 dir links
  exact (first.trans second).trans (resealed_keeps writable sum second.2 dir')

/-- A balance all of whose rounds write loose bytes only goes through to its end. -/
theorem balance_keeps (writable : mnt.fPacketReadOnly = false) (good : σ.fPacketGood = true) {scan : List Lba}
    (all : BalanceAll mnt boot (Spares mnt boot) scan σ) :
    Keeps mnt σ.disk (balanceFrom mnt boot scan σ).2 ∧
      (balanceFrom mnt boot scan σ).2.errGlobal = kErrorSuccess := by
  induction scan generalizing σ with
  | nil => exact ⟨⟨SameCore.refl, good⟩, rfl⟩
  | cons start rest ih =>
      obtain ⟨here, later⟩ := all good
      have round := balanceNode_keeps writable good here
      unfold balanceFrom
      rw [if_pos good]
      obtain ⟨tail, status⟩ := ih round.2 later
      exact ⟨round.trans tail, status⟩

theorem hefsiBalanceInd_keeps (writable : mnt.fPacketReadOnly = false) (sane : BootSane mnt boot)
    (good : σ.fPacketGood = true) (all : BalanceAll mnt boot (Spares mnt boot) (indScan boot) σ) :
    Keeps mnt σ.disk (hefsiBalanceInd mnt boot σ).2 ∧ (hefsiBalanceInd mnt boot σ).2.errGlobal = kErrorSuccess := by
  have first := indStart_toNat mnt
  have ordered : ¬ indStart mnt > indEnd mnt := BitVec.not_lt.mpr (indEnd_toNat mnt).1
  have nonzero : indStart mnt ≠ 0 := by
    intro zero
    rw [zero] at first
    simp at first
  rw [hefsiBalanceInd, sane.startIND, sane.endIND, if_neg nonzero, if_neg ordered]
  exact balance_keeps writable good all

end Balance

end Ne.Kernel.FS
