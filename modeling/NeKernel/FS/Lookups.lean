import NeKernel.FS.Steps

/-!
# Lookups of files

`hefsi_fetch_in` reads only, so what it returns is a function of the disk, and `INodeExists` says
whether there is such an inode.
-/

namespace Ne.Kernel.FS
open ByteMem
open HefsBootNode hiding size fChecksum

/-- A file as the parser is asked for it. -/
structure HefsFile where
  dir : Path
  name : Path
  kind : BitVec 8

/-- The inode that a lookup of the file ends at. -/
def inodeOf (mnt : DriveTrait) (disk : Memory) (file : HefsFile) : Option Image :=
  let boot := bootAt mnt disk
  if bootValid boot = true ∧ ¬ fStartIND.get boot > fEndIND.get boot ∧ ¬ fStartIN.get boot > fEndIN.get boot then
    fetchFrom disk (hefsiHash64 file.dir) (hefsiHash64 file.name) file.kind (lookupScan boot)
  else none

/-- The file is on the volume. -/
structure Holds (mnt : DriveTrait) (σ : Mount) (file : HefsFile) (node : Image) : Prop where
  dir_fits : file.dir.length ≤ kOpenHeFSFileNameLen
  name_fits : file.name.length ≤ kOpenHeFSFileNameLen
  uncorrupted : (mnt.completed σ).errGlobal ≠ kErrorDiskIsCorrupted
  inode : inodeOf mnt σ.disk file = some node

section Lookups
variable {mnt : DriveTrait} {σ : Mount} {file : HefsFile} {node : Image} {dirHash fileHash : BitVec 64}
  {kind : BitVec 8} {disk : Memory} {starts : List Lba}

theorem fetchFrom_matches (found : fetchFrom disk dirHash fileHash kind starts = some node) :
    inodeMatches fileHash kind node = true := by
  induction starts with
  | nil => cases found
  | cons start rest ih =>
      rw [fetchFrom] at found
      split at found
      · cases found
      split at found
      · split at found
        · rename_i matching
          cases found
          exact List.find?_some matching
        · exact ih found
      · exact ih found

theorem inodeOf_hash (found : inodeOf mnt disk file = some node) :
    HefsIndexNode.fHashPath.get node = hefsiHash64 file.name := by
  rw [inodeOf] at found
  split at found
  · have matching := fetchFrom_matches found
    rw [inodeMatches, decide_eq_true_iff] at matching
    exact matching.1.symm
  · cases found

theorem inodeOf_checks (found : inodeOf mnt disk file = some node) :
    bootValid (bootAt mnt disk) = true ∧ ¬ fStartIND.get (bootAt mnt disk) > fEndIND.get (bootAt mnt disk) ∧
      ¬ fStartIN.get (bootAt mnt disk) > fEndIN.get (bootAt mnt disk) ∧
      fetchFrom disk (hefsiHash64 file.dir) (hefsiHash64 file.name) file.kind (lookupScan (bootAt mnt disk)) =
        some node := by
  rw [inodeOf] at found
  split at found
  · rename_i checks
    exact ⟨checks.1, checks.2.1, checks.2.2, found⟩
  · cases found

theorem fetch_some (found : inodeOf mnt σ.disk file = some node) (uncorrupted : σ.errGlobal ≠ kErrorDiskIsCorrupted) :
    hefsiFetchIn mnt (bootAt mnt σ.disk) file.dir file.name file.kind σ = (some node, mnt.completed σ) := by
  obtain ⟨-, directories, inodes, found⟩ := inodeOf_checks found
  rw [hefsiFetchIn, if_neg directories, if_neg inodes, if_neg uncorrupted]
  simp only [completed_disk, found]

theorem inode_of_fetch (valid : bootValid (bootAt mnt σ.disk) = true)
    (fetched : (hefsiFetchIn mnt (bootAt mnt σ.disk) file.dir file.name file.kind σ).1 = some node) :
    inodeOf mnt σ.disk file = some node ∧ σ.errGlobal ≠ kErrorDiskIsCorrupted := by
  unfold hefsiFetchIn at fetched
  split at fetched
  · cases fetched
  rename_i directories
  split at fetched
  · cases fetched
  rename_i inodes
  split at fetched
  · cases fetched
  rename_i uncorrupted
  refine ⟨?_, uncorrupted⟩
  rw [inodeOf, if_pos ⟨valid, directories, inodes⟩]
  simp only [completed_disk] at fetched
  split at fetched
  · rename_i found
    rw [found]
    exact fetched
  · cases fetched

theorem Holds.fetched (held : Holds mnt σ file node) :
    hefsiFetchIn mnt (bootAt mnt σ.disk) file.dir file.name file.kind (mnt.completed σ) =
      (some node, mnt.completed σ) := by
  have same : (mnt.completed σ).disk = σ.disk := completed_disk
  have fetched := fetch_some (σ := mnt.completed σ) (by rw [same]; exact held.inode) held.uncorrupted
  rwa [same, completed_completed] at fetched

theorem exists_iff_holds : (iNodeExists mnt file.dir file.name file.kind σ).1 = true ↔
    ∃ node, Holds mnt σ file node := by
  have read : ioDrvInput mnt .boot mnt.fLbaStart σ = (bootAt mnt σ.disk, mnt.completed σ) := rfl
  have same : (mnt.completed σ).disk = σ.disk := completed_disk
  constructor
  · intro found
    rw [iNodeExists] at found
    split at found
    · cases found
    rename_i dirFits
    split at found
    · cases found
    rename_i nameFits
    simp only [read] at found
    split at found
    · cases found
    rename_i valid
    cases fetched : hefsiFetchIn mnt (bootAt mnt σ.disk) file.dir file.name file.kind (mnt.completed σ) with
    | mk result τ =>
        rw [fetched] at found
        cases result with
        | none => cases found
        | some node =>
            have inode := inode_of_fetch (σ := mnt.completed σ) (by simpa [same] using valid)
              (by rw [same, fetched])
            rw [same] at inode
            exact ⟨node, Nat.not_lt.mp dirFits, Nat.not_lt.mp nameFits, inode.2, inode.1⟩
  · rintro ⟨node, held⟩
    have valid := (inodeOf_checks held.inode).1
    rw [iNodeExists, if_neg (Nat.not_lt.mpr held.dir_fits), if_neg (Nat.not_lt.mpr held.name_fits)]
    simp only [read, valid, held.fetched]
    rfl

theorem Holds.isThere (held : Holds mnt σ file node) : (iNodeExists mnt file.dir file.name file.kind σ).1 = true :=
  exists_iff_holds.mpr ⟨node, held⟩

end Lookups

end Ne.Kernel.FS
