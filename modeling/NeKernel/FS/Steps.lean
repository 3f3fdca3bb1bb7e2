import NeKernel.FS.HeFileSystemParser

/-!
# What each call can do

Every write to the disk goes through the drive, which keeps the packets it took. A call is described
by the packets it adds.
-/

namespace Ne.Kernel.FS
open ByteMem
open HefsBootNode hiding size fChecksum
open HefsIndexNodeDirectory hiding size fChecksum

/-- From `σ` to `σ'` the drive took packets with property `Q`, and the disk changed by them alone. -/
def Writes (Q : Packet → Prop) (σ σ' : Mount) : Prop :=
  ∃ new, σ'.written = σ.written ++ new ∧
    σ'.disk = Transfer.replay σ.disk (new.map Packet.transfer) ∧ ∀ p ∈ new, Q p

section Packets
variable {Q Q' : Packet → Prop} {σ σ' τ : Mount} {mnt : DriveTrait}

theorem Writes.of_same (disk : σ'.disk = σ.disk) (written : σ'.written = σ.written) : Writes Q σ σ' :=
  ⟨[], by simp [written], by simp [disk, Transfer.replay], by simp⟩

theorem Writes.trans (first : Writes Q σ σ') (second : Writes Q σ' τ) : Writes Q σ τ := by
  obtain ⟨new, written, disk, all⟩ := first
  obtain ⟨new', written', disk', all'⟩ := second
  refine ⟨new ++ new', by rw [written', written, List.append_assoc], ?_, ?_⟩
  · rw [disk', disk, List.map_append, Transfer.replay_append]
  · intro p member
    rcases List.mem_append.mp member with left | right
    · exact all p left
    · exact all' p right

theorem Writes.status (writes : Writes Q σ σ') (status : Int) : Writes Q σ { σ' with errGlobal := status } :=
  writes

theorem Writes.mono (writes : Writes Q σ σ') (weaker : ∀ p, Q p → Q' p) : Writes Q' σ σ' := by
  obtain ⟨new, written, disk, all⟩ := writes
  exact ⟨new, written, disk, fun p member => weaker p (all p member)⟩

theorem Writes.disk_eq (writes : Writes Q σ σ') {x : Lba}
    (outside : ∀ p, Q p → ¬ Within p.fPacketLba p.content.size x) : σ'.disk x = σ.disk x := by
  obtain ⟨new, -, disk, all⟩ := writes
  rw [disk]
  apply Transfer.replay_outside
  intro t member
  obtain ⟨p, taken, rfl⟩ := List.mem_map.mp member
  exact outside p (all p taken)

theorem Writes.mem (writes : Writes Q σ σ') {p : Packet} (taken : p ∈ σ.written) : p ∈ σ'.written := by
  obtain ⟨new, written, -⟩ := writes
  rw [written]
  exact List.mem_append_left new taken

@[simp] theorem completed_disk : (mnt.completed σ).disk = σ.disk := by
  unfold DriveTrait.completed
  split <;> rfl

@[simp] theorem completed_written : (mnt.completed σ).written = σ.written := by
  unfold DriveTrait.completed
  split <;> rfl

@[simp] theorem completed_good : (mnt.completed σ).fPacketGood = σ.fPacketGood := by
  unfold DriveTrait.completed
  split <;> rfl

theorem completed_writes : Writes Q σ (mnt.completed σ) := .of_same completed_disk completed_written

theorem ioDrvOutput_refused {content : Content} {lba : Lba} {body : Image}
    (refused : mnt.fPacketReadOnly = true ∨ lba = 0) :
    ioDrvOutput mnt content lba body σ = { σ with fPacketGood := false } := by
  unfold ioDrvOutput
  rcases refused with readOnly | zero
  · simp [readOnly]
  · simp [zero]

theorem ioDrvOutput_taken {content : Content} {lba : Lba} {body : Image}
    (writable : mnt.fPacketReadOnly = false) (nonzero : lba ≠ 0) :
    ioDrvOutput mnt content lba body σ = mnt.completed { σ with
      disk := place σ.disk lba content.size body
      written := σ.written ++ [⟨content, lba, body⟩] } := by
  unfold ioDrvOutput
  rw [writable, if_neg Bool.false_ne_true, if_neg nonzero]

theorem ioDrvOutput_mem {content : Content} {lba : Lba} {body : Image}
    (writable : mnt.fPacketReadOnly = false) (nonzero : lba ≠ 0) :
    ⟨content, lba, body⟩ ∈ (ioDrvOutput mnt content lba body σ).written := by
  rw [ioDrvOutput_taken writable nonzero, completed_written]
  simp

theorem ioDrvOutput_writes {content : Content} {lba : Lba} {body : Image}
    (holds : Q ⟨content, lba, body⟩) : Writes Q σ (ioDrvOutput mnt content lba body σ) := by
  by_cases refused : mnt.fPacketReadOnly = true ∨ lba = 0
  · rw [ioDrvOutput_refused refused]
    exact .of_same rfl rfl
  · obtain ⟨writable, nonzero⟩ := not_or.mp refused
    rw [ioDrvOutput_taken (Bool.eq_false_iff.mpr writable) nonzero]
    exact ⟨[⟨content, lba, body⟩], by simp, by simp [Transfer.replay, Transfer.apply, Packet.transfer],
      by simpa using holds⟩

theorem ioDrvInput_directory {lba : Lba} :
    ioDrvInput mnt .directory lba σ = (directoryAt σ.disk lba, mnt.completed σ) := rfl

theorem ioDrvInput_boot :
    ioDrvInput mnt .boot mnt.fLbaStart σ = (bootAt mnt σ.disk, mnt.completed σ) := rfl

end Packets

/-! ## The balance of the directory region -/

section Balance
variable {Q : Packet → Prop} {σ σ' : Mount} {mnt : DriveTrait} {boot : Image} {start : Lba}

theorem sealDirectory_get {f : Field} (other : f.Disjoint HefsIndexNodeDirectory.fChecksum) (dir : Image) :
    f.get (sealDirectory dir) = f.get dir := Field.get_set_other other

/-- The node at `start` and the sibling it names are both in use, so a rotation takes place. -/
def Rotates (disk : Memory) (start : Lba) : Prop :=
  fHashPath.get (directoryAt disk start) ≠ 0 ∧
    fHashPath.get (directoryAt disk (fPrev.get (directoryAt disk start))) ≠ 0

/-- The links a rotation at `start` follows to other nodes. -/
def LinksIn (P : Lba → Prop) (disk : Memory) (start : Lba) : Prop :=
  P (fParent.get (directoryAt disk start)) ∧ P (fChild.get (directoryAt disk start)) ∧
    P (fChild.get (directoryAt disk (fPrev.get (directoryAt disk start))))

theorem LinksIn.imp {P P' : Lba → Prop} {disk : Memory} (links : LinksIn P disk start)
    (weaker : ∀ lba, P lba → P' lba) : LinksIn P' disk start :=
  ⟨weaker _ links.1, weaker _ links.2.1, weaker _ links.2.2⟩

theorem hefsiRotateTree_idle (idle : ¬ Rotates σ.disk start) : Writes Q σ (hefsiRotateTree mnt start σ) := by
  unfold hefsiRotateTree
  by_cases zero : start = 0
  · rw [if_pos zero]
    exact .of_same rfl rfl
  rw [if_neg zero]
  simp only [ioDrvInput_directory, completed_disk]
  by_cases curFree : fHashPath.get (directoryAt σ.disk start) = 0
  · rw [if_pos curFree]
    exact completed_writes
  rw [if_neg curFree, if_pos (not_not.mp fun used => idle ⟨curFree, used⟩)]
  exact completed_writes.trans completed_writes

theorem hefsiRotateTree_writes (own : ∀ body, Q ⟨.directory, start, body⟩)
    (links : LinksIn (fun lba => ∀ body, Q ⟨.directory, lba, body⟩) σ.disk start) :
    Writes Q σ (hefsiRotateTree mnt start σ) := by
  by_cases rotates : Rotates σ.disk start
  · unfold hefsiRotateTree
    by_cases zero : start = 0
    · rw [if_pos zero]
      exact .of_same rfl rfl
    rw [if_neg zero]
    simp only [ioDrvInput_directory, completed_disk]
    rw [if_neg rotates.1, if_neg rotates.2]
    obtain ⟨parent, childCur, childSibling⟩ := links
    have parentKept (child : Lba) (dir : Image) :
        fParent.get (sealDirectory (fChild.set child dir)) = fParent.get dir := by
      rw [sealDirectory_get (by decide), Field.get_set_other (by decide)]
    rw [parentKept]
    refine ((((((completed_writes.trans completed_writes).trans (ioDrvOutput_writes ?_)).trans
      (ioDrvOutput_writes ?_)).trans completed_writes).trans (ioDrvOutput_writes ?_)).trans
      completed_writes).trans (ioDrvOutput_writes ?_)
    · exact parent _
    · exact own _
    · exact childSibling _
    · exact childCur _
  · exact hefsiRotateTree_idle rotates

/-- What a round of the balance needs of the node it visits: a rotation leads to `P` nodes only. -/
def TurnsIn (P : Lba → Prop) (mnt : DriveTrait) (boot : Image) (start : Lba) (σ : Mount) : Prop :=
  let (dir, σ) := blackened mnt boot start σ
  fColor.get dir = kOpenHeFSBlack → fChild.get dir ≠ 0 → Rotates σ.disk start → LinksIn P σ.disk start

/-- A round that writes nothing: the node is not the first, is not painted, and carries the checksum
of what it holds. -/
def Quiet (boot : Image) (start : Lba) (disk : Memory) : Prop :=
  let dir := directoryAt disk start
  let red := fColor.set kOpenHeFSRed dir
  start ≠ fStartIND.get boot ∧
    (fColor.get dir ≠ kOpenHeFSBlack ∧
        imageCrc dir HefsIndexNodeDirectory.size = HefsIndexNodeDirectory.fChecksum.get dir ∨
      fColor.get dir = kOpenHeFSBlack ∧ fChild.get dir ≠ 0 ∧ ¬ Rotates disk start ∧
        imageCrc red HefsIndexNodeDirectory.size = HefsIndexNodeDirectory.fChecksum.get red)

theorem blackened_other (other : start ≠ fStartIND.get boot) :
    blackened mnt boot start σ = (directoryAt σ.disk start, mnt.completed σ) := if_neg other

theorem resealed_sealed {dir : Image}
    (sum : imageCrc dir HefsIndexNodeDirectory.size = HefsIndexNodeDirectory.fChecksum.get dir) :
    resealed mnt start dir σ = σ := if_neg (not_not.mpr sum)

theorem balanceNode_quiet (quiet : Quiet boot start σ.disk) :
    Writes Q σ (balanceNode mnt boot start σ) := by
  obtain ⟨other, still⟩ := quiet
  rw [balanceNode, blackened_other other]
  dsimp only
  rcases still with ⟨plain, sum⟩ | ⟨black, child, idle, sum⟩
  · rw [turned, if_neg fun black => plain black.1, if_neg fun black => plain black.1,
      resealed_sealed sum]
    exact completed_writes
  · rw [turned, if_pos ⟨black, child⟩, resealed_sealed sum]
    exact completed_writes.trans (hefsiRotateTree_idle (by rwa [completed_disk]))

section Rounds
variable (own : ∀ body, Q ⟨.directory, start, body⟩)
include own

theorem blackened_writes : Writes Q σ (blackened mnt boot start σ).2 := by
  unfold blackened
  simp only [ioDrvInput_directory]
  split
  · exact completed_writes.trans (ioDrvOutput_writes (own _))
  · exact completed_writes

theorem turned_writes {dir : Image} (turns : fColor.get dir = kOpenHeFSBlack → fChild.get dir ≠ 0 →
    Rotates σ.disk start → LinksIn (fun lba => ∀ body, Q ⟨.directory, lba, body⟩) σ.disk start) :
    Writes Q σ (turned mnt start dir σ).2 := by
  unfold turned
  split
  · rename_i parent
    by_cases rotates : Rotates σ.disk start
    · exact hefsiRotateTree_writes own (turns parent.1 parent.2 rotates)
    · exact hefsiRotateTree_idle rotates
  · split
    · exact ioDrvOutput_writes (own _)
    · exact .of_same rfl rfl

theorem resealed_writes {dir : Image} : Writes Q σ (resealed mnt start dir σ) := by
  unfold resealed
  split
  · exact ioDrvOutput_writes (own _)
  · exact .of_same rfl rfl

theorem balanceNode_writes
    (turns : TurnsIn (fun lba => ∀ body, Q ⟨.directory, lba, body⟩) mnt boot start σ) :
    Writes Q σ (balanceNode mnt boot start σ) :=
  ((blackened_writes own).trans (turned_writes own turns)).trans (resealed_writes own)

end Rounds

/-- Every round of a balance over the nodes of `scan` meets its guard when it starts. -/
def BalanceAll (mnt : DriveTrait) (boot : Image) (guard : Lba → Mount → Prop) : List Lba → Mount → Prop
  | [], _ => True
  | start :: rest, σ => σ.fPacketGood →
      guard start σ ∧ BalanceAll mnt boot guard rest (balanceNode mnt boot start σ)

theorem balanceFrom_writes {guard : Lba → Mount → Prop} {scan : List Lba}
    (round : ∀ start ∈ scan, ∀ τ, guard start τ → Writes Q τ (balanceNode mnt boot start τ))
    (all : BalanceAll mnt boot guard scan σ) : Writes Q σ (balanceFrom mnt boot scan σ).2 := by
  induction scan generalizing σ with
  | nil => exact .of_same rfl rfl
  | cons start rest ih =>
      unfold balanceFrom
      split
      · rename_i good
        obtain ⟨here, later⟩ := all good
        have tail := ih (fun next member => round next (by simp [member])) later
        exact (round start (by simp) σ here).trans tail
      · exact .of_same rfl rfl

theorem hefsiBalanceInd_writes {guard : Lba → Mount → Prop}
    (round : ∀ start ∈ indScan boot, ∀ τ, guard start τ → Writes Q τ (balanceNode mnt boot start τ))
    (all : BalanceAll mnt boot guard (indScan boot) σ) : Writes Q σ (hefsiBalanceInd mnt boot σ).2 := by
  unfold hefsiBalanceInd
  split
  · exact .of_same rfl rfl
  · split
    · exact .of_same rfl rfl
    · exact balanceFrom_writes round all

theorem balanceAll_true {scan : List Lba} : BalanceAll mnt boot (fun _ _ => True) scan σ := by
  induction scan generalizing σ with
  | nil => trivial
  | cons start rest ih => exact fun _ => ⟨trivial, ih⟩

/-- Whatever the links say, a balance only adds directory nodes to what was written. -/
theorem hefsiBalanceInd_grows : Writes (fun p => p.content = .directory) σ (hefsiBalanceInd mnt boot σ).2 :=
  hefsiBalanceInd_writes
    (fun _ _ _ _ => balanceNode_writes (fun _ => rfl) fun _ _ _ => ⟨fun _ => rfl, fun _ => rfl, fun _ => rfl⟩)
    balanceAll_true

end Balance

/-! ## The two halves of a call

A call that gets past its checks searches the directory region, stores what it found there together
with the boot node, and then balances the region.
-/

section Calls
variable {σ σ' τ : Mount} {mnt : DriveTrait} {boot boot' : Image} {r : Bool}

/-- The boot node and the mount between the two halves. -/
def FsCall.update (mnt : DriveTrait) (σ : Mount) (call : FsCall) : Option (Image × Mount) :=
  match call with
  | .directory flags dir deleteOrCreate =>
      let boot := bootAt mnt σ.disk
      ((indScan boot).find? fun start => indMatches dir deleteOrCreate (directoryAt σ.disk start)).map
        fun start => storeDirectory mnt boot dir (flags.setWidth 16) deleteOrCreate start (mnt.completed σ)
  | .inode flags dir name deleteOrCreate kind =>
      let boot := bootAt mnt σ.disk
      let node := inodeEntry flags name deleteOrCreate kind
      if fStartIND.get boot ≤ fEndIND.get boot ∧ fStartIN.get boot ≤ fEndIN.get boot ∧
          fStartBlock.get boot ≤ fEndBlock.get boot then
        ((indScan boot).findSome? (sliceIn σ.disk (hefsiHash64 dir) (hefsiHash64 name) deleteOrCreate)).map
          fun (start, i) =>
            if deleteOrCreate then unlinkINode mnt boot start i node (mnt.completed σ)
            else linkINode mnt boot start i node (mnt.completed σ)
      else none

theorem completed_completed : mnt.completed (mnt.completed σ) = mnt.completed σ := by
  unfold DriveTrait.completed
  split <;> simp

section Searches
variable {flags : BitVec 32} {dir name : Path} {kind : BitVec 8} {start : Lba} {i : Fin kOpenHeFSSliceCount}

theorem update_unlink (bounds : fStartIND.get (bootAt mnt σ.disk) ≤ fEndIND.get (bootAt mnt σ.disk) ∧
    fStartIN.get (bootAt mnt σ.disk) ≤ fEndIN.get (bootAt mnt σ.disk) ∧
    fStartBlock.get (bootAt mnt σ.disk) ≤ fEndBlock.get (bootAt mnt σ.disk))
    (search : (indScan (bootAt mnt σ.disk)).findSome?
      (sliceIn σ.disk (hefsiHash64 dir) (hefsiHash64 name) true) = some (start, i)) :
    FsCall.update mnt σ (.inode flags dir name true kind) = some (unlinkINode mnt (bootAt mnt σ.disk) start i
      (inodeEntry flags name true kind) (mnt.completed σ)) := by
  simp only [FsCall.update, if_pos bounds, search, Option.map_some, if_true]

theorem update_link (bounds : fStartIND.get (bootAt mnt σ.disk) ≤ fEndIND.get (bootAt mnt σ.disk) ∧
    fStartIN.get (bootAt mnt σ.disk) ≤ fEndIN.get (bootAt mnt σ.disk) ∧
    fStartBlock.get (bootAt mnt σ.disk) ≤ fEndBlock.get (bootAt mnt σ.disk))
    (search : (indScan (bootAt mnt σ.disk)).findSome?
      (sliceIn σ.disk (hefsiHash64 dir) (hefsiHash64 name) false) = some (start, i)) :
    FsCall.update mnt σ (.inode flags dir name false kind) = some (linkINode mnt (bootAt mnt σ.disk) start i
      (inodeEntry flags name false kind) (mnt.completed σ)) := by
  simp only [FsCall.update, if_pos bounds, search, Option.map_some, Bool.false_eq_true, if_false]

/-- An update of a file's node found its place: the regions are in order and the search met a slice. -/
theorem update_inode {deleteOrCreate : Bool}
    (updated : FsCall.update mnt σ (.inode flags dir name deleteOrCreate kind) = some (boot', τ)) :
    (fStartIND.get (bootAt mnt σ.disk) ≤ fEndIND.get (bootAt mnt σ.disk) ∧
      fStartIN.get (bootAt mnt σ.disk) ≤ fEndIN.get (bootAt mnt σ.disk) ∧
      fStartBlock.get (bootAt mnt σ.disk) ≤ fEndBlock.get (bootAt mnt σ.disk)) ∧
    ∃ start i, (indScan (bootAt mnt σ.disk)).findSome?
        (sliceIn σ.disk (hefsiHash64 dir) (hefsiHash64 name) deleteOrCreate) = some (start, i) ∧
      (if deleteOrCreate then unlinkINode mnt (bootAt mnt σ.disk) start i
          (inodeEntry flags name deleteOrCreate kind) (mnt.completed σ)
        else linkINode mnt (bootAt mnt σ.disk) start i
          (inodeEntry flags name deleteOrCreate kind) (mnt.completed σ)) = (boot', τ) := by
  unfold FsCall.update at updated
  dsimp only at updated
  split at updated
  · rename_i bounds
    obtain ⟨⟨start, i⟩, search, stored⟩ := Option.map_eq_some_iff.mp updated
    exact ⟨bounds, start, i, search, stored⟩
  · cases updated

end Searches

/-- The call changed nothing that outlasts it, and it did not report a corrupted disk. -/
def Unmoved (σ σ' : Mount) : Prop :=
  σ'.disk = σ.disk ∧ σ'.written = σ.written ∧ σ'.fPacketGood = σ.fPacketGood ∧
    σ'.errGlobal ≠ kErrorDiskIsCorrupted

/-- `σ'` is `τ` with another status. -/
def SameVolume (τ σ' : Mount) : Prop :=
  σ'.disk = τ.disk ∧ σ'.written = τ.written ∧ σ'.fPacketGood = τ.fPacketGood

theorem unmoved_status {status : Int} (other : status ≠ kErrorDiskIsCorrupted) :
    Unmoved σ { mnt.completed σ with errGlobal := status } :=
  ⟨completed_disk, completed_written, completed_good, other⟩

theorem disk_status : kErrorDisk ≠ kErrorDiskIsCorrupted := by decide

theorem invalidData_status : kErrorInvalidData ≠ kErrorDiskIsCorrupted := by decide

theorem directoryNotFound_status : kErrorDirectoryNotFound ≠ kErrorDiskIsCorrupted := by decide

theorem inodeEntry_hash {flags : BitVec 32} {name : Path} {deleteOrCreate : Bool} {kind : BitVec 8} :
    HefsIndexNode.fHashPath.get (inodeEntry flags name deleteOrCreate kind) = hefsiHash64 name :=
  Field.get_set_full rfl

theorem hefsiUpdateInStatus_cases {dirName : Path} {node : Image} {deleteOrCreate : Bool}
    (taken : hefsiUpdateInStatus mnt boot dirName node deleteOrCreate σ = (r, boot', τ)) :
    (r = false ∧ SameVolume σ τ) ∨
    (r = true ∧ (fStartIND.get boot ≤ fEndIND.get boot ∧ fStartIN.get boot ≤ fEndIN.get boot ∧
        fStartBlock.get boot ≤ fEndBlock.get boot) ∧
      ∃ start i, (indScan boot).findSome?
          (sliceIn σ.disk (hefsiHash64 dirName) (HefsIndexNode.fHashPath.get node) deleteOrCreate) =
            some (start, i) ∧
        (boot', τ) = if deleteOrCreate then unlinkINode mnt boot start i node (mnt.completed σ)
          else linkINode mnt boot start i node (mnt.completed σ)) := by
  unfold hefsiUpdateInStatus at taken
  split at taken
  · obtain ⟨rfl, rfl, rfl⟩ := taken
    exact .inl ⟨rfl, rfl, rfl, rfl⟩
  rename_i ordered
  split at taken
  · obtain ⟨rfl, rfl, rfl⟩ := taken
    exact .inl ⟨rfl, rfl, rfl, rfl⟩
  rename_i inodes
  split at taken
  · obtain ⟨rfl, rfl, rfl⟩ := taken
    exact .inl ⟨rfl, rfl, rfl, rfl⟩
  rename_i blocks
  simp only [completed_disk] at taken
  split at taken
  · obtain ⟨rfl, rfl, rfl⟩ := taken
    exact .inl ⟨rfl, rfl, completed_written, completed_good⟩
  · rename_i start i search
    refine .inr ⟨?_, ⟨BitVec.not_lt.mp ordered, BitVec.not_lt.mp inodes, BitVec.not_lt.mp blocks⟩,
      start, i, search, ?_⟩
    · split at taken <;> exact (Prod.ext_iff.mp taken).1.symm
    · split at taken
      · rename_i delete
        rw [if_pos delete]
        exact (Prod.ext_iff.mp taken).2.symm
      · rename_i create
        rw [if_neg create]
        exact (Prod.ext_iff.mp taken).2.symm

theorem iNodeDirectoryCtlManip_cases {flags : BitVec 32} {dir : Path} {deleteOrCreate : Bool}
    (valid : bootValid (bootAt mnt σ.disk) = true)
    (taken : iNodeDirectoryCtlManip mnt flags dir deleteOrCreate σ = some (r, σ')) :
    (r = false ∧ Unmoved σ σ') ∨
    (r = true ∧ ∃ boot' τ, FsCall.update mnt σ (.directory flags dir deleteOrCreate) = some (boot', τ) ∧
      σ' = (hefsiBalanceInd mnt boot' τ).2) := by
  unfold iNodeDirectoryCtlManip at taken
  split at taken
  · obtain ⟨rfl, rfl⟩ := taken
    exact .inl ⟨rfl, rfl, rfl, rfl, disk_status⟩
  simp only [ioDrvInput_boot, valid, Bool.not_true, Bool.false_eq_true, if_false] at taken
  split at taken
  · obtain ⟨rfl, rfl⟩ := taken
    exact .inl ⟨rfl, unmoved_status invalidData_status⟩
  unfold hefsiUpdateIndStatus at taken
  unfold FsCall.update
  by_cases behind : mnt.fLbaStart < fStartIND.get (bootAt mnt σ.disk)
  · rw [if_pos behind] at taken
    simp only [completed_completed, completed_disk] at taken
    cases search : (indScan (bootAt mnt σ.disk)).find? fun start =>
        indMatches dir deleteOrCreate (directoryAt σ.disk start) with
    | none =>
        rw [search] at taken
        obtain ⟨rfl, rfl⟩ := taken
        exact .inl ⟨rfl, rfl, completed_written, completed_good, disk_status⟩
    | some start =>
        rw [search] at taken
        obtain ⟨rfl, rfl⟩ := taken
        refine .inr ⟨rfl, _, _, ?_, rfl⟩
        dsimp only
        rw [search]
        rfl
  · rw [if_neg behind] at taken
    cases taken

theorem iNodeCtlManip_cases {flags : BitVec 32} {dir name : Path} {deleteOrCreate : Bool} {kind : BitVec 8}
    (valid : bootValid (bootAt mnt σ.disk) = true)
    (taken : iNodeCtlManip mnt flags dir name deleteOrCreate kind σ = (r, σ')) :
    (r = false ∧ Unmoved σ σ') ∨
    (r = true ∧ ∃ boot' τ, FsCall.update mnt σ (.inode flags dir name deleteOrCreate kind) = some (boot', τ) ∧
      σ' = { (hefsiBalanceInd mnt boot' τ).2 with errGlobal := kErrorSuccess }) := by
  unfold iNodeCtlManip at taken
  split at taken
  · obtain ⟨rfl, rfl⟩ := taken
    exact .inl ⟨rfl, rfl, rfl, rfl, disk_status⟩
  split at taken
  · obtain ⟨rfl, rfl⟩ := taken
    exact .inl ⟨rfl, rfl, rfl, rfl, disk_status⟩
  simp only [ioDrvInput_boot, valid, Bool.not_true, Bool.false_eq_true, if_false] at taken
  split at taken
  · obtain ⟨rfl, rfl⟩ := taken
    exact .inl ⟨rfl, unmoved_status invalidData_status⟩
  split at taken
  · obtain ⟨rfl, rfl⟩ := taken
    exact .inl ⟨rfl, unmoved_status invalidData_status⟩
  split at taken
  · rename_i boot' τ updated
    obtain ⟨rfl, rfl⟩ := taken
    rcases hefsiUpdateInStatus_cases updated with ⟨wrong, -⟩ | ⟨-, bounds, start, i, search, stored⟩
    · cases wrong
    · refine .inr ⟨rfl, boot', τ, ?_, rfl⟩
      rw [completed_disk, inodeEntry_hash] at search
      rw [completed_completed] at stored
      unfold FsCall.update
      dsimp only
      rw [if_pos bounds, search, Option.map_some, ← stored]
  · rename_i boot' τ updated
    obtain ⟨rfl, rfl⟩ := taken
    rcases hefsiUpdateInStatus_cases updated with ⟨-, disk, written, good⟩ | ⟨wrong, -⟩
    · exact .inl ⟨rfl, disk.trans completed_disk, written.trans completed_written,
        good.trans completed_good, directoryNotFound_status⟩
    · cases wrong

theorem iNodeCtlManip_found {flags : BitVec 32} {dir name : Path} {deleteOrCreate : Bool} {kind : BitVec 8}
    (valid : bootValid (bootAt mnt σ.disk) = true)
    (short : name.length ≤ kOpenHeFSFileNameLen ∧ dir.length ≤ kOpenHeFSFileNameLen)
    (named : dir ≠ kOpenHeFSSearchAllStr ∧ name.contains 0x2F = false)
    (updated : FsCall.update mnt σ (.inode flags dir name deleteOrCreate kind) = some (boot', τ)) :
    iNodeCtlManip mnt flags dir name deleteOrCreate kind σ =
      (true, { (hefsiBalanceInd mnt boot' τ).2 with errGlobal := kErrorSuccess }) := by
  obtain ⟨bounds, start, i, search, stored⟩ := update_inode updated
  have checked : hefsiUpdateInStatus mnt (bootAt mnt σ.disk) dir (inodeEntry flags name deleteOrCreate kind)
      deleteOrCreate (mnt.completed σ) = (true, boot', τ) := by
    unfold hefsiUpdateInStatus
    rw [if_neg (BitVec.not_lt.mpr bounds.1), if_neg (BitVec.not_lt.mpr bounds.2.1),
      if_neg (BitVec.not_lt.mpr bounds.2.2)]
    dsimp only
    rw [completed_disk, completed_disk, inodeEntry_hash, search, completed_completed]
    dsimp only
    rw [← stored]
    split <;> rfl
  unfold iNodeCtlManip
  rw [if_neg (Nat.not_lt.mpr short.1), if_neg (Nat.not_lt.mpr short.2), ioDrvInput_boot]
  dsimp only
  rw [valid, if_neg (by decide), if_neg named.1, named.2, if_neg Bool.false_ne_true, checked]

theorem manip_disk {flags : BitVec 32} {dir name : Path} {deleteOrCreate : Bool} {kind : BitVec 8}
    (valid : bootValid (bootAt mnt σ.disk) = true)
    (short : name.length ≤ kOpenHeFSFileNameLen ∧ dir.length ≤ kOpenHeFSFileNameLen)
    (named : dir ≠ kOpenHeFSSearchAllStr ∧ name.contains 0x2F = false)
    (updated : FsCall.update mnt σ (.inode flags dir name deleteOrCreate kind) = some (boot', τ)) :
    ∃ σ', iNodeCtlManip mnt flags dir name deleteOrCreate kind σ = (true, σ') ∧
      σ'.disk = (hefsiBalanceInd mnt boot' τ).2.disk :=
  ⟨_, iNodeCtlManip_found valid short named updated, rfl⟩

theorem run_cases {call : FsCall} (valid : bootValid (bootAt mnt σ.disk) = true)
    (taken : call.run mnt σ = some (r, σ')) :
    (r = false ∧ Unmoved σ σ') ∨
    (r = true ∧ ∃ boot' τ, call.update mnt σ = some (boot', τ) ∧
      SameVolume (hefsiBalanceInd mnt boot' τ).2 σ') := by
  cases call with
  | directory flags dir deleteOrCreate =>
      rcases iNodeDirectoryCtlManip_cases valid taken with failed | ⟨done, boot', τ, updated, rfl⟩
      · exact .inl failed
      · exact .inr ⟨done, boot', τ, updated, rfl, rfl, rfl⟩
  | inode flags dir name deleteOrCreate kind =>
      rcases iNodeCtlManip_cases valid (Option.some.inj taken) with failed | ⟨done, boot', τ, updated, rfl⟩
      · exact .inl failed
      · exact .inr ⟨done, boot', τ, updated, rfl, rfl, rfl⟩

theorem run_invalid {call : FsCall} (invalid : bootValid (bootAt mnt σ.disk) = false)
    (taken : call.run mnt σ = some (r, σ')) : σ'.disk = σ.disk ∧ σ'.written = σ.written := by
  cases call with
  | directory flags dir deleteOrCreate =>
      unfold FsCall.run iNodeDirectoryCtlManip at taken
      dsimp only at taken
      split at taken
      · obtain ⟨rfl, rfl⟩ := taken
        exact ⟨rfl, rfl⟩
      · rw [ioDrvInput_boot] at taken
        dsimp only at taken
        rw [invalid, if_pos (by decide)] at taken
        obtain ⟨rfl, rfl⟩ := taken
        exact ⟨completed_disk, completed_written⟩
  | inode flags dir name deleteOrCreate kind =>
      unfold FsCall.run iNodeCtlManip at taken
      dsimp only at taken
      split at taken
      · obtain ⟨rfl, rfl⟩ := taken
        exact ⟨rfl, rfl⟩
      split at taken
      · obtain ⟨rfl, rfl⟩ := taken
        exact ⟨rfl, rfl⟩
      · rw [ioDrvInput_boot] at taken
        dsimp only at taken
        rw [invalid, if_pos (by decide)] at taken
        obtain ⟨rfl, rfl⟩ := taken
        exact ⟨completed_disk, completed_written⟩

end Calls

end Ne.Kernel.FS
