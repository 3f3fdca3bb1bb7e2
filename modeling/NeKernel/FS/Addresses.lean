import NeKernel.FS.Regions

/-!
# The addresses given to files

Both cursors of the boot node only rise, and every call that stores the boot node stores the cursors
it has just read. An address is therefore issued once, also to files that are created again.
-/

namespace Ne.Kernel.FS
open ByteMem Strides Runs
open HefsBootNode hiding size fChecksum
open HefsIndexNodeDirectory hiding size fChecksum

/-- The packet stores the index node of a new file. -/
def Creates (p : Packet) : Prop := p.content = .inode ∧ HefsIndexNode.fCreated.get p.body ≠ 0

instance (p : Packet) : Decidable (Creates p) := inferInstanceAs (Decidable (_ ∧ _))

/-- The index node addresses and blocks given to files, in the order of their creation. -/
def handed (packets : List Packet) : List (Lba × Lba) :=
  (packets.filter (Creates ·)).map fun p => (p.fPacketLba, blockOf p.body)

section Packets
variable {mnt : DriveTrait} {boot boot' node : Image} {σ σ' τ : Mount} {start : Lba}

theorem handed_append (first second : List Packet) : handed (first ++ second) = handed first ++ handed second := by
  simp [handed]

theorem Writes.handed_eq (writes : Writes (fun p => ¬ Creates p) σ σ') : handed σ'.written = handed σ.written := by
  obtain ⟨new, written, -, none⟩ := writes
  have nothing : handed new = [] := by simpa [handed] using none
  rw [written, handed_append, nothing, List.append_nil]

theorem handed_creation {lba : Lba} (writable : mnt.fPacketReadOnly = false) (nonzero : lba ≠ 0)
    (created : HefsIndexNode.fCreated.get node ≠ 0) :
    handed (ioDrvOutput mnt .inode lba node σ).written = handed σ.written ++ [(lba, blockOf node)] := by
  have creates : Creates ⟨.inode, lba, node⟩ := ⟨rfl, created⟩
  rw [ioDrvOutput_taken writable nonzero, completed_written]
  simp [handed, creates]

theorem quiet_directory {body : Image} {lba : Lba} : ¬ Creates ⟨.directory, lba, body⟩ := by
  rintro ⟨inode, -⟩
  cases inode

theorem quiet_boot {body : Image} {lba : Lba} : ¬ Creates ⟨.boot, lba, body⟩ := by
  rintro ⟨inode, -⟩
  cases inode

theorem balance_handed : handed (hefsiBalanceInd mnt boot σ).2.written = handed σ.written := by
  apply Writes.handed_eq
  refine hefsiBalanceInd_grows.mono fun p directory creates => ?_
  rw [creates.1] at directory
  cases directory

theorem created_link (flags : BitVec 32) (name : Path) (kind : BitVec 8) (block : Lba) :
    HefsIndexNode.fCreated.get (sealINode (HefsIndexNode.fOffsetSliceHigh.set (block >>> 32)
      (HefsIndexNode.fOffsetSliceLow.set block (inodeEntry flags name false kind)))) = 1 := by
  simp (disch := decide) only [sealINode, inodeEntry, Field.get_set_other]
  exact Field.get_set_full rfl

theorem linkINode_handed {i : Fin kOpenHeFSSliceCount} {flags : BitVec 32} {name : Path} {kind : BitVec 8}
    (writable : mnt.fPacketReadOnly = false) (nonzero : fStartIN.get boot ≠ 0) :
    handed (linkINode mnt boot start i (inodeEntry flags name false kind) σ).2.written =
      handed σ.written ++ [(fStartIN.get boot, fStartBlock.get boot)] := by
  unfold linkINode
  dsimp only
  rw [linked_slice, (ioDrvOutput_writes quiet_boot).handed_eq, handed_creation writable nonzero,
    blockOf_link, (ioDrvOutput_writes quiet_directory).handed_eq]
  rw [created_link]
  decide

theorem unlinkINode_handed {i : Fin kOpenHeFSSliceCount} {flags : BitVec 32} {name : Path} {kind : BitVec 8} :
    handed (unlinkINode mnt boot start i (inodeEntry flags name true kind) σ).2.written = handed σ.written := by
  have deleted {lba : Lba} : ¬ Creates ⟨.inode, lba, HefsIndexNode.fOffsetSliceHigh.set 0
      (HefsIndexNode.fOffsetSliceLow.set 0 (inodeEntry flags name true kind))⟩ := by
    rintro ⟨-, created⟩
    exact created (created_unlink.trans (created_entry _ _ _))
  unfold unlinkINode
  dsimp only
  rw [(ioDrvOutput_writes quiet_directory).handed_eq, (ioDrvOutput_writes deleted).handed_eq,
    (ioDrvOutput_writes quiet_boot).handed_eq]

end Packets

section Steps
variable {mnt : DriveTrait} {boot boot' : Image} {σ σ' τ : Mount} {call : FsCall} {r : Bool}

/-- The call gives nothing away and leaves the cursors, or gives away what they name and raises both. -/
def Gives (boot boot' : Image) (σ σ' : Mount) : Prop :=
  (handed σ'.written = handed σ.written ∧ fStartIN.get boot' = fStartIN.get boot ∧
    fStartBlock.get boot' = fStartBlock.get boot) ∨
  (handed σ'.written = handed σ.written ++ [(fStartIN.get boot, fStartBlock.get boot)] ∧
    (fStartIN.get boot').toNat = (fStartIN.get boot).toNat + 512 ∧
    (fStartBlock.get boot').toNat = (fStartBlock.get boot).toNat + 512)

theorem startIN_nonzero (sane : BootSane mnt boot) : fStartIN.get boot ≠ 0 := by
  have first := indStart_toNat mnt
  have last := indEnd_toNat mnt
  have low := sane.inodes
  intro zero
  rw [zero] at low
  simp at low
  omega

theorem update_gives (writable : mnt.fPacketReadOnly = false) (sane : BootSane mnt (bootAt mnt σ.disk))
    (updated : call.update mnt σ = some (boot', τ)) :
    Gives (bootAt mnt σ.disk) (nextBoot call (bootAt mnt σ.disk)) σ τ := by
  cases call with
  | directory flags dir deleteOrCreate =>
      obtain ⟨start, -, stored⟩ := Option.map_eq_some_iff.mp updated
      obtain ⟨-, rfl⟩ := Prod.ext_iff.mp stored
      refine .inl ⟨Writes.handed_eq ?_, Field.get_set_other (by decide), Field.get_set_other (by decide)⟩
      exact ((completed_writes.trans (ioDrvOutput_writes quiet_directory)).status _).trans
        (ioDrvOutput_writes quiet_boot)
  | inode flags dir name deleteOrCreate kind =>
      obtain ⟨bounds, start, i, -, stored⟩ := update_inode updated
      cases deleteOrCreate with
      | false =>
          obtain ⟨-, rfl⟩ := Prod.ext_iff.mp stored
          refine .inr ⟨?_, advanced_inodes sane bounds.2.1, advanced_blocks sane bounds.2.2⟩
          exact (linkINode_handed writable (startIN_nonzero sane)).trans (by rw [completed_written])
      | true =>
          obtain ⟨-, rfl⟩ := Prod.ext_iff.mp stored
          exact .inl ⟨unlinkINode_handed.trans (by rw [completed_written]), rfl, rfl⟩

theorem step_gives (writable : mnt.fPacketReadOnly = false) (nonzero : mnt.fLbaStart ≠ 0)
    (sane : BootSane mnt (bootAt mnt σ.disk)) (clear : Clear mnt call σ)
    (taken : call.run mnt σ = some (r, σ')) :
    BootSane mnt (bootAt mnt σ'.disk) ∧ Gives (bootAt mnt σ.disk) (bootAt mnt σ'.disk) σ σ' := by
  rcases run_cases sane.valid taken with ⟨failed, disk, written, -⟩ | ⟨done, boot', τ, updated, disk, written, -⟩
  · rw [disk]
    exact ⟨sane, .inl ⟨by rw [written], rfl, rfl⟩⟩
  · rcases step_boot writable nonzero sane clear taken with ⟨failed, -⟩ | ⟨-, next, stored⟩
    · rw [failed] at done
      cases done
    · rw [stored]
      refine ⟨next.trim, ?_⟩
      have gives := update_gives writable sane updated
      have log : handed σ'.written = handed τ.written := by rw [written, balance_handed]
      have kept {f : Field} (inside : f.off + f.size ≤ HefsBootNode.size)
          (other : f.Disjoint HefsBootNode.fChecksum) {s : Image} :
          f.get (window (sealBoot s) 0 HefsBootNode.size) = f.get s := by
        rw [get_trim inside, sealBoot, Field.get_set_other other]
      unfold Gives
      rwa [log, kept (by decide) (by decide), kept (by decide) (by decide)]

/-- What has been given away since the handed files `old` lies behind the cursors. -/
def Given (mnt : DriveTrait) (old : List (Lba × Lba)) (σ : Mount) : Prop :=
  ∃ hs, handed σ.written = old ++ hs ∧
    Issued 512 (fStartIN.get (bootAt mnt σ.disk)) (hs.map Prod.fst) ∧
    Issued 512 (fStartBlock.get (bootAt mnt σ.disk)) (hs.map Prod.snd)

theorem Given.step {old : List (Lba × Lba)} (given : Given mnt old σ)
    (gives : Gives (bootAt mnt σ.disk) (bootAt mnt σ'.disk) σ σ') : Given mnt old σ' := by
  obtain ⟨hs, log, inodes, blocks⟩ := given
  rcases gives with ⟨same, startIN, startBlock⟩ | ⟨more, startIN, startBlock⟩
  · exact ⟨hs, same.trans log, by rwa [startIN], by rwa [startBlock]⟩
  · refine ⟨hs ++ [(fStartIN.get (bootAt mnt σ.disk), fStartBlock.get (bootAt mnt σ.disk))], ?_, ?_, ?_⟩
    · rw [more, log, List.append_assoc]
    · rw [List.map_append]
      exact inodes.issue startIN
    · rw [List.map_append]
      exact blocks.issue startBlock

end Steps

theorem run_given {mnt : DriveTrait} (writable : mnt.fPacketReadOnly = false) (nonzero : mnt.fLbaStart ≠ 0)
    {calls : List FsCall} {σ σ' : Mount} (run : Run (Guarded (Clear mnt) (FsStep mnt)) σ calls σ')
    {old : List (Lba × Lba)} (sane : BootSane mnt (bootAt mnt σ.disk)) (given : Given mnt old σ) :
    BootSane mnt (bootAt mnt σ'.disk) ∧ Given mnt old σ' := by
  induction run with
  | nil => exact ⟨sane, given⟩
  | cons head _ ih =>
      obtain ⟨clear, r, taken⟩ := head
      obtain ⟨next, gives⟩ := step_gives writable nonzero sane clear taken
      exact ih next (given.step gives)

end Ne.Kernel.FS
