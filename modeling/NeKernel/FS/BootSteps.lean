import NeKernel.FS.Formatted

/-!
# The boot node under the calls

As long as the links on the disk lead neither a deletion nor a rotation to the boot node, a call
either leaves it alone or stores its next version.
-/

namespace Ne.Kernel.FS
open ByteMem Strides Runs
open HefsBootNode hiding size fChecksum
open HefsIndexNodeDirectory hiding size fChecksum

/-- The boot node a call stores, but for its checksum. -/
def nextBoot (call : FsCall) (boot : Image) : Image :=
  match call with
  | .directory _ _ deleteOrCreate => counted deleteOrCreate boot
  | .inode _ _ _ deleteOrCreate _ => if deleteOrCreate then boot else advanced boot

/-- The index node that a deletion writes to lies on a `P` address. -/
def DeletesIn (P : Lba → Prop) (mnt : DriveTrait) (σ : Mount) : FsCall → Prop
  | .inode _ dir name true _ => ∀ start i,
      (indScan (bootAt mnt σ.disk)).findSome? (sliceIn σ.disk (hefsiHash64 dir) (hefsiHash64 name) true) =
        some (start, i) → P ((fINSlices i).get (directoryAt σ.disk start))
  | _ => True

/-- The links on the disk lead neither a deletion nor a rotation to the boot node. -/
def Clear (mnt : DriveTrait) (call : FsCall) (σ : Mount) : Prop :=
  DeletesIn (OffBoot mnt) mnt σ call ∧ ∀ boot' τ, call.update mnt σ = some (boot', τ) →
    BalanceAll mnt boot' (TurnsIn (OffBoot mnt) mnt boot') (indScan boot') τ

section Stores
variable {mnt : DriveTrait} {boot boot' : Image} {σ σ' τ : Mount} {call : FsCall} {r : Bool}

theorem directory_ne_boot : Content.directory ≠ .boot := by decide

theorem output_offBoot {content : Content} {lba : Lba} {body : Image} (other : content ≠ .boot)
    (off : OffBoot mnt lba) :
    bootAt mnt (ioDrvOutput mnt content lba body σ).disk = bootAt mnt σ.disk :=
  bootAt_writes (ioDrvOutput_writes (Q := fun p => p.content ≠ .boot ∧ OffBoot mnt p.fPacketLba) ⟨other, off⟩)

theorem slice_disjoint (i : Fin kOpenHeFSSliceCount) {f : Field} (apart : f.off + f.size ≤ 66 ∨ 194 ≤ f.off) :
    (fINSlices i).Disjoint f := by
  have bound : i.val < 16 := i.isLt
  unfold Field.Disjoint fINSlices
  dsimp only
  omega

theorem linked_slice (i : Fin kOpenHeFSSliceCount) (lba count : Lba) (dir : Image) :
    (fINSlices i).get (sealDirectory (fEntryCount.set count ((fINSlices i).set lba dir))) = lba := by
  rw [sealDirectory_get (slice_disjoint i (by decide)), Field.get_set_other (slice_disjoint i (by decide)),
    Field.get_set_full rfl]

theorem sliceIn_start {disk : Memory} {dirHash hashFile : BitVec 64} {deleteOrCreate : Bool}
    {start found : Lba} {i : Fin kOpenHeFSSliceCount}
    (search : sliceIn disk dirHash hashFile deleteOrCreate start = some (found, i)) : found = start := by
  unfold sliceIn at search
  dsimp only at search
  split at search
  · obtain ⟨j, -, pair⟩ := Option.map_eq_some_iff.mp search
    exact (Prod.ext_iff.mp pair).1.symm
  · cases search

theorem search_visited {disk : Memory} {dirHash hashFile : BitVec 64} {deleteOrCreate : Bool}
    {start : Lba} {i : Fin kOpenHeFSSliceCount} {scan : List Lba}
    (search : scan.findSome? (sliceIn disk dirHash hashFile deleteOrCreate) = some (start, i)) :
    start ∈ scan := by
  obtain ⟨visited, member, here⟩ := List.exists_of_findSome?_eq_some search
  rwa [sliceIn_start here]

section Writable
variable (writable : mnt.fPacketReadOnly = false) (nonzero : mnt.fLbaStart ≠ 0)
include writable nonzero

theorem update_boot (sane : BootSane mnt (bootAt mnt σ.disk)) (deletes : DeletesIn (OffBoot mnt) mnt σ call)
    (updated : call.update mnt σ = some (boot', τ)) :
    boot' = sealBoot (nextBoot call (bootAt mnt σ.disk)) ∧ BootSane mnt boot' ∧
      bootAt mnt τ.disk = window boot' 0 HefsBootNode.size := by
  cases call with
  | directory flags dir deleteOrCreate =>
      obtain ⟨start, -, stored⟩ := Option.map_eq_some_iff.mp updated
      obtain ⟨rfl, rfl⟩ := Prod.ext_iff.mp stored
      exact ⟨rfl, (sane.counted _).sealed, output_bootAt writable nonzero _ _⟩
  | inode flags dir name deleteOrCreate kind =>
      obtain ⟨bounds, start, i, search, stored⟩ := update_inode updated
      have visited := search_visited search
      cases deleteOrCreate with
      | false =>
          obtain ⟨rfl, rfl⟩ := Prod.ext_iff.mp stored
          exact ⟨rfl, (sane.advanced bounds.2.1 bounds.2.2).sealed, output_bootAt writable nonzero _ _⟩
      | true =>
          rw [if_pos rfl] at stored
          obtain ⟨rfl, rfl⟩ := Prod.ext_iff.mp stored
          refine ⟨rfl, sane.sealed, ?_⟩
          have slice := deletes start i search
          unfold unlinkINode
          dsimp only
          rw [completed_disk, output_offBoot (by decide) (indScan_off sane visited), output_offBoot (by decide) slice,
            output_bootAt writable nonzero]

omit writable nonzero in
theorem balance_bootAt (sane : BootSane mnt boot)
    (turns : BalanceAll mnt boot (TurnsIn (OffBoot mnt) mnt boot) (indScan boot) σ) :
    bootAt mnt (hefsiBalanceInd mnt boot σ).2.disk = bootAt mnt σ.disk := by
  apply bootAt_writes
  refine hefsiBalanceInd_writes (fun start visited τ turn => ?_) turns
  refine balanceNode_writes (fun body => ⟨directory_ne_boot, indScan_off sane visited⟩) ?_
  exact fun black child rotates => (turn black child rotates).imp fun lba off body => ⟨directory_ne_boot, off⟩

theorem step_boot (sane : BootSane mnt (bootAt mnt σ.disk)) (clear : Clear mnt call σ)
    (taken : call.run mnt σ = some (r, σ')) :
    (r = false ∧ bootAt mnt σ'.disk = bootAt mnt σ.disk) ∨
    (r = true ∧ BootSane mnt (sealBoot (nextBoot call (bootAt mnt σ.disk))) ∧
      bootAt mnt σ'.disk = window (sealBoot (nextBoot call (bootAt mnt σ.disk))) 0 HefsBootNode.size) := by
  rcases run_cases sane.valid taken with ⟨failed, same, -⟩ | ⟨done, boot', τ, updated, disk, -⟩
  · exact .inl ⟨failed, by rw [same]⟩
  · obtain ⟨rfl, next, stored⟩ := update_boot writable nonzero sane clear.1 updated
    refine .inr ⟨done, next, ?_⟩
    rw [disk, balance_bootAt next (clear.2 _ _ updated), stored]

end Writable

end Stores

theorem clear_full {mnt : DriveTrait} {σ : Mount} (full : NoneFree mnt σ.disk) (flags : BitVec 32) (dir : Path) :
    Clear mnt (.directory flags dir false) σ := by
  refine ⟨trivial, fun boot' τ updated => ?_⟩
  rw [update_full full] at updated
  cases updated

end Ne.Kernel.FS
