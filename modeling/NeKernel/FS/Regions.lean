import NeKernel.FS.BootSteps

/-!
# Where the structures of a volume are written

Directory nodes belong between `fStartIND` and `fEndIND`, index nodes between there and `fEndIN`, and
the blocks of files behind them. The loops compare their cursor with `>`, so that each of them also
takes the node that starts below an end and runs past it, and a rotation follows links that nothing
compares with a region.
-/

namespace Ne.Kernel.FS
open ByteMem Strides Runs
open HefsBootNode hiding size fChecksum
open HefsIndexNodeDirectory hiding size fChecksum

/-- The 512 bytes at `lba` lie between `first` and `last`. -/
def Inside (first last lba : Lba) : Prop := first.toNat ≤ lba.toNat ∧ lba.toNat + 512 ≤ last.toNat

instance (first last lba : Lba) : Decidable (Inside first last lba) := inferInstanceAs (Decidable (_ ∧ _))

/-- The block an index node gives its file. -/
def blockOf (node : Image) : Lba :=
  (HefsIndexNode.fOffsetSliceHigh.get node <<< 32) ||| HefsIndexNode.fOffsetSliceLow.get node

def Contained (mnt : DriveTrait) (p : Packet) : Prop :=
  mnt.fLbaStart.toNat ≤ p.fPacketLba.toNat ∧
    match p.content with
    | .boot => True
    | .directory => Inside (indStart mnt) (indEnd mnt) p.fPacketLba
    | .inode => Inside (indEnd mnt) (inEnd mnt) p.fPacketLba ∧
        (HefsIndexNode.fCreated.get p.body ≠ 0 → Inside (inEnd mnt) mnt.drvStdGetSize (blockOf p.body))

/-- The node that a call is about to store, and the block it hands out, have room in their regions. -/
def StoresIn (mnt : DriveTrait) (σ : Mount) : FsCall → Prop
  | .directory _ dir deleteOrCreate => ∀ start,
      (indScan (bootAt mnt σ.disk)).find? (fun start =>
        indMatches dir deleteOrCreate (directoryAt σ.disk start)) = some start →
      start.toNat + 512 ≤ (indEnd mnt).toNat
  | .inode _ dir name deleteOrCreate _ => ∀ start i,
      (indScan (bootAt mnt σ.disk)).findSome?
        (sliceIn σ.disk (hefsiHash64 dir) (hefsiHash64 name) deleteOrCreate) = some (start, i) →
      start.toNat + 512 ≤ (indEnd mnt).toNat ∧
        if deleteOrCreate then Inside (indEnd mnt) (inEnd mnt) ((fINSlices i).get (directoryAt σ.disk start))
        else (fStartIN.get (bootAt mnt σ.disk)).toNat + 512 ≤ (inEnd mnt).toNat ∧
          (fStartBlock.get (bootAt mnt σ.disk)).toNat + 512 ≤ mnt.drvStdGetSize.toNat

/-- A round of the balance visits a node of the region whose links stay in it, or writes nothing. -/
def RoundIn (mnt : DriveTrait) (boot : Image) (start : Lba) (σ : Mount) : Prop :=
  Quiet boot start σ.disk ∨
    start.toNat + 512 ≤ (indEnd mnt).toNat ∧ TurnsIn (Inside (indStart mnt) (indEnd mnt)) mnt boot start σ

def Fits (mnt : DriveTrait) (call : FsCall) (σ : Mount) : Prop :=
  StoresIn mnt σ call ∧ ∀ boot' τ, call.update mnt σ = some (boot', τ) →
    BalanceAll mnt boot' (RoundIn mnt boot') (indScan boot') τ

section Rounds
variable {mnt : DriveTrait} {boot : Image} {start lba : Lba} {σ σ' : Mount} {P P' : Lba → Prop}

theorem BalanceAll.imp {guard guard' : Lba → Mount → Prop} {scan : List Lba}
    (all : BalanceAll mnt boot guard scan σ)
    (weaker : ∀ start ∈ scan, ∀ τ, guard start τ → guard' start τ) : BalanceAll mnt boot guard' scan σ := by
  induction scan generalizing σ with
  | nil => trivial
  | cons start rest ih =>
      intro good
      obtain ⟨here, later⟩ := all good
      exact ⟨weaker start (by simp) σ here, ih later fun next member => weaker next (by simp [member])⟩

theorem TurnsIn.imp (turns : TurnsIn P mnt boot start σ) (weaker : ∀ lba, P lba → P' lba) :
    TurnsIn P' mnt boot start σ :=
  fun black child rotates => (turns black child rotates).imp weaker

theorem Quiet.turnsIn (quiet : Quiet boot start σ.disk) : TurnsIn P mnt boot start σ := by
  obtain ⟨other, still⟩ := quiet
  unfold TurnsIn
  rw [blackened_other other]
  intro black _ rotates
  rcases still with ⟨plain, -⟩ | ⟨-, -, idle, -⟩
  · exact absurd black plain
  · exact absurd (by rwa [completed_disk] at rotates) idle

theorem inside_offBoot (inside : Inside (indStart mnt) (indEnd mnt) lba) : OffBoot mnt lba := by
  have last := indEnd_toNat mnt
  obtain ⟨low, high⟩ := inside
  exact offBoot_behind low (by omega)

theorem RoundIn.turnsIn (round : RoundIn mnt boot start σ) : TurnsIn (OffBoot mnt) mnt boot start σ := by
  rcases round with quiet | ⟨-, turns⟩
  · exact quiet.turnsIn
  · exact turns.imp fun _ => inside_offBoot

theorem contained_directory (inside : Inside (indStart mnt) (indEnd mnt) lba) (body : Image) :
    Contained mnt ⟨.directory, lba, body⟩ := by
  have first := indStart_toNat mnt
  obtain ⟨low, high⟩ := inside
  exact ⟨by dsimp only; omega, low, high⟩

theorem contained_boot (body : Image) : Contained mnt ⟨.boot, mnt.fLbaStart, body⟩ := ⟨le_rfl, trivial⟩

theorem contained_inode {node : Image} (inside : Inside (indEnd mnt) (inEnd mnt) lba)
    (block : HefsIndexNode.fCreated.get node ≠ 0 → Inside (inEnd mnt) mnt.drvStdGetSize (blockOf node)) :
    Contained mnt ⟨.inode, lba, node⟩ := by
  have first := indStart_toNat mnt
  have second := indEnd_toNat mnt
  have low := inside.1
  exact ⟨by dsimp only; omega, inside, block⟩

theorem round_contained (sane : BootSane mnt boot) (visited : start ∈ indScan boot)
    (round : RoundIn mnt boot start σ) : Writes (Contained mnt) σ (balanceNode mnt boot start σ) := by
  have low := (indScan_bounds sane visited).1
  rcases round with quiet | ⟨room, turns⟩
  · exact balanceNode_quiet quiet
  · exact balanceNode_writes (contained_directory ⟨low, room⟩)
      (turns.imp fun _ inside => contained_directory inside)

end Rounds

section Stores
variable {mnt : DriveTrait} {boot boot' node : Image} {σ σ' τ : Mount} {call : FsCall} {r : Bool} {start : Lba}

theorem or_halves (v : BitVec 64) :
    BitVec.ofNat 64 ((v >>> 32).toNat % 2 ^ 32) <<< 32 ||| BitVec.ofNat 64 (v.toNat % 2 ^ 32) = v := by
  have half (w : BitVec 64) (i : Nat) (bound : i < 64) :
      (BitVec.ofNat 64 (w.toNat % 2 ^ 32)).getLsbD i = (decide (i < 32) && w.getLsbD i) := by
    rw [BitVec.getLsbD_ofNat, Nat.testBit_mod_two_pow, BitVec.testBit_toNat]
    simp [bound]
  apply BitVec.eq_of_getLsbD_eq
  intro i bound
  rw [BitVec.getLsbD_or, BitVec.getLsbD_shiftLeft, half v i bound, half _ (i - 32) (by omega),
    BitVec.getLsbD_ushiftRight]
  by_cases low : i < 32
  · simp [low]
  · have upper : i - 32 < 32 := by omega
    have back : 32 + (i - 32) = i := by omega
    simp [low, bound, upper, back]

/-- The block a creation hands out is the one the cursor of the boot node names. -/
theorem blockOf_link (block : Lba) : blockOf (sealINode (HefsIndexNode.fOffsetSliceHigh.set (block >>> 32)
    (HefsIndexNode.fOffsetSliceLow.set block node))) = block := by
  rw [blockOf, sealINode, Field.get_set_other (by decide), Field.get_set_same, Field.get_set_other (by decide),
    Field.get_set_other (by decide), Field.get_set_same]
  exact or_halves block

theorem created_unlink : HefsIndexNode.fCreated.get
    (HefsIndexNode.fOffsetSliceHigh.set 0 (HefsIndexNode.fOffsetSliceLow.set 0 node)) =
      HefsIndexNode.fCreated.get node := by
  rw [Field.get_set_other (by decide), Field.get_set_other (by decide)]

theorem created_entry (flags : BitVec 32) (name : Path) (kind : BitVec 8) :
    HefsIndexNode.fCreated.get (inodeEntry flags name true kind) = 0 := by
  simp (disch := decide) only [inodeEntry, Field.get_set_other]
  exact Field.get_set_full rfl

theorem update_contained (sane : BootSane mnt (bootAt mnt σ.disk)) (stores : StoresIn mnt σ call)
    (updated : call.update mnt σ = some (boot', τ)) : Writes (Contained mnt) σ τ := by
  cases call with
  | directory flags dir deleteOrCreate =>
      obtain ⟨start, search, stored⟩ := Option.map_eq_some_iff.mp updated
      obtain ⟨-, rfl⟩ := Prod.ext_iff.mp stored
      have low := (indScan_bounds sane (List.mem_of_find?_eq_some search)).1
      have node : Inside (indStart mnt) (indEnd mnt) start := ⟨low, stores start search⟩
      exact ((completed_writes.trans (ioDrvOutput_writes (contained_directory node _))).status _).trans
        (ioDrvOutput_writes (contained_boot _))
  | inode flags dir name deleteOrCreate kind =>
      obtain ⟨-, start, i, search, stored⟩ := update_inode updated
      have low := (indScan_bounds sane (search_visited search)).1
      obtain ⟨room, rest⟩ := stores start i search
      have dirNode := contained_directory ⟨low, room⟩
      cases deleteOrCreate with
      | false =>
          obtain ⟨-, rfl⟩ := Prod.ext_iff.mp stored
          obtain ⟨inodes, blocks⟩ := rest
          unfold linkINode
          dsimp only
          rw [linked_slice]
          refine ((completed_writes.trans (ioDrvOutput_writes (dirNode _))).trans
            (ioDrvOutput_writes ?_)).trans (ioDrvOutput_writes (contained_boot _))
          refine contained_inode ⟨sane.inodes, inodes⟩ fun _ => ?_
          rw [blockOf_link]
          exact ⟨sane.blocks, blocks⟩
      | true =>
          rw [if_pos rfl] at stored
          obtain ⟨-, rfl⟩ := Prod.ext_iff.mp stored
          unfold unlinkINode
          dsimp only
          rw [completed_disk]
          refine ((completed_writes.trans (ioDrvOutput_writes (contained_boot _))).trans
            (ioDrvOutput_writes ?_)).trans (ioDrvOutput_writes (dirNode _))
          refine contained_inode rest fun created => absurd ?_ created
          rw [created_unlink, created_entry]

theorem update_logged {flags : BitVec 32} {dir name : Path} {kind : BitVec 8} {i : Fin kOpenHeFSSliceCount}
    (writable : mnt.fPacketReadOnly = false) (sane : BootSane mnt (bootAt mnt σ.disk))
    (updated : FsCall.update mnt σ (.inode flags dir name false kind) = some (boot', τ))
    (search : (indScan (bootAt mnt σ.disk)).findSome?
      (sliceIn σ.disk (hefsiHash64 dir) (hefsiHash64 name) false) = some (start, i)) :
    ∃ body, ⟨.directory, start, body⟩ ∈ τ.written := by
  have low := (indScan_bounds sane (search_visited search)).1
  have first := indStart_toNat mnt
  have nonzero : start ≠ 0 := by
    rintro rfl
    simp at low
    omega
  obtain ⟨-, start', i', found, stored⟩ := update_inode updated
  obtain ⟨rfl, rfl⟩ := Prod.ext_iff.mp (Option.some.inj (found.symm.trans search))
  obtain ⟨-, rfl⟩ := Prod.ext_iff.mp stored
  exact ⟨_, ((ioDrvOutput_writes (Q := fun _ => True) trivial).trans (ioDrvOutput_writes trivial)).mem
    (ioDrvOutput_mem writable nonzero)⟩

theorem Fits.clear (fits : Fits mnt call σ) : Clear mnt call σ := by
  obtain ⟨stores, rounds⟩ := fits
  constructor
  · cases call with
    | directory flags dir deleteOrCreate => trivial
    | inode flags dir name deleteOrCreate kind =>
        cases deleteOrCreate with
        | false => trivial
        | true =>
            intro start i search
            have slice := (stores start i search).2
            have first := indEnd_toNat mnt
            have last := inEnd_toNat mnt
            rw [if_pos rfl] at slice
            obtain ⟨low, high⟩ := slice
            exact offBoot_behind (by omega) (by omega)
  · intro boot' τ updated
    exact (rounds boot' τ updated).imp fun start _ τ round => round.turnsIn

theorem step_contained (writable : mnt.fPacketReadOnly = false) (nonzero : mnt.fLbaStart ≠ 0)
    (sane : BootSane mnt (bootAt mnt σ.disk)) (fits : Fits mnt call σ)
    (taken : call.run mnt σ = some (r, σ')) :
    BootSane mnt (bootAt mnt σ'.disk) ∧ Writes (Contained mnt) σ σ' := by
  have kept : BootSane mnt (bootAt mnt σ'.disk) := by
    rcases step_boot writable nonzero sane fits.clear taken with ⟨-, same⟩ | ⟨-, next, stored⟩
    · rwa [same]
    · rw [stored]
      exact next.trim
  refine ⟨kept, ?_⟩
  rcases run_cases sane.valid taken with ⟨-, disk, written, -⟩ | ⟨-, boot', τ, updated, disk, written, -⟩
  · exact .of_same disk written
  · have next := (update_boot writable nonzero sane fits.clear.1 updated).2.1
    refine ((update_contained sane fits.1 updated).trans ?_).trans (.of_same disk written)
    exact hefsiBalanceInd_writes (fun start visited τ round => round_contained next visited round)
      (fits.2 boot' τ updated)

end Stores

theorem run_contained {mnt : DriveTrait} (writable : mnt.fPacketReadOnly = false) (nonzero : mnt.fLbaStart ≠ 0)
    {calls : List FsCall} {σ σ' : Mount} (run : Run (Guarded (Fits mnt) (FsStep mnt)) σ calls σ')
    (sane : BootSane mnt (bootAt mnt σ.disk)) :
    BootSane mnt (bootAt mnt σ'.disk) ∧ Writes (Contained mnt) σ σ' := by
  induction run with
  | nil => exact ⟨sane, .of_same rfl rfl⟩
  | cons head _ ih =>
      obtain ⟨fits, r, taken⟩ := head
      obtain ⟨next, first⟩ := step_contained writable nonzero sane fits taken
      obtain ⟨last, rest⟩ := ih next
      exact ⟨last, first.trans rest⟩

theorem fits_full {mnt : DriveTrait} {σ : Mount} (full : NoneFree mnt σ.disk) (flags : BitVec 32) (dir : Path) :
    Fits mnt (.directory flags dir false) σ := by
  constructor
  · intro start search
    rw [indMatches_create, full] at search
    cases search
  · intro boot' τ updated
    rw [update_full full] at updated
    cases updated

end Ne.Kernel.FS
