import NeKernel.FS.BootSteps

/-!
# Mounting a volume again

`Format` recognises a volume by the magic, the version and the checksum of its boot node. Every call
computes that checksum over a structure that still holds the one before, so the volume is recognised
only when the two agree.
-/

namespace Ne.Kernel.FS
open ByteMem Strides Runs
open HefsBootNode hiding size fChecksum
open HefsIndexNodeDirectory hiding size fChecksum

/-- Every drive that finds `disk` under the volume's start is told so by `Format`, which writes nothing. -/
def Remounts (mnt : DriveTrait) (disk : Memory) : Prop :=
  ∀ (next : DriveTrait) (flags : BitVec 32) (volName : Path) (σ : Mount),
    next.fLbaStart = mnt.fLbaStart → σ.disk = disk → σ.fPacketGood = true →
    ∃ τ, heFormat next flags volName σ = some (true, τ) ∧ τ.disk = σ.disk ∧ τ.written = σ.written

/-- The checksum of the structure, old checksum included, is that old checksum or zero. -/
def Settled (boot : Image) : Prop :=
  imageCrc boot HefsBootNode.size = HefsBootNode.fChecksum.get boot ∨ imageCrc boot HefsBootNode.size = 0

instance (boot : Image) : Decidable (Settled boot) := inferInstanceAs (Decidable (_ ∨ _))

def Seals (mnt : DriveTrait) (call : FsCall) (σ : Mount) : Prop := Settled (nextBoot call (bootAt mnt σ.disk))

section Recognition
variable {mnt next : DriveTrait} {boot : Image} {disk : Memory}

theorem imageCrc_lt (s : Image) (n : Nat) : (imageCrc s n).toNat < 2 ^ 32 := by
  rw [imageCrc, BitVec.toNat_setWidth]
  exact lt_of_le_of_lt (Nat.mod_le _ _) (BitVec.isLt _)

theorem fChecksum_seal : HefsBootNode.fChecksum.get (sealBoot boot) = imageCrc boot HefsBootNode.size := by
  have bound := imageCrc_lt boot HefsBootNode.size
  apply BitVec.eq_of_toNat_eq
  rw [sealBoot, Field.get_set_same, BitVec.toNat_ofNat]
  have power : 256 ^ HefsBootNode.fChecksum.size = 2 ^ 32 := by decide
  rw [power, Nat.mod_eq_of_lt (a := _ % 2 ^ 32) (by omega), Nat.mod_eq_of_lt bound]

/-- A stored boot node passes the test of `Format` exactly if it was settled. -/
theorem checksumGood_stored :
    checksumGood (window (sealBoot boot) 0 HefsBootNode.size) = true ↔ Settled boot := by
  have same : imageCrc (sealBoot boot) HefsBootNode.size = imageCrc boot HefsBootNode.size ↔
      HefsBootNode.fChecksum.get (sealBoot boot) = HefsBootNode.fChecksum.get boot :=
    imageCrc_set_iff rfl (by decide) (by decide)
  unfold checksumGood Settled
  rw [imageCrc_trim (by decide), get_trim (by decide), fChecksum_seal, decide_eq_true_iff, same, fChecksum_seal]

theorem bootAt_next (start : next.fLbaStart = mnt.fLbaStart) : bootAt next disk = bootAt mnt disk := by
  rw [bootAt, bootAt, start]

theorem remounts_iff (valid : bootValid (bootAt mnt disk) = true) :
    Remounts mnt disk ↔ checksumGood (bootAt mnt disk) = true := by
  constructor
  · intro remounts
    obtain ⟨τ, formatted, -⟩ := remounts mnt 0 [] ⟨disk, true, 0, []⟩ rfl rfl rfl
    cases good : checksumGood (bootAt mnt disk) with
    | true => rfl
    | false => simp [heFormat, ioDrvInput_boot, valid, good] at formatted
  · rintro good next flags volName σ start rfl packet
    refine ⟨{ next.completed σ with errGlobal := kErrorSuccess }, ?_, completed_disk, completed_written⟩
    simp [heFormat, ioDrvInput_boot, bootAt_next start, packet, valid, good]

end Recognition

/-! ## Runs -/

/-- Whether the last call of a run that stored the boot node sealed it. -/
def lastSealed (mnt : DriveTrait) : List FsCall → Mount → Prop → Prop
  | [], _, last => last
  | call :: calls, σ, last =>
      match call.run mnt σ with
      | some (true, σ') => lastSealed mnt calls σ' (Seals mnt call σ)
      | some (false, σ') => lastSealed mnt calls σ' last
      | none => last

theorem run_checksum {mnt : DriveTrait} (writable : mnt.fPacketReadOnly = false) (nonzero : mnt.fLbaStart ≠ 0)
    {calls : List FsCall} {σ σ' : Mount} (run : Run (Guarded (Clear mnt) (FsStep mnt)) σ calls σ')
    {last : Prop} (sane : BootSane mnt (bootAt mnt σ.disk))
    (recorded : checksumGood (bootAt mnt σ.disk) = true ↔ last) :
    BootSane mnt (bootAt mnt σ'.disk) ∧
      (checksumGood (bootAt mnt σ'.disk) = true ↔ lastSealed mnt calls σ last) := by
  induction run generalizing last with
  | nil => exact ⟨sane, recorded⟩
  | @cons σ τ σ' call calls head _ ih =>
      obtain ⟨clear, r, taken⟩ := head
      unfold lastSealed
      rw [taken]
      rcases step_boot writable nonzero sane clear taken with ⟨rfl, same⟩ | ⟨rfl, next, stored⟩
      · exact ih (by rwa [same]) (by rwa [same])
      · refine ih (by rw [stored]; exact next.trim) ?_
        rw [stored, checksumGood_stored]
        rfl

/-! ## The full volume -/

theorem fullDrive_unsettled :
    ¬ Settled (formatBoot fullDrive 0 [] (bootAt fullDrive fullMount.disk)) := by
  decide +kernel

end Ne.Kernel.FS
