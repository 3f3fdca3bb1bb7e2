import NeKernel.FS.Steps

/-!
# The boot node

`Format` fixes the four regions of the volume. Afterwards a call changes the counters of the boot
node and stores it under a fresh checksum, computed while the old checksum is still in its field.
-/

namespace Ne.Kernel.FS
open ByteMem Strides
open HefsBootNode hiding size fChecksum
open HefsIndexNodeDirectory hiding size fChecksum

/-! ## Checksums of images -/

section Checksum
variable {s : Image} {f : Field} {v : BitVec 64} {n : Nat}

theorem read_around (inside : f.off + f.size ≤ n) : read s 0 n =
    read s 0 f.off ++ read s (BitVec.ofNat 64 f.off) f.size ++
      read s (BitVec.ofNat 64 (f.off + f.size)) (n - f.off - f.size) := by
  have total : n = f.off + f.size + (n - f.off - f.size) := by omega
  conv => lhs; rw [total]
  rw [read_add, read_add]
  simp

theorem read_set_before : read (f.set v s) 0 f.off = read s 0 f.off := by
  have fits := f.fits
  apply read_congr (by omega)
  intro x inside
  apply Field.set_outside
  have position := within_start inside
  omega

theorem read_set_behind (inside : f.off + f.size ≤ n) (small : n ≤ 2 ^ 16) :
    read (f.set v s) (BitVec.ofNat 64 (f.off + f.size)) (n - f.off - f.size) =
      read s (BitVec.ofNat 64 (f.off + f.size)) (n - f.off - f.size) := by
  apply read_congr (by omega)
  intro x there
  apply Field.set_outside
  have position := within_offset (by omega) there
  omega

theorem get_eq_leNat (f : Field) (s : Image) :
    (f.get s).toNat = leNat (read s (BitVec.ofNat 64 f.off) f.size) := by
  have small := f.small
  have bound := leNat_lt (read s (BitVec.ofNat 64 f.off) f.size)
  have power : 256 ^ f.size ≤ 256 ^ 8 := Nat.pow_le_pow_right (by decide) small
  rw [read_length] at bound
  rw [Field.get, load, BitVec.toNat_ofNat, Nat.mod_eq_of_lt (by omega)]

/-- Overwriting a four-byte member keeps the checksum of the structure only if it keeps the member. -/
theorem imageCrc_set_iff (four : f.size = 4) (inside : f.off + f.size ≤ n) (small : n ≤ 2 ^ 16) :
    imageCrc (f.set v s) n = imageCrc s n ↔ f.get (f.set v s) = f.get s := by
  unfold imageCrc
  rw [read_around inside, read_set_before, read_set_behind inside small, read_around (s := s) inside]
  constructor
  · intro same
    have narrow := congrArg (BitVec.setWidth 32) same
    simp only [BitVec.setWidth_setWidth_of_le _ (by decide : 32 ≤ 64), BitVec.setWidth_eq] at narrow
    have member := keCalculateCrc32_field (by simp) (by simp [four]) narrow
    apply BitVec.eq_of_toNat_eq
    rw [get_eq_leNat, get_eq_leNat, member]
  · intro same
    have member : read (f.set v s) (BitVec.ofNat 64 f.off) f.size = read s (BitVec.ofNat 64 f.off) f.size := by
      apply leNat_injective (by simp)
      rw [← get_eq_leNat, ← get_eq_leNat, same]
    rw [member]

end Checksum

/-! ## The regions of a volume -/

def indStart (mnt : DriveTrait) : Lba := mnt.fLbaStart + BitVec.ofNat 64 HefsBootNode.size

def indEnd (mnt : DriveTrait) : Lba := indStart mnt + mnt.drvStdGetSize / mnt.fSectorSz / 300

def inEnd (mnt : DriveTrait) : Lba := indEnd mnt + mnt.drvStdGetSize / mnt.fSectorSz / 400

section Regions
variable (mnt : DriveTrait)

theorem drvStdGetSize_lt : mnt.drvStdGetSize.toNat < 2 ^ 57 := by
  have sectors := mnt.sectors_lt
  rw [DriveTrait.drvStdGetSize, BitVec.toNat_mul, Nat.mod_eq_of_lt]
  · simp
    omega
  · simp
    omega

theorem share_lt (k : Nat) :
    (mnt.drvStdGetSize / mnt.fSectorSz / BitVec.ofNat 64 k).toNat < 2 ^ 57 := by
  have size := drvStdGetSize_lt mnt
  rw [BitVec.toNat_udiv, BitVec.toNat_udiv]
  exact lt_of_le_of_lt ((Nat.div_le_self _ _).trans (Nat.div_le_self _ _)) size

theorem indStart_toNat : (indStart mnt).toNat = mnt.fLbaStart.toNat + 513 := by
  have start := mnt.start_lt
  rw [indStart, BitVec.toNat_add, Nat.mod_eq_of_lt]
  · simp [HefsBootNode.size]
  · simp [HefsBootNode.size]
    omega

theorem indEnd_toNat : (indStart mnt).toNat ≤ (indEnd mnt).toNat ∧ (indEnd mnt).toNat < 2 ^ 59 := by
  have start := mnt.start_lt
  have first := indStart_toNat mnt
  have share := share_lt mnt 300
  rw [indEnd, BitVec.toNat_add, Nat.mod_eq_of_lt (by simp at share ⊢; omega)]
  simp at share ⊢
  omega

theorem inEnd_toNat : (indEnd mnt).toNat ≤ (inEnd mnt).toNat ∧ (inEnd mnt).toNat < 2 ^ 60 := by
  have before := indEnd_toNat mnt
  have share := share_lt mnt 400
  rw [inEnd, BitVec.toNat_add, Nat.mod_eq_of_lt (by simp at share ⊢; omega)]
  simp at share ⊢
  omega

end Regions

structure BootSane (mnt : DriveTrait) (boot : Image) : Prop where
  valid : bootValid boot = true
  startIND : fStartIND.get boot = indStart mnt
  endIND : fEndIND.get boot = indEnd mnt
  endIN : fEndIN.get boot = inEnd mnt
  endBlock : fEndBlock.get boot = mnt.drvStdGetSize
  inodes : (indEnd mnt).toNat ≤ (fStartIN.get boot).toNat
  inodesEnd : (fStartIN.get boot).toNat ≤ (inEnd mnt).toNat + 512
  blocks : (inEnd mnt).toNat ≤ (fStartBlock.get boot).toNat

section Fields
variable {mnt : DriveTrait} {boot s : Image} {f : Field} {v : BitVec 64}

theorem magic_set (behind : 9 ≤ f.off) : read (f.set v s) fMagic (kOpenHeFSMagic.length + 1) =
    read s fMagic (kOpenHeFSMagic.length + 1) := by
  have len : kOpenHeFSMagic.length + 1 = 9 := rfl
  rw [len]
  apply read_congr (by omega)
  intro x inside
  have position := within_start inside
  exact Field.set_outside (.inl (by omega))

theorem bootValid_set (behind : 9 ≤ f.off) (other : fVersion.Disjoint f) :
    bootValid (f.set v s) = bootValid s := by
  unfold bootValid
  rw [Field.get_set_other other, magic_set behind]

theorem BootSane.set (sane : BootSane mnt boot) (behind : 9 ≤ f.off)
    (others : fVersion.Disjoint f ∧ fStartIND.Disjoint f ∧ fEndIND.Disjoint f ∧ fEndIN.Disjoint f ∧
      fEndBlock.Disjoint f ∧ fStartIN.Disjoint f ∧ fStartBlock.Disjoint f) : BootSane mnt (f.set v boot) := by
  obtain ⟨version, startIND, endIND, endIN, endBlock, startIN, startBlock⟩ := others
  constructor
  · rw [bootValid_set behind version, sane.valid]
  · rw [Field.get_set_other startIND, sane.startIND]
  · rw [Field.get_set_other endIND, sane.endIND]
  · rw [Field.get_set_other endIN, sane.endIN]
  · rw [Field.get_set_other endBlock, sane.endBlock]
  · rw [Field.get_set_other startIN]
    exact sane.inodes
  · rw [Field.get_set_other startIN]
    exact sane.inodesEnd
  · rw [Field.get_set_other startBlock]
    exact sane.blocks

theorem BootSane.sealed (sane : BootSane mnt boot) : BootSane mnt (sealBoot boot) :=
  sane.set (by decide) (by decide)

theorem BootSane.counted (sane : BootSane mnt boot) (deleteOrCreate : Bool) :
    BootSane mnt (counted deleteOrCreate boot) := sane.set (by decide) (by decide)

theorem advanced_inodes (sane : BootSane mnt boot) (inodes : fStartIN.get boot ≤ fEndIN.get boot) :
    (fStartIN.get (advanced boot)).toNat = (fStartIN.get boot).toNat + 512 := by
  have last := inEnd_toNat mnt
  rw [sane.endIN, BitVec.le_def] at inodes
  rw [advanced, Field.get_set_other (by decide), Field.get_set_full rfl, BitVec.toNat_add, Nat.mod_eq_of_lt] <;>
    simp [kNodeSize]
  omega

theorem advanced_blocks (sane : BootSane mnt boot) (blocks : fStartBlock.get boot ≤ fEndBlock.get boot) :
    (fStartBlock.get (advanced boot)).toNat = (fStartBlock.get boot).toNat + 512 := by
  have size := drvStdGetSize_lt mnt
  rw [sane.endBlock, BitVec.le_def] at blocks
  rw [advanced, Field.get_set_full rfl, Field.get_set_other (by decide), BitVec.toNat_add, Nat.mod_eq_of_lt] <;>
    simp [kOpenHeFSBlockLen]
  omega

theorem BootSane.advanced (sane : BootSane mnt boot) (inodes : fStartIN.get boot ≤ fEndIN.get boot)
    (blocks : fStartBlock.get boot ≤ fEndBlock.get boot) : BootSane mnt (advanced boot) := by
  have nextIN := advanced_inodes sane inodes
  have nextBlock := advanced_blocks sane blocks
  have low := sane.inodes
  have start := sane.blocks
  rw [sane.endIN, BitVec.le_def] at inodes
  have other {f : Field} (apart : f.Disjoint fStartIN ∧ f.Disjoint fStartBlock) :
      f.get (FS.advanced boot) = f.get boot := by
    rw [FS.advanced, Field.get_set_other apart.2, Field.get_set_other apart.1]
  constructor
  · rw [FS.advanced, bootValid_set (by decide) (by decide), bootValid_set (by decide) (by decide), sane.valid]
  · rw [other (by decide), sane.startIND]
  · rw [other (by decide), sane.endIND]
  · rw [other (by decide), sane.endIN]
  · rw [other (by decide), sane.endBlock]
  · omega
  · omega
  · omega

theorem get_trim {n : Nat} (inside : f.off + f.size ≤ n) : f.get (window s 0 n) = f.get s := by
  rw [Field.get_window inside, Field.on_zero]

theorem imageCrc_trim {n : Nat} (small : n ≤ 2 ^ 16) : imageCrc (window s 0 n) n = imageCrc s n := by
  rw [imageCrc, read_window (by omega), imageCrc]

theorem bootValid_trim : bootValid (window s 0 HefsBootNode.size) = bootValid s := by
  have magic : read (window s 0 HefsBootNode.size) fMagic (kOpenHeFSMagic.length + 1) =
      read s fMagic (kOpenHeFSMagic.length + 1) := by
    have len : kOpenHeFSMagic.length + 1 = 9 := rfl
    rw [len]
    apply read_congr (by omega)
    intro x inside
    have position := within_start inside
    rw [window, if_pos (by unfold HefsBootNode.size; omega)]
    simp
  unfold bootValid
  rw [get_trim (by decide), magic]

theorem BootSane.trim (sane : BootSane mnt boot) : BootSane mnt (window boot 0 HefsBootNode.size) := by
  constructor
  · rw [bootValid_trim, sane.valid]
  · rw [get_trim (by decide), sane.startIND]
  · rw [get_trim (by decide), sane.endIND]
  · rw [get_trim (by decide), sane.endIN]
  · rw [get_trim (by decide), sane.endBlock]
  · rw [get_trim (by decide)]
    exact sane.inodes
  · rw [get_trim (by decide)]
    exact sane.inodesEnd
  · rw [get_trim (by decide)]
    exact sane.blocks

end Fields

/-! ## Writes off the boot node -/

/-- A node at `lba` shares no byte with the boot node. -/
def OffBoot (mnt : DriveTrait) (lba : Lba) : Prop := Apart lba 512 mnt.fLbaStart HefsBootNode.size

section Off
variable {mnt : DriveTrait} {boot : Image} {σ σ' : Mount} {lba : Lba}

theorem offBoot_behind (low : (indStart mnt).toNat ≤ lba.toNat) (high : lba.toNat < 2 ^ 61) :
    OffBoot mnt lba := by
  have start := mnt.start_lt
  have first := indStart_toNat mnt
  exact (Apart.of_le (by omega) (by unfold HefsBootNode.size; omega)).symm

theorem indScan_stays (boot : Image) (x : Lba)
    (going : (fun start => decide (start > fEndIND.get boot) || start == 0) x = false) :
    x.toNat ≤ (fEndIND.get boot).toNat := by
  simp only [Bool.or_eq_false_iff, decide_eq_false_iff_not, BitVec.not_lt] at going
  exact BitVec.le_def.mp going.1

theorem indScan_bounds (sane : BootSane mnt boot) (visited : lba ∈ indScan boot) :
    (indStart mnt).toNat ≤ lba.toNat ∧ lba.toNat ≤ (indEnd mnt).toNat := by
  have last := indEnd_toNat mnt
  rw [← sane.startIND, ← sane.endIND] at last ⊢
  have room : (fEndIND.get boot).toNat + kNodeSize.toNat < 2 ^ 64 := by
    simp [kNodeSize]
    omega
  exact scan_bounds (indScan_stays boot) room last.1 visited

theorem indScan_off (sane : BootSane mnt boot) (visited : lba ∈ indScan boot) : OffBoot mnt lba := by
  have bounds := indScan_bounds sane visited
  have last := indEnd_toNat mnt
  exact offBoot_behind bounds.1 (by omega)

theorem bootAt_writes (writes : Writes (fun p => p.content ≠ .boot ∧ OffBoot mnt p.fPacketLba) σ σ') :
    bootAt mnt σ'.disk = bootAt mnt σ.disk := by
  apply window_congr
  intro x inside
  apply writes.disk_eq
  rintro ⟨content, lba, body⟩ ⟨other, off⟩ covered
  cases content
  case boot => exact other rfl
  all_goals exact off x covered inside

end Off


end Ne.Kernel.FS
