import Mathlib.Order.CompletePartialOrder
import Mathlib.Order.Interval.Set.Disjoint
import NeKernel.FS.MkfsHefs

/-!
# The ranges of a volume that the tool lays out

The tool compares each range by itself, with a product of words and before it adds the size of the node.
-/

namespace Ne.Kernel.FS.Mkfs
open ByteMem

/-! ## What a layout should be -/

section Ranges
variable (node : Image)

/-- The bytes of the directories, of the index nodes and of the blocks. Blocks are counted in sectors. -/
def directories : Set ℕ := Set.Ico (BootNode.startIND.get node).toNat (BootNode.endIND.get node).toNat

def inodes : Set ℕ := Set.Ico (BootNode.startIN.get node).toNat (BootNode.endIN.get node).toNat

def blocks : Set ℕ :=
  Set.Ico ((BootNode.startBlock.get node).toNat * (BootNode.sectorSize.get node).toNat)
    ((BootNode.endBlock.get node).toNat * (BootNode.sectorSize.get node).toNat)

/-- A node at `start` whose ranges are on the disk, behind the node and apart. -/
structure LaidOut (start : Lba) : Prop where
  directoryOrder : (BootNode.startIND.get node).toNat < (BootNode.endIND.get node).toNat
  directoryEnd : (BootNode.endIND.get node).toNat ≤ (BootNode.diskSize.get node).toNat
  inodeOrder : (BootNode.startIN.get node).toNat < (BootNode.endIN.get node).toNat
  inodeEnd : (BootNode.endIN.get node).toNat ≤ (BootNode.diskSize.get node).toNat
  blockOrder : (BootNode.startBlock.get node).toNat < (BootNode.endBlock.get node).toNat
  blockEnd : (BootNode.endBlock.get node).toNat * (BootNode.sectorSize.get node).toNat ≤
    (BootNode.diskSize.get node).toNat
  behindNode : start.toNat + BootNode.size ≤ (BootNode.startIND.get node).toNat
  directoriesInodes : Disjoint (directories node) (inodes node)
  directoriesBlocks : Disjoint (directories node) (blocks node)
  inodesBlocks : Disjoint (inodes node) (blocks node)

end Ranges

/-- One range ends before the other begins. -/
def Before (a b c d : ℕ) : Prop := b ≤ c ∨ d ≤ a

/-- Options with room for the node in front of the directories, a product that is no larger than a word, and ranges
that leave each other alone. -/
structure Compatible (v : Settings) : Prop where
  room : v.startInd.toNat + BootNode.size < v.endInd.toNat
  product : v.endBlock.toNat * v.kDiskSectorSz.toNat < 2 ^ 64
  directoriesInodes : Before (v.startInd.toNat + BootNode.size) v.endInd.toNat v.startIn.toNat v.endIn.toNat
  directoriesBlocks : Before (v.startInd.toNat + BootNode.size) v.endInd.toNat
    (v.startBlock.toNat * v.kDiskSectorSz.toNat) (v.endBlock.toNat * v.kDiskSectorSz.toNat)
  inodesBlocks : Before v.startIn.toNat v.endIn.toNat
    (v.startBlock.toNat * v.kDiskSectorSz.toNat) (v.endBlock.toNat * v.kDiskSectorSz.toNat)

/-! ## What the tool checks -/

section Checks
variable {v : Settings} {device disk : Memory} {opens : Bool} {argv : List (List Byte)} {start : Lba}
  {opt : List Byte} {first last : SizeT} {f : Field} {a b c d : ℕ}

theorem parseEnd_lt (parsed : parseEnd opt first = some last) : first < last := by
  obtain ⟨read, -, kept⟩ := Option.bind_eq_some_iff.mp parsed
  split at kept
  · cases kept
  · next above =>
      obtain rfl := Option.some.inj kept
      exact BitVec.not_le.mp above

/-- What is known of settings that the tool accepts. -/
structure Checked (v : Settings) : Prop where
  sector : 0 < v.kDiskSectorSz.toNat
  directory : v.startInd < v.endInd
  block : v.startBlock < v.endBlock
  inode : v.startIn < v.endIn
  blockEnd : ¬ v.kDiskSize < v.endBlock * v.kDiskSectorSz
  directoryEnd : ¬ v.kDiskSize < v.endInd
  inodeEnd : ¬ v.kDiskSize < v.endIn

theorem settings_checked (accepted : settings argv = some v) : Checked v := by
  unfold settings at accepted
  dsimp only at accepted
  split at accepted
  · cases accepted
  split at accepted
  · cases accepted
  obtain ⟨sectorSz, -, accepted⟩ := Option.bind_eq_some_iff.mp accepted
  split at accepted
  · cases accepted
  rename_i sector
  obtain ⟨gb, -, accepted⟩ := Option.bind_eq_some_iff.mp accepted
  split at accepted
  · cases accepted
  obtain ⟨startInd, -, accepted⟩ := Option.bind_eq_some_iff.mp accepted
  obtain ⟨endInd, directory, accepted⟩ := Option.bind_eq_some_iff.mp accepted
  obtain ⟨startBlock, -, accepted⟩ := Option.bind_eq_some_iff.mp accepted
  obtain ⟨endBlock, block, accepted⟩ := Option.bind_eq_some_iff.mp accepted
  obtain ⟨startIn, -, accepted⟩ := Option.bind_eq_some_iff.mp accepted
  obtain ⟨endIn, inode, accepted⟩ := Option.bind_eq_some_iff.mp accepted
  split at accepted
  · cases accepted
  rename_i ends
  obtain rfl := Option.some.inj accepted
  obtain ⟨blockEnd, directoryEnd, inodeEnd⟩ : _ ∧ _ ∧ _ := by simpa only [not_or] using ends
  exact ⟨Nat.pos_of_ne_zero fun zero => sector (.inl (BitVec.eq_of_toNat_eq zero)), parseEnd_lt directory,
    parseEnd_lt block, parseEnd_lt inode, blockEnd, directoryEnd, inodeEnd⟩

theorem main_accepted (done : main opens argv device = some (start, disk)) : ∃ v, settings argv = some v ∧
    v.startInd.toNat < 2 ^ 63 ∧ start = v.startInd ∧ disk = written v device := by
  obtain ⟨v, accepted, sought⟩ := Option.bind_eq_some_iff.mp done
  split at sought
  · cases sought
  · next seekable =>
      obtain ⟨rfl, rfl⟩ := Prod.ext_iff.mp (Option.some.inj sought)
      refine ⟨v, accepted, ?_, rfl, rfl⟩
      have positive : ¬ v.startInd.slt 0 = true := fun negative => seekable (.inr (.inl negative))
      have low := mt BitVec.slt_zero_iff_msb_cond.mpr positive
      rw [BitVec.msb_eq_true_iff_two_mul_ge] at low
      omega

/-- The magic and the label lie in front of the numbers. -/
theorem get_labelled {node : Image} {label : List Byte} (behind : 137 ≤ f.off) :
    f.get (write (write node BootNode.magic (kOpenHeFSMagic ++ [0])) BootNode.volumeName
      (label.take (kOpenHeFSPartNameLen - 1))) = f.get node := by
  have short := List.length_take_le (kOpenHeFSPartNameLen - 1) label
  have name : BootNode.volumeName.toNat + (label.take (kOpenHeFSPartNameLen - 1)).length ≤ 137 := by
    have start : BootNode.volumeName.toNat = 9 := rfl
    have slots : kOpenHeFSPartNameLen - 1 = 127 := rfl
    omega
  have magic : BootNode.magic.toNat + (kOpenHeFSMagic ++ [0]).length ≤ 137 := by decide
  refine Field.get_congr fun x low high => ?_
  rw [write_outside, write_outside]
  · rw [within_iff (by omega)]
    omega
  · rw [within_iff (by omega)]
    omega

/-- The node holds the settings, with its own size in front of the directories. -/
theorem bootNode_ranges (v : Settings) :
    BootNode.startIND.get (bootNode v) = v.startInd + BitVec.ofNat 64 BootNode.size ∧
    BootNode.endIND.get (bootNode v) = v.endInd ∧
    BootNode.startIN.get (bootNode v) = v.startIn ∧ BootNode.endIN.get (bootNode v) = v.endIn ∧
    BootNode.startBlock.get (bootNode v) = v.startBlock ∧ BootNode.endBlock.get (bootNode v) = v.endBlock ∧
    BootNode.diskSize.get (bootNode v) = v.kDiskSize ∧ BootNode.sectorSize.get (bootNode v) = v.kDiskSectorSz := by
  unfold bootNode
  dsimp only
  refine ⟨?_, ?_, ?_, ?_, ?_, ?_, ?_, ?_⟩ <;> rw [get_labelled (by decide)] <;>
    repeat first | exact Field.get_set_full rfl | rw [Field.get_set_other (by decide)]

/-- Ranges that are not empty are apart if one ends before the other begins. -/
theorem disjoint_iff_before (some : a < b) (some' : c < d) :
    Disjoint (Set.Ico a b) (Set.Ico c d) ↔ Before a b c d := by
  rw [Set.Ico_disjoint_Ico, Before]
  omega

theorem behindNode_toNat (low : v.startInd.toNat < 2 ^ 63) :
    (v.startInd + BitVec.ofNat 64 BootNode.size).toNat = v.startInd.toNat + BootNode.size := by
  have size : BootNode.size = 513 := rfl
  rw [BitVec.toNat_add, BitVec.toNat_ofNat, Nat.mod_eq_of_lt (by omega : BootNode.size < 2 ^ 64),
    Nat.mod_eq_of_lt (by omega)]

theorem bootNode_sets (low : v.startInd.toNat < 2 ^ 63) :
    directories (bootNode v) = Set.Ico (v.startInd.toNat + BootNode.size) v.endInd.toNat ∧
    inodes (bootNode v) = Set.Ico v.startIn.toNat v.endIn.toNat ∧
    blocks (bootNode v) = Set.Ico (v.startBlock.toNat * v.kDiskSectorSz.toNat)
      (v.endBlock.toNat * v.kDiskSectorSz.toNat) := by
  obtain ⟨startIND, endIND, startIN, endIN, startBlock, endBlock, -, sectorSize⟩ := bootNode_ranges v
  refine ⟨?_, ?_, ?_⟩
  · rw [directories, startIND, endIND, behindNode_toNat low]
  · rw [inodes, startIN, endIN]
  · rw [blocks, startBlock, endBlock, sectorSize]

/-- The node of settings that passed the checks describes a sound layout exactly if they are compatible. -/
theorem checked_laidOut_iff (checked : Checked v) (low : v.startInd.toNat < 2 ^ 63) :
    LaidOut (bootNode v) v.startInd ↔ Compatible v := by
  obtain ⟨sector, directory, block, inode, blockEnd, directoryEnd, inodeEnd⟩ := checked
  obtain ⟨startIND, endIND, startIN, endIN, startBlock, endBlock, diskSize, sectorSize⟩ := bootNode_ranges v
  obtain ⟨dirs, inds, secs⟩ := bootNode_sets low
  have node := behindNode_toNat low
  have scaled : v.startBlock.toNat * v.kDiskSectorSz.toNat < v.endBlock.toNat * v.kDiskSectorSz.toNat :=
    Nat.mul_lt_mul_of_pos_right block sector
  rw [BitVec.not_lt, BitVec.le_def] at blockEnd directoryEnd inodeEnd
  rw [BitVec.lt_def] at directory block inode
  constructor
  · intro laid
    have order := laid.directoryOrder
    have ends := laid.blockEnd
    rw [startIND, endIND, node] at order
    rw [endBlock, sectorSize, diskSize] at ends
    exact
      { room := order
        product := Nat.lt_of_le_of_lt ends v.kDiskSize.isLt
        directoriesInodes := (disjoint_iff_before order inode).mp (dirs ▸ inds ▸ laid.directoriesInodes)
        directoriesBlocks := (disjoint_iff_before order scaled).mp (dirs ▸ secs ▸ laid.directoriesBlocks)
        inodesBlocks := (disjoint_iff_before inode scaled).mp (inds ▸ secs ▸ laid.inodesBlocks) }
  · intro fits
    rw [BitVec.toNat_mul, Nat.mod_eq_of_lt fits.product] at blockEnd
    exact
      { directoryOrder := by rw [startIND, endIND, node]; exact fits.room
        directoryEnd := by rwa [endIND, diskSize]
        inodeOrder := by rwa [startIN, endIN]
        inodeEnd := by rwa [endIN, diskSize]
        blockOrder := by rwa [startBlock, endBlock]
        blockEnd := by rwa [endBlock, sectorSize, diskSize]
        behindNode := by rw [startIND, node]
        directoriesInodes := by
          rw [dirs, inds]
          exact (disjoint_iff_before fits.room inode).mpr fits.directoriesInodes
        directoriesBlocks := by
          rw [dirs, secs]
          exact (disjoint_iff_before fits.room scaled).mpr fits.directoriesBlocks
        inodesBlocks := by
          rw [inds, secs]
          exact (disjoint_iff_before inode scaled).mpr fits.inodesBlocks }

end Checks

/-- The node that an accepted run writes describes a sound layout exactly if the options are compatible. -/
theorem bootNode_laidOut_iff (opens : Bool) (argv : List (List Byte)) (device disk : Memory) (start : Lba)
    (done : main opens argv device = some (start, disk)) : ∃ v, settings argv = some v ∧
      start = v.startInd ∧ disk = written v device ∧ (LaidOut (bootNode v) start ↔ Compatible v) := by
  obtain ⟨v, accepted, low, rfl, rfl⟩ := main_accepted done
  exact ⟨v, accepted, rfl, rfl, checked_laidOut_iff (settings_checked accepted) low⟩

/-! A run whose directories would begin behind their end. -/

def smallArgs : List (List Byte) :=
  [ utf8 ['-', 'o', '=', 'd'],
    utf8 ['-', 's', '=', '5', '1', '2'],
    utf8 ['-', 'S', '=', '4'],
    utf8 ['-', 'b', '=', '1', '0', '2', '4'],
    utf8 ['-', 'e', '=', '1', '1', '0', '0'],
    utf8 ['-', 'b', 's', '=', '8'],
    utf8 ['-', 'b', 'e', '=', '1', '6'],
    utf8 ['-', 'i', 's', '=', '2', '0', '4', '8'],
    utf8 ['-', 'i', 'e', '=', '4', '0', '9', '6'] ]

def smallSettings : Settings where
  kDiskLabel := kOpenHeFSDefaultVolumeName
  kDiskSectorSz := 512
  kDiskSize := 0x100000000
  startInd := 1024
  endInd := 1100
  startBlock := 8
  endBlock := 16
  startIn := 2048
  endIn := 4096

theorem smallArgs_written (device : Memory) :
    main true smallArgs device = some (1024, written smallSettings device) := by
  have accepted : settings smallArgs = some smallSettings := by decide +kernel
  have sought : ¬ (true = false ∨ smallSettings.startInd.slt 0 = true ∨
      (smallSettings.kDiskSize - 1).slt 0 = true) := by
    decide
  rw [main, accepted, Option.bind_eq_bind, Option.bind_some, if_neg sought]
  rfl

/-- The directories would begin at 1537 and end at 1100. -/
theorem bootNode_laidOut_fails :
    main true smallArgs (fun _ => 0) = some (1024, written smallSettings fun _ => 0) ∧
    ¬ LaidOut (bootNode smallSettings) 1024 := by
  refine ⟨smallArgs_written _, fun laid => ?_⟩
  obtain ⟨startIND, endIND, -⟩ := bootNode_ranges smallSettings
  have order := laid.directoryOrder
  rw [startIND, endIND] at order
  exact absurd order (by decide)

theorem bootNode_laidOut_iff_small : ∃ v, settings smallArgs = some v ∧ (1024 : Lba) = v.startInd ∧
    written smallSettings (fun _ => 0) = written v (fun _ => 0) ∧ (LaidOut (bootNode v) 1024 ↔ Compatible v) :=
  bootNode_laidOut_iff true smallArgs (fun _ => 0) (written smallSettings fun _ => 0) 1024 (smallArgs_written _)

end Ne.Kernel.FS.Mkfs
