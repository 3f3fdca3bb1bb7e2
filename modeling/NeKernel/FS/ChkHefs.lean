import NeKernel.FS.BootSteps
import NeKernel.FS.MkfsRanges

/-!
# The OpenHeFS checking tool

`chk.hefs` reads the boot node of a volume and judges it by four of its members. It is shown volumes of the kernel and
volumes of the formatting tool.
-/

namespace Ne.Kernel.FS
open ByteMem Runs

namespace Chk
open Mkfs (buildArgs getOption parseSigned)

def kMkFsSectorSz : SizeT := 512
def kMkFsMaxBadSectors : BitVec 64 := 128
def kOpenHeFSMagicLen : ℕ := 9

/-- The member of the tools' boot node that the formatting tool leaves alone. -/
def badSectors : Field := { off := 141, size := 8 }

/-- Whether `strncmp` finds no difference. -/
def strncmpEqual : ℕ → List Byte → List Byte → Bool
  | n + 1, x :: xs, y :: ys => x = y && (x = 0 || strncmpEqual n xs ys)
  | _, _, _ => true

/-- The tests of `main` on the node. -/
def healthy (bootNode : Image) : Bool :=
  let magic := read bootNode Mkfs.BootNode.magic kOpenHeFSMagicLen
  if ¬ strncmpEqual kOpenHeFSMagicLen magic (Mkfs.kOpenHeFSMagic ++ [0]) ∨
      Mkfs.BootNode.sectorCount.get bootNode < 1 ∨ Mkfs.BootNode.sectorSize.get bootNode < kMkFsSectorSz then false
  else if badSectors.get bootNode > kMkFsMaxBadSectors then false
  else true

/-- `main`, with the arguments behind the tool's name. `opens` is whether the device can be opened. An offset that is
negative as a `std::streamoff` cannot be sought. -/
def main (opens : Bool) (argv : List (List Byte)) (device : Memory) : Bool :=
  let args := buildArgs argv
  if argv.length + 1 < 2 then false
  else if getOption args (utf8 ['i', 'n']) = [] then false
  else match parseSigned (getOption args (utf8 ['b'])) with
    | none => false
    | some outOrigin =>
        if opens = false ∨ outOrigin.slt 0 then false else healthy (window device outOrigin Mkfs.BootNode.size)

/-- The arguments name a device and a place on it. -/
structure Asks (argv : List (List Byte)) (origin : Lba) : Prop where
  device : getOption (buildArgs argv) (utf8 ['i', 'n']) ≠ []
  origin : parseSigned (getOption (buildArgs argv) (utf8 ['b'])) = some origin

section Tests
variable {node : Image} {argv : List (List Byte)} {origin : Lba} {device : Memory} {text chars : List Byte}

/-- Against a terminated text `strncmp` compares all characters up to the terminator. -/
theorem strncmpEqual_iff (characters : 0 ∉ text) (length : chars.length = text.length + 1) :
    strncmpEqual (text.length + 1) chars (text ++ [0]) = true ↔ chars = text ++ [0] := by
  induction text generalizing chars with
  | nil =>
      obtain ⟨x, rfl⟩ := List.length_eq_one_iff.mp length
      simp [strncmpEqual]
  | cons y text ih =>
      rw [List.mem_cons, not_or] at characters
      obtain ⟨nonzero, characters⟩ := characters
      cases chars with
      | nil => cases length
      | cons x chars =>
          rw [List.cons_append, List.length_cons, strncmpEqual, Bool.and_eq_true, Bool.or_eq_true,
            ih characters (Nat.succ.inj length), decide_eq_true_iff, decide_eq_true_iff, List.cons.injEq]
          refine and_congr_right fun same => ?_
          have some : x ≠ 0 := by
            rw [same]
            exact Ne.symm nonzero
          exact or_iff_right some

theorem healthy_iff : healthy node = true ↔
    read node Mkfs.BootNode.magic kOpenHeFSMagicLen = Mkfs.kOpenHeFSMagic ++ [0] ∧
    1 ≤ Mkfs.BootNode.sectorCount.get node ∧ 512 ≤ Mkfs.BootNode.sectorSize.get node ∧
    badSectors.get node ≤ kMkFsMaxBadSectors := by
  have magic : strncmpEqual kOpenHeFSMagicLen (read node Mkfs.BootNode.magic kOpenHeFSMagicLen)
      (Mkfs.kOpenHeFSMagic ++ [0]) = true ↔
      read node Mkfs.BootNode.magic kOpenHeFSMagicLen = Mkfs.kOpenHeFSMagic ++ [0] :=
    @strncmpEqual_iff Mkfs.kOpenHeFSMagic _ (by decide) read_length
  unfold healthy kMkFsSectorSz
  dsimp only
  split
  · next failed =>
      refine iff_of_false Bool.false_ne_true fun all => ?_
      rcases failed with other | few | small
      · exact other (magic.mpr all.1)
      · exact absurd few (BitVec.not_lt.mpr all.2.1)
      · exact absurd small (BitVec.not_lt.mpr all.2.2.1)
  · next passed =>
      obtain ⟨same, numbers⟩ := not_or.mp passed
      obtain ⟨count, size⟩ := not_or.mp numbers
      rw [BitVec.not_lt] at count size
      have same := magic.mp (not_not.mp same)
      split
      · next bad => exact iff_of_false Bool.false_ne_true fun all => absurd bad (BitVec.not_lt.mpr all.2.2.2)
      · next good => exact iff_of_true rfl ⟨same, count, size, BitVec.not_lt.mp good⟩

theorem Asks.main_eq (asks : Asks argv origin) (forward : origin.toNat < 2 ^ 63) :
    main true argv device = healthy (window device origin Mkfs.BootNode.size) := by
  have some : argv ≠ [] := by
    rintro rfl
    exact asks.device rfl
  have length := List.length_pos_iff.mpr some
  have positive : ¬ origin.slt 0 = true := by
    intro negative
    have top := BitVec.slt_zero_iff_msb_cond.mp negative
    rw [BitVec.msb_eq_true_iff_two_mul_ge] at top
    omega
  unfold main
  dsimp only
  rw [if_neg (by omega), if_neg asks.device, asks.origin]
  exact if_neg (not_or.mpr ⟨Bool.true_eq_false.mp, positive⟩)

end Tests

end Chk

/-! ## Volumes of the kernel -/

section Kernel
open HefsBootNode hiding size fChecksum
variable {mnt : DriveTrait} {boot : Image} {σ σ' : Mount} {call : FsCall} {f : Field} {v : BitVec 64}

/-- The sectors of the drive, none of them bad. -/
structure Numbers (mnt : DriveTrait) (boot : Image) : Prop where
  badSectors : fBadSectors.get boot = 0
  sectorCount : fSectorCount.get boot = mnt.sectorCount
  sectorSize : fSectorSize.get boot = mnt.fSectorSz

theorem Numbers.set (numbers : Numbers mnt boot)
    (others : fBadSectors.Disjoint f ∧ fSectorCount.Disjoint f ∧ fSectorSize.Disjoint f) :
    Numbers mnt (f.set v boot) := by
  obtain ⟨bad, count, size⟩ := others
  constructor
  · rw [Field.get_set_other bad, numbers.badSectors]
  · rw [Field.get_set_other count, numbers.sectorCount]
  · rw [Field.get_set_other size, numbers.sectorSize]

theorem Numbers.trim (numbers : Numbers mnt boot) : Numbers mnt (window boot 0 HefsBootNode.size) := by
  constructor
  · rw [get_trim (by decide), numbers.badSectors]
  · rw [get_trim (by decide), numbers.sectorCount]
  · rw [get_trim (by decide), numbers.sectorSize]

theorem formatBoot_numbers {flags : BitVec 32} {volName : Path} : Numbers mnt (formatBoot mnt flags volName boot) := by
  constructor <;> simp (disch := decide) only [formatBoot, Field.get_set_other, Field.get_set_full]

theorem Numbers.next (numbers : Numbers mnt boot) : Numbers mnt (sealBoot (nextBoot call boot)) := by
  refine Numbers.set ?_ (by decide)
  cases call with
  | directory flags dir deleteOrCreate => exact numbers.set (by decide)
  | inode flags dir name deleteOrCreate kind =>
      cases deleteOrCreate with
      | true => exact numbers
      | false => exact (numbers.set (by decide)).set (by decide)

/-- A boot node that the kernel takes for valid has the magic that the tool looks for. -/
theorem Numbers.healthy_iff (numbers : Numbers mnt boot) (valid : bootValid boot = true) :
    Chk.healthy boot = true ↔ 1 ≤ mnt.sectorCount ∧ 512 ≤ mnt.fSectorSz := by
  have tests := @Chk.healthy_iff boot
  have magic : read boot Mkfs.BootNode.magic Chk.kOpenHeFSMagicLen = Mkfs.kOpenHeFSMagic ++ [0] := by
    rw [bootValid, decide_eq_true_iff] at valid
    exact valid.1
  have bad : Chk.badSectors.get boot = 0 := numbers.badSectors
  have count : Mkfs.BootNode.sectorCount.get boot = mnt.sectorCount := numbers.sectorCount
  have size : Mkfs.BootNode.sectorSize.get boot = mnt.fSectorSz := numbers.sectorSize
  rw [magic, bad, count, size] at tests
  rw [tests]
  exact ⟨fun all => ⟨all.2.1, all.2.2.1⟩, fun both => ⟨rfl, both.1, both.2, by decide⟩⟩

theorem numbers_step (writable : mnt.fPacketReadOnly = false) (nonzero : mnt.fLbaStart ≠ 0)
    (before : BootSane mnt (bootAt mnt σ.disk) ∧ Numbers mnt (bootAt mnt σ.disk))
    (step : Guarded (Clear mnt) (FsStep mnt) call σ σ') :
    BootSane mnt (bootAt mnt σ'.disk) ∧ Numbers mnt (bootAt mnt σ'.disk) := by
  obtain ⟨sane, numbers⟩ := before
  obtain ⟨clear, r, taken⟩ := step
  rcases step_boot writable nonzero sane clear taken with ⟨-, same⟩ | ⟨-, next, stored⟩
  · rw [same]
    exact ⟨sane, numbers⟩
  · rw [stored]
    exact ⟨next.trim, numbers.next.trim⟩

end Kernel

/-- The place of the first partition. -/
def chkArgs : List (List Byte) := [utf8 ['-', 'i', 'n', '=', 'd'], utf8 ['-', 'b', '=', '1', '0', '2', '4']]

theorem chkArgs_asks : Chk.Asks chkArgs 1024 := ⟨by decide +kernel, by decide +kernel⟩

/-! ## Volumes of the formatting tool -/

theorem leNat_mono {xs ys : List Byte} (below : List.Forall₂ (· ≤ ·) xs ys) : leNat xs ≤ leNat ys := by
  induction below with
  | nil => exact le_rfl
  | cons first _ ih =>
      rw [leNat, leNat]
      have low := BitVec.le_def.mp first
      omega

section Tool
open Mkfs (Settings bootNode written)
open Mkfs.BootNode hiding size
variable {v : Settings} {device : Memory} {f : Field} {i : BitVec 64}

/-- Where the last byte of the disk lies in the node, if it does. -/
def lastByte (v : Settings) : BitVec 64 := v.kDiskSize - 1 - v.startInd

def writtenNode (v : Settings) (device : Memory) : Image := window (written v device) v.startInd Mkfs.BootNode.size

theorem writtenNode_eq (inside : i.toNat < Mkfs.BootNode.size) :
    writtenNode v device i = if i = lastByte v then 0 else bootNode v i := by
  have meets : Within (v.kDiskSize - 1) 1 (v.startInd + i) ↔ i = lastByte v := by
    unfold Within lastByte
    constructor <;> (intro here; bv_omega)
  unfold writtenNode written
  rw [window, if_pos inside, place]
  split
  · next here =>
      rw [if_pos (meets.mp here)]
      rfl
  · next apart => rw [if_neg (mt meets.mpr apart), place_inside i inside]

theorem writtenNode_le (inside : f.off + f.size ≤ Mkfs.BootNode.size) :
    (f.get (writtenNode v device)).toNat ≤ (f.get (bootNode v)).toNat := by
  rw [get_eq_leNat, get_eq_leNat]
  apply leNat_mono
  unfold ByteMem.read
  rw [List.forall₂_map_left_iff, List.forall₂_map_right_iff, List.forall₂_same]
  intro i member
  have low := List.mem_range.mp member
  have small : Mkfs.BootNode.size = 513 := rfl
  have place : (BitVec.ofNat 64 f.off + BitVec.ofNat 64 i).toNat = f.off + i := by
    rw [← BitVec.ofNat_add, BitVec.toNat_ofNat, Nat.mod_eq_of_lt (by omega)]
  rw [writtenNode_eq (by omega)]
  split
  · exact Nat.zero_le _
  · exact BitVec.le_refl _

theorem writtenNode_get (inside : f.off + f.size ≤ Mkfs.BootNode.size)
    (apart : (lastByte v).toNat < f.off ∨ f.off + f.size ≤ (lastByte v).toNat) :
    f.get (writtenNode v device) = f.get (bootNode v) := by
  refine Field.get_congr fun x low high => ?_
  rw [writtenNode_eq (by omega), if_neg]
  rintro rfl
  omega

theorem bootNode_count : sectorCount.get (bootNode v) = v.kDiskSize / v.kDiskSectorSz := by
  unfold bootNode
  dsimp only
  rw [Mkfs.get_labelled (by decide)]
  simp (disch := decide) only [Field.get_set_other, Field.get_set_full]

theorem bootNode_bad : Chk.badSectors.get (bootNode v) = 0 := by
  unfold bootNode
  dsimp only
  rw [Mkfs.get_labelled (by decide)]
  simp (disch := decide) only [Field.get_set_other]
  decide +kernel

theorem bootNode_magic : read (bootNode v) magic Chk.kOpenHeFSMagicLen = Mkfs.kOpenHeFSMagic ++ [0] := by
  have fits : (Mkfs.kOpenHeFSMagic ++ [0]).length ≤ 2 ^ 64 := by decide
  have short := List.length_take_le (Mkfs.kOpenHeFSPartNameLen - 1) v.kDiskLabel
  have slots : Mkfs.kOpenHeFSPartNameLen - 1 = 127 := rfl
  have start : volumeName.toNat = 9 := rfl
  have front (node : Image) : read (write node volumeName (v.kDiskLabel.take (Mkfs.kOpenHeFSPartNameLen - 1))) magic
      Chk.kOpenHeFSMagicLen = read node magic Chk.kOpenHeFSMagicLen := by
    refine read_congr (by decide) fun x inside => write_outside ?_
    have low : x.toNat < 9 := by
      rw [within_iff (by decide)] at inside
      exact inside.2
    rw [within_iff (by omega)]
    omega
  unfold bootNode
  dsimp only
  rw [front]
  exact read_write_same fits

theorem writtenNode_magic : read (writtenNode v device) magic Chk.kOpenHeFSMagicLen = Mkfs.kOpenHeFSMagic ++ [0] ↔
    8 ≤ (lastByte v).toNat := by
  have byteAt (m : Image) (n : ℕ) (low : n < 9) :
      (read m magic Chk.kOpenHeFSMagicLen)[n]? = some (m (BitVec.ofNat 64 n)) := by
    have inside : (List.range Chk.kOpenHeFSMagicLen)[n]? = some n := List.getElem?_range low
    rw [ByteMem.read, List.getElem?_map, inside, Option.map_some]
    exact congrArg (fun x => some (m x)) (BitVec.zero_add _)
  have byte (n : ℕ) (low : n < 9) : (read (writtenNode v device) magic Chk.kOpenHeFSMagicLen)[n]? =
      if n = (lastByte v).toNat then some 0 else (Mkfs.kOpenHeFSMagic ++ [0])[n]? := by
    have small : Mkfs.BootNode.size = 513 := rfl
    have place : (BitVec.ofNat 64 n).toNat = n := by rw [BitVec.toNat_ofNat, Nat.mod_eq_of_lt (by omega)]
    have here : BitVec.ofNat 64 n = lastByte v ↔ n = (lastByte v).toNat := by rw [← BitVec.toNat_inj, place]
    rw [byteAt _ n low, writtenNode_eq (by omega), ← @bootNode_magic v, byteAt _ n low]
    simp only [here]
    split <;> rfl
  constructor
  · intro same
    by_contra low
    have none : ∀ n < 8, (Mkfs.kOpenHeFSMagic ++ [0])[n]? ≠ some 0 := by decide
    have zero := byte (lastByte v).toNat (by omega)
    rw [same, if_pos rfl] at zero
    exact none _ (by omega) zero
  · intro behind
    apply List.ext_getElem?
    intro n
    by_cases low : n < 9
    · rw [byte n low]
      split
      · next here =>
          obtain rfl : n = 8 := by omega
          rfl
      · rfl
    · have length : (Mkfs.kOpenHeFSMagic ++ [0]).length = 9 := rfl
      have nine : Chk.kOpenHeFSMagicLen = 9 := rfl
      rw [List.getElem?_eq_none (by rw [read_length]; omega), List.getElem?_eq_none (by omega)]

end Tool

/-- The tool never finds a volume of the formatting tool healthy that has sectors of less than 512 bytes or larger than
the disk, or whose magic is hit by the zero that is put at the end of the disk. It finds every other one healthy, unless
that zero falls into the numbers of the node. -/
theorem tool_volume_checked (opens : Bool) (argv chkArgv : List (List Byte)) (device disk : Memory) (start : Lba)
    (done : Mkfs.main opens argv device = some (start, disk)) (asks : Chk.Asks chkArgv start) :
    ∃ v, Mkfs.settings argv = some v ∧ start = v.startInd ∧
      (Chk.main true chkArgv disk = true →
        8 ≤ (lastByte v).toNat ∧ 512 ≤ v.kDiskSectorSz ∧ v.kDiskSectorSz ≤ v.kDiskSize) ∧
      (8 ≤ (lastByte v).toNat → (lastByte v).toNat < 149 ∨ 165 ≤ (lastByte v).toNat →
        512 ≤ v.kDiskSectorSz → v.kDiskSectorSz ≤ v.kDiskSize → Chk.main true chkArgv disk = true) := by
  obtain ⟨v, accepted, forward, rfl, rfl⟩ := Mkfs.main_accepted done
  have checked := Mkfs.settings_checked accepted
  obtain ⟨-, -, -, -, -, -, -, size⟩ := Mkfs.bootNode_ranges v
  have count := @bootNode_count v
  have fits (sectors : BitVec 64) (same : sectors = v.kDiskSize / v.kDiskSectorSz) :
      1 ≤ sectors ↔ v.kDiskSectorSz ≤ v.kDiskSize := by
    rw [same, BitVec.le_def, BitVec.le_def, BitVec.toNat_udiv]
    exact (Nat.le_div_iff_mul_le checked.sector).trans (by rw [show (1 : BitVec 64).toNat = 1 from rfl, Nat.one_mul])
  refine ⟨v, accepted, rfl, ?_, ?_⟩
  · rw [asks.main_eq forward, Chk.healthy_iff]
    rintro ⟨same, some, large, -⟩
    refine ⟨writtenNode_magic.mp same, ?_, (fits _ count).mp ?_⟩
    · rw [← size]
      exact Nat.le_trans large (writtenNode_le (by decide))
    · exact Nat.le_trans some (writtenNode_le (by decide))
  · intro behind apart large some
    rw [asks.main_eq forward, Chk.healthy_iff]
    have keptCount := @writtenNode_get v device Mkfs.BootNode.sectorCount (by decide) (by
      show (lastByte v).toNat < 149 ∨ 157 ≤ (lastByte v).toNat
      omega)
    have keptSize := @writtenNode_get v device Mkfs.BootNode.sectorSize (by decide) (by
      show (lastByte v).toNat < 157 ∨ 165 ≤ (lastByte v).toNat
      omega)
    have bad := @writtenNode_le v device Chk.badSectors (by decide)
    rw [bootNode_bad] at bad
    exact ⟨writtenNode_magic.mpr behind, keptCount.symm ▸ (fits _ count).mpr some, keptSize.symm ▸ size.symm ▸ large,
      Nat.le_trans bad (Nat.zero_le _)⟩

theorem tool_volume_checked_plain : ∃ v, Mkfs.settings plainArgs = some v ∧ 1024 = v.startInd ∧
    (Chk.main true chkArgs plainMount.disk = true →
      8 ≤ (lastByte v).toNat ∧ 512 ≤ v.kDiskSectorSz ∧ v.kDiskSectorSz ≤ v.kDiskSize) ∧
    (8 ≤ (lastByte v).toNat → (lastByte v).toNat < 149 ∨ 165 ≤ (lastByte v).toNat →
      512 ≤ v.kDiskSectorSz → v.kDiskSectorSz ≤ v.kDiskSize → Chk.main true chkArgs plainMount.disk = true) :=
  tool_volume_checked true plainArgs chkArgs fullMount.disk plainMount.disk 1024 plainArgs_written chkArgs_asks

end Ne.Kernel.FS
