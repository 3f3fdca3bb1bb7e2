import NeKernel.FS.Formatted

/-!
# The OpenHeFS formatting tool

`mkfs.hefs` keeps its own copy of the boot node and of the version it stores there.
-/

namespace Ne.Kernel.FS
open ByteMem Runs
open HefsBootNode hiding size fChecksum

/-! ## Options -/

namespace Mkfs

def buildArgs (argv : List (List Byte)) : List Byte := argv.flatMap (· ++ [0x20])

/-- What follows the first occurrence of a pattern. -/
def behindFirst (pattern : List Byte) : List Byte → Option (List Byte)
  | [] => none
  | c :: rest =>
    if pattern.isPrefixOf (c :: rest) then some ((c :: rest).drop pattern.length) else behindFirst pattern rest

def getOption (args option : List Byte) : List Byte :=
  match behindFirst (0x2D :: option ++ [0x3D]) args with
  | none => []
  | some rest => if 0x20 ∈ rest then rest.takeWhile (· ≠ 0x20) else []

def isSpace (c : Byte) : Bool := c = 0x20 ∨ 0x09 ≤ c ∧ c ≤ 0x0D

def isDigit (c : Byte) : Bool := 0x30 ≤ c ∧ c ≤ 0x39

/-- What `strtol` and `strtoull` read in base ten, and the characters they stop at. -/
structure Numeral where
  negative : Bool
  magnitude : Nat
  rest : List Byte

def numeral (opt : List Byte) : Option Numeral :=
  let body := opt.dropWhile isSpace
  let unsigned := if body.head? = some 0x2D ∨ body.head? = some 0x2B then body.tail else body
  let digits := unsigned.takeWhile isDigit
  if digits = [] then none
  else some ⟨body.head? = some 0x2D, digits.foldl (fun n c => 10 * n + (c.toNat - 0x30)) 0, unsigned.dropWhile isDigit⟩

/-- `strtoull` stays at its largest value beyond the range, and negates a number with a minus sign. -/
def parseDecimal (opt : List Byte) : Option SizeT := do
  let read ← numeral opt
  if read.rest ≠ [] then none
  else if 2 ^ 64 ≤ read.magnitude then some (BitVec.ofNat 64 (2 ^ 64 - 1))
  else if read.negative then some (- BitVec.ofNat 64 read.magnitude)
  else some (BitVec.ofNat 64 read.magnitude)

def parseSigned (opt : List Byte) : Option SizeT :=
  if opt = [] then some 0
  else do
    let read ← numeral opt
    let val : Int := if read.negative then - read.magnitude else read.magnitude
    if val < - 2 ^ 63 ∨ 2 ^ 63 ≤ val then none
    else if read.rest ≠ [] then none
    else some (BitVec.ofInt 64 val)

/-- The settings the tool ends up with. -/
structure Settings where
  kDiskLabel : List Byte
  kDiskSectorSz : SizeT
  kDiskSize : SizeT
  startInd : SizeT
  endInd : SizeT
  startBlock : SizeT
  endBlock : SizeT
  startIn : SizeT
  endIn : SizeT
  deriving DecidableEq

def kOpenHeFSDefaultVolumeName : List Byte :=
  utf8 ['O', 'p', 'e', 'n', 'H', 'e', 'F', 'S', ' ', 'V', 'o', 'l', 'u', 'm', 'e']

/-- An end that has to lie behind its start. -/
def parseEnd (opt : List Byte) (start : SizeT) : Option SizeT := do
  let last ← parseSigned opt
  if last ≤ start then none else some last

/-- `main` up to where it opens the output device. -/
def settings (argv : List (List Byte)) : Option Settings :=
  let args := buildArgs argv
  let option (name : List Char) := getOption args (utf8 name)
  if argv.length ≠ 9 then none
  else if option ['o'] = [] then none
  else do
    let sectorSz ← parseSigned (option ['s'])
    if sectorSz = 0 ∨ sectorSz &&& (sectorSz - 1) ≠ 0 then none
    else do
      let label := if option ['L'] ≠ [] then option ['L'] else kOpenHeFSDefaultVolumeName
      let gb ← parseDecimal (option ['S'])
      if gb = 0 ∨ BitVec.ofNat 64 ((2 ^ 64 - 1) / 2 ^ 30) < gb then none
      else do
        let diskSize := gb * 1024 * 1024 * 1024
        let startInd ← parseSigned (option ['b'])
        let endInd ← parseEnd (option ['e']) startInd
        let startBlock ← parseSigned (option ['b', 's'])
        let endBlock ← parseEnd (option ['b', 'e']) startBlock
        let startIn ← parseSigned (option ['i', 's'])
        let endIn ← parseEnd (option ['i', 'e']) startIn
        if diskSize < endBlock * sectorSz ∨ diskSize < endInd ∨ diskSize < endIn then none
        else some ⟨label, sectorSz, diskSize, startInd, endInd, startBlock, endBlock, startIn, endIn⟩

/-! ## The boot node -/

def kOpenHeFSVersion : BitVec 64 := 0x0101
def kOpenHeFSMagic : List Byte := utf8 ['O', 'p', 'e', 'n', 'H', 'e', 'F', 'S']
def kOpenHeFSPartNameLen : Nat := 128
def kOpenHeFSHardDrive : BitVec 64 := 0xC0
def kOpenHeFSEncodingFlagsUTF8 : BitVec 64 := 0x50
def kOpenHeFSStatusUnlocked : BitVec 64 := 0x18

namespace BootNode
def size : Nat := 513
def magic : BitVec 64 := 0
def volumeName : BitVec 64 := 9
def version : Field := { off := 137, size := 4 }
def sectorCount : Field := { off := 149, size := 8 }
def sectorSize : Field := { off := 157, size := 8 }
def diskKind : Field := { off := 169, size := 1 }
def encoding : Field := { off := 170, size := 1 }
def startIND : Field := { off := 171, size := 8 }
def endIND : Field := { off := 179, size := 8 }
def indCount : Field := { off := 187, size := 8 }
def diskSize : Field := { off := 195, size := 8 }
def diskStatus : Field := { off := 203, size := 2 }
def startIN : Field := { off := 209, size := 8 }
def endIN : Field := { off := 217, size := 8 }
def startBlock : Field := { off := 225, size := 8 }
def endBlock : Field := { off := 233, size := 8 }
end BootNode

/-- The node the tool fills, on top of zeroes. -/
def bootNode (v : Settings) : Image :=
  let node := BootNode.version.set kOpenHeFSVersion zeroed
  let node := BootNode.diskKind.set kOpenHeFSHardDrive node
  let node := BootNode.encoding.set kOpenHeFSEncodingFlagsUTF8 node
  let node := BootNode.diskSize.set v.kDiskSize node
  let node := BootNode.sectorSize.set v.kDiskSectorSz node
  let node := BootNode.sectorCount.set (v.kDiskSize / v.kDiskSectorSz) node
  let node := BootNode.startIND.set (v.startInd + BitVec.ofNat 64 BootNode.size) node
  let node := BootNode.endIND.set v.endInd node
  let node := BootNode.startIN.set v.startIn node
  let node := BootNode.endIN.set v.endIn node
  let node := BootNode.startBlock.set v.startBlock node
  let node := BootNode.endBlock.set v.endBlock node
  let node := BootNode.indCount.set 0 node
  let node := BootNode.diskStatus.set kOpenHeFSStatusUnlocked node
  let node := write node BootNode.magic (kOpenHeFSMagic ++ [0])
  write node BootNode.volumeName (v.kDiskLabel.take (kOpenHeFSPartNameLen - 1))

/-- What is on the output device afterwards: the node, and a zero as the disk's last byte. -/
def written (v : Settings) (device : Memory) : Memory :=
  place (place device v.startInd BootNode.size (bootNode v)) (v.kDiskSize - 1) 1 zeroed

/-- `main`: the offset the node was written at and the device behind the run, nothing where the tool fails. An
offset that is negative as a `std::streamoff` cannot be sought. `opens` is whether the device can be opened. -/
def main (opens : Bool) (argv : List (List Byte)) (device : Memory) : Option (Lba × Memory) := do
  let v ← settings argv
  if opens = false ∨ v.startInd.slt 0 ∨ (v.kDiskSize - 1).slt 0 then none
  else some (v.startInd, written v device)

section Written
variable {v : Settings} {device disk : Memory} {opens : Bool} {argv : List (List Byte)} {start : Lba}

theorem main_cases (done : main opens argv device = some (start, disk)) :
    ∃ v, start = v.startInd ∧ disk = written v device := by
  obtain ⟨v, -, sought⟩ := Option.bind_eq_some_iff.mp done
  split at sought
  · cases sought
  · obtain ⟨rfl, rfl⟩ := Prod.ext_iff.mp (Option.some.inj sought)
    exact ⟨v, rfl, rfl⟩

theorem bootNode_version : bootNode v 137 = 0x01 := by
  have label : ¬ Within BootNode.volumeName (v.kDiskLabel.take (kOpenHeFSPartNameLen - 1)).length 137 := by
    intro inside
    exact absurd (inside.mono (List.length_take_le _ _)) (by decide)
  have magic : ¬ Within BootNode.magic (kOpenHeFSMagic ++ [0]).length 137 := by decide
  unfold bootNode
  rw [write_outside label, write_outside magic]
  iterate 13 rw [Field.set_outside (.inl (by decide))]
  decide +kernel

/-- The node's version byte is the tool's, or the zero of the disk's last byte. -/
theorem written_version : written v device (v.startInd + 137) ≠ 0x04 := by
  rw [written, place]
  split
  · exact (by decide : (0 : Byte) ≠ 0x04)
  · rw [place_inside 137 (by decide), bootNode_version]
    decide

end Written

end Mkfs

section Mounted
variable {mnt : DriveTrait} {boot : Image} {σ σ' τ : Mount} {flags : BitVec 32} {volName dir : Path} {r : Bool}

theorem bootValid_low (valid : bootValid boot = true) : boot 137 = 0x04 := by
  obtain ⟨-, version⟩ : _ ∧ fVersion.get boot = FS.kOpenHeFSVersion := by
    simpa only [bootValid, decide_eq_true_eq] using valid
  have bytes : read boot 137 4 = boot 137 :: read boot 138 3 := by simp [ByteMem.read, List.range_succ]
  have number : (fVersion.get boot).toNat = load boot 137 4 := Field.toNat_get (f := fVersion)
  rw [version, load, bytes, leNat] at number
  have low := (boot 137).isLt
  have total : (0x0104 : Nat) = (boot 137).toNat + 256 * leNat (read boot 138 3) := number
  apply BitVec.eq_of_toNat_eq
  change (boot 137).toNat = 4
  omega

theorem storeDirectory_grows {deleteOrCreate : Bool} {flags : BitVec 16} {start : Lba} :
    Writes (fun _ => True) σ (storeDirectory mnt boot dir flags deleteOrCreate start σ).2 :=
  ((ioDrvOutput_writes trivial).status kErrorSuccess).trans (ioDrvOutput_writes trivial)

theorem createINodeDirectory_grows (taken : createINodeDirectory mnt flags dir σ = some (r, σ')) :
    Writes (fun _ => True) σ σ' := by
  cases valid : bootValid (bootAt mnt σ.disk) with
  | false =>
      have taken : FsCall.run mnt (.directory flags dir false) σ = some (r, σ') := taken
      obtain ⟨disk, written⟩ := run_invalid valid taken
      exact .of_same disk written
  | true =>
      rcases iNodeDirectoryCtlManip_cases valid taken with ⟨-, disk, written, -⟩ | ⟨-, boot', τ, updated, rfl⟩
      · exact .of_same disk written
      · obtain ⟨start, -, stored⟩ := Option.map_eq_some_iff.mp updated
        have begun : Writes (fun _ => True) σ (mnt.completed σ) := completed_writes
        have store : Writes (fun _ => True) (mnt.completed σ) (boot', τ).2 := by
          rw [← stored]
          exact storeDirectory_grows
        exact (begun.trans store).trans (hefsiBalanceInd_grows.mono fun _ _ => trivial)

theorem createDefaults_grows {dirs : List Path} (created : createDefaults mnt dirs σ = some τ) :
    Writes (fun _ => True) σ τ := by
  induction dirs generalizing σ with
  | nil =>
      cases created
      exact .of_same rfl rfl
  | cons dir rest ih =>
      unfold createDefaults at created
      split at created
      · cases created
      · rename_i taken
        exact (createINodeDirectory_grows taken).trans (ih created)

/-- `Format` takes the volume as it finds it, and the drive gets nothing to write. -/
def Recognised (mnt : DriveTrait) (flags : BitVec 32) (volName : Path) (σ : Mount) : Prop :=
  ∃ σ', heFormat mnt flags volName σ = some (true, σ') ∧ σ'.written = σ.written

theorem not_recognised (blank : bootValid (bootAt mnt σ.disk) = false) : ¬ Recognised mnt flags volName σ := by
  rintro ⟨σ', formatted, same⟩
  obtain ⟨writable, nonzero, τ, created, rfl⟩ := heFormat_cases blank formatted
  obtain ⟨new, grown, -⟩ := createDefaults_grows created
  have longer : τ.written.length = σ.written.length + 1 + new.length := by
    rw [grown, formatHeader, ioDrvOutput_taken writable nonzero]
    simp
    omega
  have same : τ.written = σ.written := same
  rw [same] at longer
  omega

/-- The kernel does not know a volume that the tool wrote. -/
theorem tool_volume_unknown (opens : Bool) (argv : List (List Byte)) (device disk : Memory) (start : Lba)
    (done : Mkfs.main opens argv device = some (start, disk)) (mnt : DriveTrait) (mounted : mnt.fLbaStart = start)
    (flags : BitVec 32) (volName : Path) (σ : Mount) (inserted : σ.disk = disk) :
    ¬ Recognised mnt flags volName σ := by
  obtain ⟨v, rfl, rfl⟩ := Mkfs.main_cases done
  apply not_recognised
  apply Bool.eq_false_iff.mpr
  intro valid
  have version : bootAt mnt σ.disk 137 = Mkfs.written v device (v.startInd + 137) := by
    rw [bootAt, window, if_pos (by decide), mounted, inserted]
  exact Mkfs.written_version (version.symm.trans (bootValid_low valid))

end Mounted

/-! A run of the tool with its default label, on the drive of five sectors. -/

def plainArgs : List (List Byte) :=
  [ utf8 ['-', 'o', '=', 'd'],
    utf8 ['-', 's', '=', '5', '1', '2'],
    utf8 ['-', 'S', '=', '4'],
    utf8 ['-', 'b', '=', '1', '0', '2', '4'],
    utf8 ['-', 'e', '=', '4', '0', '9', '6'],
    utf8 ['-', 'b', 's', '=', '0'],
    utf8 ['-', 'b', 'e', '=', '8'],
    utf8 ['-', 'i', 's', '=', '0'],
    utf8 ['-', 'i', 'e', '=', '8'] ]

def plainSettings : Mkfs.Settings where
  kDiskLabel := Mkfs.kOpenHeFSDefaultVolumeName
  kDiskSectorSz := 512
  kDiskSize := 0x100000000
  startInd := 1024
  endInd := 4096
  startBlock := 0
  endBlock := 8
  startIn := 0
  endIn := 8

def plainMount : Mount := { fullMount with disk := Mkfs.written plainSettings fullMount.disk }

theorem plainArgs_accepted : Mkfs.settings plainArgs = some plainSettings := by decide +kernel

theorem plainArgs_written : Mkfs.main true plainArgs fullMount.disk = some (1024, plainMount.disk) := by
  have sought : ¬ (true = false ∨ plainSettings.startInd.slt 0 = true ∨
      (plainSettings.kDiskSize - 1).slt 0 = true) := by
    decide
  rw [Mkfs.main, plainArgs_accepted, Option.bind_eq_bind, Option.bind_some, if_neg sought]
  rfl

theorem tool_volume_unknown_plain : ¬ Recognised fullDrive 0 [] plainMount :=
  tool_volume_unknown true plainArgs fullMount.disk plainMount.disk 1024 plainArgs_written fullDrive rfl 0 []
    plainMount rfl

theorem plainMount_blank : bootValid (bootAt fullDrive plainMount.disk) = false := by decide +kernel

theorem plainMount_sane :
    BootSane fullDrive (bootAt fullDrive (formatHeader fullDrive 0 [] plainMount).disk) :=
  header_sane rfl (by decide) (header_valid rfl (by decide) (by decide +kernel))

theorem plainMount_full : NoneFree fullDrive (formatHeader fullDrive 0 [] plainMount).disk := by
  have regions : indStart fullDrive = 1537 ∧ indEnd fullDrive = 1537 := by decide
  rw [NoneFree, indScan_single, plainMount_sane.startIND, regions.1]
  · decide +kernel
  · rw [plainMount_sane.startIND, plainMount_sane.endIND, regions.1, regions.2]
    decide

/-- The kernel writes its own boot node over the one it was given. -/
theorem plain_volume_reformatted :
    Mkfs.main true plainArgs fullMount.disk = some (1024, plainMount.disk) ∧
    (∃ σ, heFormat fullDrive 0 [] plainMount = some (true, σ) ∧
      σ.disk = (formatHeader fullDrive 0 [] plainMount).disk) ∧
    ¬ Recognised fullDrive 0 [] plainMount := by
  have formatted : heFormat fullDrive 0 [] plainMount = _ :=
    format_full rfl plainMount_blank (checksumGood_unset (by decide +kernel)) (by decide) (by decide) rfl
      (by decide) plainMount_sane plainMount_full
  exact ⟨plainArgs_written, ⟨_, formatted, completed_disk⟩, not_recognised plainMount_blank⟩

end Ne.Kernel.FS
