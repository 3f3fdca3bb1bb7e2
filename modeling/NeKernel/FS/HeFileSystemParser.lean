import NeKernel.FS.OpenHeFS
import NeKernel.Lib.Strides

/-!
# The OpenHeFS parser

A scan of the directory region is the list of the addresses it visits. Reads leave the disk alone,
so a loop that only reads until it finds its node is a search of that list.
-/

namespace Ne.Kernel.FS
open ByteMem Strides
open HefsBootNode hiding size fChecksum
open HefsIndexNodeDirectory hiding size fChecksum

/-- The characters of a string before its NUL. -/
abbrev Path := List Byte

def utf8 (text : List Char) : Path := text.map fun c => BitVec.ofNat 8 c.toNat

def kNodeSize : Lba := 512

def hefsiToBigEndian64 (val : BitVec 64) : BitVec 64 :=
  ((val >>> 56) &&& 0x00000000000000FF) ||| ((val >>> 40) &&& 0x000000000000FF00) |||
  ((val >>> 24) &&& 0x0000000000FF0000) ||| ((val >>> 8) &&& 0x00000000FF000000) |||
  ((val <<< 8) &&& 0x000000FF00000000) ||| ((val <<< 24) &&& 0x0000FF0000000000) |||
  ((val <<< 40) &&& 0x00FF000000000000) ||| ((val <<< 56) &&& 0xFF00000000000000)

def kFnvBaseOffset : BitVec 64 := 0xcbf29ce484222325
def kFnvPrimeNumber : BitVec 64 := 0x100000001b3

def hefsiHash64 (path : Path) : BitVec 64 :=
  if path = [] then 0
  else hefsiToBigEndian64
    (path.foldl (fun hash c => (hash ^^^ c.setWidth 64) * kFnvPrimeNumber) kFnvBaseOffset)

/-! ## Structures in a buffer -/

def sealBoot (boot : Image) : Image :=
  HefsBootNode.fChecksum.set (imageCrc boot HefsBootNode.size) boot

def sealDirectory (dir : Image) : Image :=
  HefsIndexNodeDirectory.fChecksum.set (imageCrc dir HefsIndexNodeDirectory.size) dir

def sealINode (node : Image) : Image :=
  HefsIndexNode.fChecksum.set (imageCrc node HefsIndexNode.size) node

/-- `KStringBuilder::Equals` with the magic, which ends at the first NUL, and the version. -/
def bootValid (boot : Image) : Bool :=
  read boot fMagic (kOpenHeFSMagic.length + 1) = kOpenHeFSMagic ++ [0] ∧
    fVersion.get boot = kOpenHeFSVersion

def directoryAt (disk : Memory) (lba : Lba) : Image := window disk lba HefsIndexNodeDirectory.size

def inodeAt (disk : Memory) (lba : Lba) : Image := window disk lba HefsIndexNode.size

def bootAt (mnt : DriveTrait) (disk : Memory) : Image := window disk mnt.fLbaStart HefsBootNode.size

/-! ## Scans -/

/-- As many nodes fill the address space. A loop still going then is back where it was. -/
def kNodeMax : Nat := 2 ^ 55

def indScan (boot : Image) : List Lba :=
  scan kNodeSize (fun start => start > fEndIND.get boot || start == 0) kNodeMax (fStartIND.get boot)

def lookupScan (boot : Image) : List Lba :=
  scan kNodeSize (fun start => start ≥ fEndIND.get boot) kNodeMax (fStartIND.get boot)

/-! ## Directory nodes -/

def hefsiRotateTree (mnt : DriveTrait) (start : Lba) (σ : Mount) : Mount :=
  if start = 0 then σ else
  let (cur, σ) := ioDrvInput mnt .directory start σ
  if fHashPath.get cur = 0 then σ else
  let (sibling, σ) := ioDrvInput mnt .directory (fPrev.get cur) σ
  if fHashPath.get sibling = 0 then σ else
  let childSibling := fChild.get sibling
  let childCur := fChild.get cur
  let sibling := sealDirectory (fChild.set childCur sibling)
  let cur := sealDirectory (fChild.set childSibling cur)
  let σ := ioDrvOutput mnt .directory (fParent.get cur) sibling σ
  let σ := ioDrvOutput mnt .directory start cur σ
  -- both children get the checksum of the sibling
  let crc := imageCrc sibling HefsIndexNodeDirectory.size
  let (siblingChild, σ) := ioDrvInput mnt .directory childSibling σ
  let siblingChild := HefsIndexNodeDirectory.fChecksum.set crc (fParent.set (fParent.get cur) siblingChild)
  let σ := ioDrvOutput mnt .directory childSibling siblingChild σ
  let (curChild, σ) := ioDrvInput mnt .directory childCur σ
  let curChild := HefsIndexNodeDirectory.fChecksum.set crc (fParent.set start curChild)
  ioDrvOutput mnt .directory childCur curChild σ

/-! One round of the loop of `hefsi_balance_ind`, in its three parts. -/

def blackened (mnt : DriveTrait) (boot : Image) (start : Lba) (σ : Mount) : Image × Mount :=
  let (dir, σ) := ioDrvInput mnt .directory start σ
  if start = fStartIND.get boot then
    let dir := fColor.set kOpenHeFSBlack dir
    (dir, ioDrvOutput mnt .directory start dir σ)
  else (dir, σ)

def turned (mnt : DriveTrait) (start : Lba) (dir : Image) (σ : Mount) : Image × Mount :=
  if fColor.get dir = kOpenHeFSBlack ∧ fChild.get dir ≠ 0 then
    (fColor.set kOpenHeFSRed dir, hefsiRotateTree mnt start σ)
  else if fColor.get dir = kOpenHeFSBlack ∧ fChild.get dir = 0 then
    let dir := fColor.set kOpenHeFSBlack dir
    (dir, ioDrvOutput mnt .directory start dir σ)
  else (dir, σ)

def resealed (mnt : DriveTrait) (start : Lba) (dir : Image) (σ : Mount) : Mount :=
  if imageCrc dir HefsIndexNodeDirectory.size ≠ HefsIndexNodeDirectory.fChecksum.get dir then
    ioDrvOutput mnt .directory start (sealDirectory dir) σ
  else σ

def balanceNode (mnt : DriveTrait) (boot : Image) (start : Lba) (σ : Mount) : Mount :=
  let first := blackened mnt boot start σ
  let second := turned mnt start first.1 first.2
  resealed mnt start second.1 second.2

def balanceFrom (mnt : DriveTrait) (boot : Image) : List Lba → Mount → Bool × Mount
  | [], σ => (true, { σ with errGlobal := kErrorSuccess })
  | start :: rest, σ =>
      if σ.fPacketGood then balanceFrom mnt boot rest (balanceNode mnt boot start σ)
      else (false, { σ with errGlobal := kErrorDiskIsCorrupted })

def hefsiBalanceInd (mnt : DriveTrait) (boot : Image) (σ : Mount) : Bool × Mount :=
  if fStartIND.get boot = 0 then (false, σ)
  else if fStartIND.get boot > fEndIND.get boot then (true, { σ with errGlobal := kErrorSuccess })
  else balanceFrom mnt boot (indScan boot) σ

def indMatches (dirName : Path) (deleteOrCreate : Bool) (tmpdir : Image) : Bool :=
  if deleteOrCreate then
    fCreated.get tmpdir ≠ 0 ∧ fDeleted.get tmpdir = 0 ∧ hefsiHash64 dirName = fHashPath.get tmpdir
  else
    (fCreated.get tmpdir = 0 ∧ fDeleted.get tmpdir ≠ 0) ∨ fHashPath.get tmpdir = 0

def childFrom (boot tmpdir : Image) (disk : Memory) : Nat → Lba → Lba
  | 0, child => child
  | n + 1, child =>
      let tmpend := directoryAt disk child
      if (fCreated.get tmpend = 0 ∧ fDeleted.get tmpend ≠ 0) ∨ fHashPath.get tmpdir = 0 then child
      else if child + kNodeSize > fEndIND.get boot then child + kNodeSize
      else childFrom boot tmpdir disk n (child + kNodeSize)

/-- The `dirent` of `hefsi_update_ind_status`. Its slices, times and entry count stay zero. -/
def directoryEntry (boot : Image) (dirName : Path) (flags : BitVec 16) (deleteOrCreate : Bool)
    (tmpdir : Image) (disk : Memory) : Image :=
  let dirent := fHashPath.set (if deleteOrCreate then 0 else hefsiHash64 dirName) zeroed
  let dirent := fCreated.set (if deleteOrCreate then 0 else 1) dirent
  let dirent := fDeleted.set (if deleteOrCreate then 1 else 0) dirent
  let dirent := HefsIndexNodeDirectory.fFlags.set (flags.setWidth 64) dirent
  let next := fNext.get tmpdir
  let color := if fColor.get tmpdir = 0 then (if next = 0 then kOpenHeFSBlack else kOpenHeFSRed)
    else fColor.get tmpdir
  let child := childFrom boot tmpdir disk kNodeMax (next + kNodeSize)
  let dirent := fNext.set next dirent
  let dirent := fPrev.set (if fPrev.get tmpdir = 0 then fStartIND.get boot else fPrev.get tmpdir) dirent
  let dirent := fParent.set (if fParent.get tmpdir = 0 then fStartIND.get boot else fParent.get tmpdir) dirent
  let dirent := fColor.set (if fChild.get tmpdir = 0 then kOpenHeFSRed else color) dirent
  let dirent := fChild.set
    (if fChild.get tmpdir = 0 then (if child > fEndIND.get boot then fStartIND.get boot else child)
      else fChild.get tmpdir) dirent
  sealDirectory dirent

def counted (deleteOrCreate : Bool) (boot : Image) : Image :=
  fINDCount.set (if deleteOrCreate then fINDCount.get boot - 1 else fINDCount.get boot + 1) boot

def storeDirectory (mnt : DriveTrait) (boot : Image) (dirName : Path) (flags : BitVec 16)
    (deleteOrCreate : Bool) (start : Lba) (σ : Mount) : Image × Mount :=
  let tmpdir := directoryAt σ.disk start
  let dirent := directoryEntry boot dirName flags deleteOrCreate tmpdir σ.disk
  let σ := ioDrvOutput mnt .directory start dirent σ
  let σ := { σ with errGlobal := kErrorSuccess }
  let boot := sealBoot (counted deleteOrCreate boot)
  (boot, ioDrvOutput mnt .boot mnt.fLbaStart boot σ)

/-- `none` is a failed `MUST_PASS`. The `parent_location` of the source is zero throughout, so the
branch under it is left out. -/
def hefsiUpdateIndStatus (mnt : DriveTrait) (boot : Image) (dirName : Path) (flags : BitVec 16)
    (deleteOrCreate : Bool) (σ : Mount) : Option (Bool × Image × Mount) :=
  if mnt.fLbaStart < fStartIND.get boot then
    let σ := mnt.completed σ
    match (indScan boot).find? fun start =>
      indMatches dirName deleteOrCreate (directoryAt σ.disk start) with
    | none => some (false, boot, { σ with errGlobal := kErrorDisk })
    | some start => some (true, storeDirectory mnt boot dirName flags deleteOrCreate start σ)
  else none

/-! ## Index nodes -/

def slices (dir : Image) : List Lba :=
  (List.finRange kOpenHeFSSliceCount).map fun i => (fINSlices i).get dir

def inodeMatches (fileHash : BitVec 64) (kind : BitVec 8) (node : Image) : Bool :=
  fileHash = HefsIndexNode.fHashPath.get node ∧ HefsIndexNode.fKind.get node = kind.setWidth 64

def fetchFrom (disk : Memory) (dirHash fileHash : BitVec 64) (kind : BitVec 8) : List Lba → Option Image
  | [] => none
  | start :: rest =>
      let dir := directoryAt disk start
      if fHashPath.get dir = 0 then none
      else if dirHash = fHashPath.get dir then
        match ((slices dir).map (inodeAt disk)).find? (inodeMatches fileHash kind) with
        | some node => some node
        | none => fetchFrom disk dirHash fileHash kind rest
      else fetchFrom disk dirHash fileHash kind rest

def hefsiFetchIn (mnt : DriveTrait) (boot : Image) (dirName fileName : Path) (kind : BitVec 8)
    (σ : Mount) : Option Image × Mount :=
  if fStartIND.get boot > fEndIND.get boot then (none, σ)
  else if fStartIN.get boot > fEndIN.get boot then (none, σ)
  else if σ.errGlobal = kErrorDiskIsCorrupted then (none, σ)
  else
    let σ := mnt.completed σ
    match fetchFrom σ.disk (hefsiHash64 dirName) (hefsiHash64 fileName) kind (lookupScan boot) with
    | some node => (some node, σ)
    | none => (none, { σ with errGlobal := kErrorFileNotFound })

def sliceMatches (disk : Memory) (hashFile : BitVec 64) (deleteOrCreate : Bool) (slice : Lba) : Bool :=
  if deleteOrCreate then slice ≠ 0 ∧ HefsIndexNode.fHashPath.get (inodeAt disk slice) = hashFile
  else slice = 0

/-- The slice that both loops of `hefsi_update_in_status` end at. -/
def sliceIn (disk : Memory) (dirHash hashFile : BitVec 64) (deleteOrCreate : Bool) (start : Lba) :
    Option (Lba × Fin kOpenHeFSSliceCount) :=
  let dir := directoryAt disk start
  if dirHash = fHashPath.get dir then
    ((List.finRange kOpenHeFSSliceCount).find? fun i =>
      sliceMatches disk hashFile deleteOrCreate ((fINSlices i).get dir)).map fun i => (start, i)
  else none

/-- Both cursors of the boot node move past what they hand out. -/
def advanced (boot : Image) : Image :=
  let boot := fStartIN.set (fStartIN.get boot + kNodeSize) boot
  fStartBlock.set (fStartBlock.get boot + kOpenHeFSBlockLen) boot

def linkINode (mnt : DriveTrait) (boot : Image) (start : Lba) (i : Fin kOpenHeFSSliceCount) (node : Image)
    (σ : Mount) : Image × Mount :=
  let dir := (fINSlices i).set (fStartIN.get boot) (directoryAt σ.disk start)
  let dir := sealDirectory (fEntryCount.set (fEntryCount.get dir + 1) dir)
  let σ := ioDrvOutput mnt .directory start dir σ
  let lba := (fINSlices i).get dir
  let node := HefsIndexNode.fOffsetSliceLow.set (fStartBlock.get boot) node
  let node := sealINode (HefsIndexNode.fOffsetSliceHigh.set (fStartBlock.get boot >>> 32) node)
  let σ := ioDrvOutput mnt .inode lba node σ
  let boot := sealBoot (advanced boot)
  (boot, ioDrvOutput mnt .boot mnt.fLbaStart boot σ)

/-- The cursors are bump allocators, so a deleted node is not handed out again. -/
def unlinkINode (mnt : DriveTrait) (boot : Image) (start : Lba) (i : Fin kOpenHeFSSliceCount) (node : Image)
    (σ : Mount) : Image × Mount :=
  let dir := directoryAt σ.disk start
  let lba := (fINSlices i).get dir
  let node := HefsIndexNode.fOffsetSliceHigh.set 0 (HefsIndexNode.fOffsetSliceLow.set 0 node)
  let boot := sealBoot boot
  let σ := ioDrvOutput mnt .boot mnt.fLbaStart boot σ
  let σ := ioDrvOutput mnt .inode lba node σ
  let dir := (fINSlices i).set 0 dir
  let count := fEntryCount.get dir
  let dir := sealDirectory (fEntryCount.set (if count = 0 then 0 else count - 1) dir)
  (boot, ioDrvOutput mnt .directory start dir σ)

def hefsiUpdateInStatus (mnt : DriveTrait) (boot : Image) (dirName : Path) (node : Image)
    (deleteOrCreate : Bool) (σ : Mount) : Bool × Image × Mount :=
  if fStartIND.get boot > fEndIND.get boot then (false, boot, σ)
  else if fStartIN.get boot > fEndIN.get boot then (false, boot, σ)
  else if fStartBlock.get boot > fEndBlock.get boot then (false, boot, σ)
  else
    let σ := mnt.completed σ
    let hashFile := HefsIndexNode.fHashPath.get node
    match (indScan boot).findSome? (sliceIn σ.disk (hefsiHash64 dirName) hashFile deleteOrCreate) with
    | none => (false, boot, { σ with errGlobal := kErrorFileNotFound })
    | some (start, i) =>
        if deleteOrCreate then (true, unlinkINode mnt boot start i node σ)
        else (true, linkINode mnt boot start i node σ)

/-! ## The parser's interface -/

def kOpenHeFSSearchAllStr : Path := utf8 ['*']

def iNodeDirectoryCtlManip (mnt : DriveTrait) (flags : BitVec 32) (dir : Path) (deleteOrCreate : Bool)
    (σ : Mount) : Option (Bool × Mount) :=
  if dir.length > kOpenHeFSFileNameLen then some (false, { σ with errGlobal := kErrorDisk }) else
  let (boot, σ) := ioDrvInput mnt .boot mnt.fLbaStart σ
  if !bootValid boot then some (true, { σ with errGlobal := kErrorDisk }) else
  if dir = kOpenHeFSSearchAllStr then some (false, { σ with errGlobal := kErrorInvalidData }) else
  match hefsiUpdateIndStatus mnt boot dir (flags.setWidth 16) deleteOrCreate σ with
  | none => none
  | some (false, _, σ) => some (false, σ)
  | some (true, boot, σ) => some (true, (hefsiBalanceInd mnt boot σ).2)

def createINodeDirectory (mnt : DriveTrait) (flags : BitVec 32) (dir : Path) (σ : Mount) :
    Option (Bool × Mount) := iNodeDirectoryCtlManip mnt flags dir false σ

def removeINodeDirectory (mnt : DriveTrait) (flags : BitVec 32) (dir : Path) (σ : Mount) :
    Option (Bool × Mount) := iNodeDirectoryCtlManip mnt flags dir true σ

/-- The node `INodeCtlManip` hands to `hefsi_update_in_status`. -/
def inodeEntry (flags : BitVec 32) (name : Path) (deleteOrCreate : Bool) (kind : BitVec 8) : Image :=
  let node := HefsIndexNode.fCreated.set (if deleteOrCreate then 0 else 1) zeroed
  let node := HefsIndexNode.fDeleted.set (if deleteOrCreate then 1 else 0) node
  let node := HefsIndexNode.fKind.set (kind.setWidth 64) node
  let node := HefsIndexNode.fFlags.set (flags.setWidth 64) node
  HefsIndexNode.fHashPath.set (hefsiHash64 name) node

def iNodeCtlManip (mnt : DriveTrait) (flags : BitVec 32) (dir name : Path) (deleteOrCreate : Bool)
    (kind : BitVec 8) (σ : Mount) : Bool × Mount :=
  if name.length > kOpenHeFSFileNameLen then (false, { σ with errGlobal := kErrorDisk }) else
  if dir.length > kOpenHeFSFileNameLen then (false, { σ with errGlobal := kErrorDisk }) else
  let (boot, σ) := ioDrvInput mnt .boot mnt.fLbaStart σ
  if !bootValid boot then (true, { σ with errGlobal := kErrorDisk }) else
  if dir = kOpenHeFSSearchAllStr then (false, { σ with errGlobal := kErrorInvalidData }) else
  if name.contains 0x2F then (false, { σ with errGlobal := kErrorInvalidData }) else
  let node := inodeEntry flags name deleteOrCreate kind
  match hefsiUpdateInStatus mnt boot dir node deleteOrCreate σ with
  | (true, boot, σ) => (true, { (hefsiBalanceInd mnt boot σ).2 with errGlobal := kErrorSuccess })
  | (false, _, σ) => (false, { σ with errGlobal := kErrorDirectoryNotFound })

def createINode (mnt : DriveTrait) (flags : BitVec 32) (dir name : Path) (kind : BitVec 8) (σ : Mount) :
    Bool × Mount := iNodeCtlManip mnt flags dir name false kind σ

def deleteINode (mnt : DriveTrait) (flags : BitVec 32) (dir name : Path) (kind : BitVec 8) (σ : Mount) :
    Bool × Mount := iNodeCtlManip mnt flags dir name true kind σ

def iNodeExists (mnt : DriveTrait) (dir name : Path) (kind : BitVec 8) (σ : Mount) : Bool × Mount :=
  if dir.length > kOpenHeFSFileNameLen then (false, σ) else
  if name.length > kOpenHeFSFileNameLen then (false, σ) else
  let (boot, σ) := ioDrvInput mnt .boot mnt.fLbaStart σ
  if !bootValid boot then (false, { σ with errGlobal := kErrorDisk }) else
  match hefsiFetchIn mnt boot dir name kind σ with
  | (none, σ) => (false, { σ with errGlobal := kErrorFileNotFound })
  | (some _, σ) => (true, { σ with errGlobal := kErrorSuccess })

/-- One directory or inode operation of the parser, with what its caller passes. -/
inductive FsCall where
  | directory (flags : BitVec 32) (dir : Path) (deleteOrCreate : Bool)
  | inode (flags : BitVec 32) (dir name : Path) (deleteOrCreate : Bool) (kind : BitVec 8)

def FsCall.run (mnt : DriveTrait) : FsCall → Mount → Option (Bool × Mount)
  | .directory flags dir deleteOrCreate, σ => iNodeDirectoryCtlManip mnt flags dir deleteOrCreate σ
  | .inode flags dir name deleteOrCreate kind, σ =>
      some (iNodeCtlManip mnt flags dir name deleteOrCreate kind σ)

def FsStep (mnt : DriveTrait) (call : FsCall) (σ σ' : Mount) : Prop := ∃ r, call.run mnt σ = some (r, σ')

/-! ## Formatting -/

def kFileMap : List Path :=
  [ utf8 ['/'],
    utf8 ['/', 'b', 'o', 'o', 't'],
    utf8 ['/', 's', 'y', 's', 't', 'e', 'm'],
    utf8 ['/', 'n', 'e', 't', 'w', 'o', 'r', 'k'],
    utf8 ['/', 'd', 'e', 'v', 'i', 'c', 'e', 's'],
    utf8 ['/', 'm', 'e', 'd', 'i', 'a'],
    utf8 ['/', 'd', 'e', 'v'],
    utf8 ['/', 'm', 'n', 't'],
    utf8 ['/', 'm', 'n', 't', '/', 'c'] ]

/-- The boot node `Format` writes over what it read. The name is copied without a bound, here up to the
end of the structure, and the ninth byte of the magic is not set. -/
def formatBoot (mnt : DriveTrait) (flags : BitVec 32) (volName : Path) (boot : Image) : Image :=
  let boot := write boot fVolName ((volName ++ [0]).take (HefsBootNode.size - 9))
  let boot := write boot fMagic kOpenHeFSMagic
  let boot := fBadSectors.set 0 boot
  let boot := fSectorCount.set mnt.sectorCount boot
  let boot := fSectorSize.set mnt.fSectorSz boot
  let maxLba := mnt.drvStdGetSize / mnt.fSectorSz
  let startIND := mnt.fLbaStart + BitVec.ofNat 64 HefsBootNode.size
  let endIND := startIND + maxLba / 300
  let endIN := endIND + maxLba / 400
  let boot := fStartIND.set startIND boot
  let boot := fEndIND.set endIND boot
  let boot := fStartIN.set endIND boot
  let boot := fEndIN.set endIN boot
  let boot := fStartBlock.set endIN boot
  let boot := fEndBlock.set mnt.drvStdGetSize boot
  let boot := fINDCount.set 0 boot
  let boot := fDiskSize.set mnt.drvStdGetSize boot
  let boot := fDiskStatus.set kOpenHeFSStatusUnlocked boot
  let boot := fDiskFlags.set (flags.setWidth 64) boot
  let kind :=
    if mnt.fKind &&& kMassStorageDrive ≠ 0 then kOpenHeFSMassStorageDevice
    else if mnt.fKind &&& kOpenHeFSOpticalDrive ≠ 0 then kOpenHeFSOpticalDrive.setWidth 64
    else kOpenHeFSUnknown
  let boot := fDiskKind.set kind boot
  let boot := fVersion.set kOpenHeFSVersion boot
  fVID.set kOpenHeFSInvalidVID boot

def createDefaults (mnt : DriveTrait) : List Path → Mount → Option Mount
  | [], σ => some σ
  | dir :: rest, σ =>
      match createINodeDirectory mnt kOpenHeFSEncodingFlagsUTF8 dir σ with
      | none => none
      | some (_, σ) => createDefaults mnt rest σ

/-- The checksum test of `Format`. -/
def checksumGood (boot : Image) : Bool :=
  imageCrc boot HefsBootNode.size = HefsBootNode.fChecksum.get boot ∨ HefsBootNode.fChecksum.get boot = 0

def heFormat (mnt : DriveTrait) (flags : BitVec 32) (volName : Path) (σ : Mount) : Option (Bool × Mount) :=
  if !σ.fPacketGood then some (false, { σ with errGlobal := kErrorDiskIsCorrupted }) else
  let (boot, σ) := ioDrvInput mnt .boot mnt.fLbaStart σ
  if bootValid boot then
    if checksumGood boot then some (true, { σ with errGlobal := kErrorSuccess })
    else some (false, { σ with errGlobal := kErrorDiskIsCorrupted })
  else if !checksumGood boot then some (false, { σ with errGlobal := kErrorDiskIsCorrupted })
  else if mnt.fLbaStart > mnt.fLbaEnd then some (false, { σ with errGlobal := kErrorDiskIsCorrupted })
  else if mnt.fSectorSz = 0 then none
  else
    let boot := sealBoot (formatBoot mnt flags volName boot)
    let σ := ioDrvOutput mnt .boot mnt.fLbaStart boot σ
    if !σ.fPacketGood then some (false, { σ with errGlobal := kErrorDiskIsCorrupted }) else
    match createDefaults mnt kFileMap σ with
    | none => none
    | some σ => some (true, { σ with errGlobal := kErrorSuccess })

end Ne.Kernel.FS
