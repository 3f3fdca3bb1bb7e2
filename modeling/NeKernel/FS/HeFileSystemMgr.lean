import NeKernel.FS.HeFileSystemParser

/-!
# Data of OpenHeFS files

`INodeManip` moves the data of a file between a buffer and its block, and the manager's two pairs of
`Write` and `Read` pass theirs to it. Both go to the main drive.
-/

namespace Ne.Kernel
open ByteMem

def kErrorDiskIsFull : Int := 38

namespace FS
open HefsBootNode hiding size fChecksum

def kOpenHeFSFlagsReadOnly : BitVec 64 := 0x100
def kOpenHeFSRootDirectory : Path := utf8 ['/']

/-- A packet of data that was handed to the drive. -/
structure DataPacket where
  fPacketLba : Lba
  fPacketSize : SizeT

/-- Both words of the address of a file's block. -/
def offsetSlice (node : Image) : Lba :=
  HefsIndexNode.fOffsetSliceHigh.get node <<< 32 ||| HefsIndexNode.fOffsetSliceLow.get node

/-- What `INodeManip` returns, the packet of data it sent, and the buffer. -/
structure Manip where
  result : Bool
  issued : Option DataPacket
  block : Image
  mount : Mount

def inputData (mnt : DriveTrait) (size : SizeT) (lba : Lba) (σ : Mount) : Image × Mount :=
  (window σ.disk lba size.toNat, mnt.completed σ)

def outputData (mnt : DriveTrait) (size : SizeT) (lba : Lba) (block : Image) (σ : Mount) : Mount :=
  if mnt.fPacketReadOnly then { σ with fPacketGood := false }
  else if lba = 0 then { σ with fPacketGood := false }
  else mnt.completed { σ with disk := place σ.disk lba size.toNat block }

def iNodeManip (mnt : DriveTrait) (block : Image) (blockSz : SizeT) (dir name : Path) (kind : BitVec 8)
    (isInput : Bool) (σ : Mount) : Manip :=
  if dir.length > kOpenHeFSFileNameLen then ⟨false, none, block, { σ with errGlobal := kErrorDisk }⟩ else
  if name.length > kOpenHeFSFileNameLen then ⟨false, none, block, { σ with errGlobal := kErrorDisk }⟩ else
  let (boot, σ) := ioDrvInput mnt .boot mnt.fLbaStart σ
  if !bootValid boot then ⟨false, none, block, { σ with errGlobal := kErrorDisk }⟩ else
  match hefsiFetchIn mnt boot dir name kind σ with
  | (none, σ) => ⟨false, none, block, { σ with errGlobal := kErrorFileNotFound }⟩
  | (some start, σ) =>
      if HefsIndexNode.fOffsetSliceLow.get start ≠ 0 ∧ HefsIndexNode.fHashPath.get start ≠ 0 then
        let packet : DataPacket := ⟨offsetSlice start, blockSz⟩
        if isInput then
          let (block, σ) := inputData mnt blockSz (offsetSlice start) σ
          ⟨true, some packet, block, σ⟩
        else if HefsIndexNode.fFlags.get start &&& kOpenHeFSFlagsReadOnly ≠ 0 then ⟨false, none, block, σ⟩
        else ⟨true, some packet, block, outputData mnt blockSz (offsetSlice start) block σ⟩
      else ⟨true, none, block, σ⟩

/-! ## The manager -/

/-- `HEFS_NODE_DESC`. -/
structure HefsNodeDesc where
  fDir : Path
  fName : Path
  fCursor : SizeT
  fKind : BitVec 8

/-- The mounted drive's state and `err_local_get()`. -/
structure FileMgr where
  mount : Mount
  errLocal : Int

/-- A null pointer is `none`. An open file's descriptor is not. -/
def writeNode (mnt : DriveTrait) (desc : HefsNodeDesc) (data : Option Image) (size : SizeT) (m : FileMgr) :
    HefsNodeDesc × FileMgr :=
  match data with
  | none => (desc, m)
  | some data =>
      if size = 0 then (desc, m)
      else if size > kOpenHeFSBlockLen then (desc, { m with errLocal := kErrorDiskIsFull })
      else
        let done := iNodeManip mnt data size desc.fDir desc.fName desc.fKind false m.mount
        if !done.result then (desc, ⟨done.mount, kErrorFileNotFound⟩)
        else ({ desc with fCursor := size }, ⟨done.mount, kErrorSuccess⟩)

def readNode (mnt : DriveTrait) (desc : HefsNodeDesc) (size : SizeT) (m : FileMgr) :
    Option Image × HefsNodeDesc × FileMgr :=
  if size = 0 then (none, desc, m)
  else
    let size := if size > kOpenHeFSBlockLen then kOpenHeFSBlockLen else size
    let done := iNodeManip mnt zeroed size desc.fDir desc.fName desc.fKind true m.mount
    if !done.result then (none, desc, ⟨done.mount, kErrorFileNotFound⟩)
    else (some done.block, { desc with fCursor := size }, ⟨done.mount, kErrorSuccess⟩)

/-- `Write` with a name. It has no status, and no bound on the size. -/
def writeNamed (mnt : DriveTrait) (name : Option Path) (data : Option Image) (flags : BitVec 32)
    (size : SizeT) (m : FileMgr) : FileMgr :=
  if flags = 0 then m
  else if size = 0 then m
  else match data, name with
    | some data, some name =>
        { m with mount := (iNodeManip mnt data size kOpenHeFSRootDirectory name 0 false m.mount).mount }
    | _, _ => m

def readNamed (mnt : DriveTrait) (name : Path) (sz : SizeT) (m : FileMgr) : Image × FileMgr :=
  let done := iNodeManip mnt zeroed sz kOpenHeFSRootDirectory name 0 true m.mount
  (done.block, { m with mount := done.mount })

end FS

end Ne.Kernel
