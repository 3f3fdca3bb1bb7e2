import NeKernel.NeKit.Crc32
import NeKernel.Lib.Packed

/-!
# OpenHeFS structures and the drive they are kept on

The three on-disk structures are packed images. The drive is used through the `fInput` and `fOutput`
of its trait: a packet moves one structure between a buffer and the bytes from `fPacketLba`.
-/

namespace Ne.Kernel
open ByteMem

def kErrorDiskIsCorrupted : Int := 54
def kErrorDisk : Int := 55
def kErrorFileNotFound : Int := 35
def kErrorDirectoryNotFound : Int := 36

namespace FS

def kOpenHeFSVersion : BitVec 64 := 0x0104
def kOpenHeFSMagic : List Byte := [0x4F, 0x70, 0x65, 0x6E, 0x48, 0x65, 0x46, 0x53]
def kOpenHeFSFileNameLen : Nat := 256
def kOpenHeFSBlockLen : BitVec 64 := 512
def kOpenHeFSSliceCount : Nat := 0x10
def kOpenHeFSInvalidVID : BitVec 64 := 0xFFFF
def kOpenHeFSStatusUnlocked : BitVec 64 := 0x18
def kOpenHeFSEncodingFlagsUTF8 : BitVec 32 := 0x50
def kOpenHeFSRed : BitVec 64 := 100
def kOpenHeFSBlack : BitVec 64 := 101
def kOpenHeFSOpticalDrive : BitVec 32 := 0x0C
def kOpenHeFSMassStorageDevice : BitVec 64 := 0xCC
def kOpenHeFSUnknown : BitVec 64 := 0xFF
def kMassStorageDrive : BitVec 32 := 0xDA

/-! ## Structures -/

namespace HefsBootNode
def size : Nat := 513
def fMagic : BitVec 64 := 0
def fVolName : BitVec 64 := 9
def fVersion : Field := { off := 137, size := 4 }
def fBadSectors : Field := { off := 141, size := 8 }
def fSectorCount : Field := { off := 149, size := 8 }
def fSectorSize : Field := { off := 157, size := 8 }
def fChecksum : Field := { off := 165, size := 4 }
def fDiskKind : Field := { off := 169, size := 1 }
def fStartIND : Field := { off := 171, size := 8 }
def fEndIND : Field := { off := 179, size := 8 }
def fINDCount : Field := { off := 187, size := 8 }
def fDiskSize : Field := { off := 195, size := 8 }
def fDiskStatus : Field := { off := 203, size := 2 }
def fDiskFlags : Field := { off := 205, size := 2 }
def fVID : Field := { off := 207, size := 2 }
def fStartIN : Field := { off := 209, size := 8 }
def fEndIN : Field := { off := 217, size := 8 }
def fStartBlock : Field := { off := 225, size := 8 }
def fEndBlock : Field := { off := 233, size := 8 }
end HefsBootNode

namespace HefsIndexNode
def size : Nat := 512
def fHashPath : Field := { off := 0, size := 8 }
def fFlags : Field := { off := 8, size := 4 }
def fKind : Field := { off := 12, size := 2 }
def fChecksum : Field := { off := 18, size := 4 }
def fCreated : Field := { off := 23, size := 8 }
def fDeleted : Field := { off := 47, size := 8 }
def fOffsetSliceLow : Field := { off := 67, size := 4 }
def fOffsetSliceHigh : Field := { off := 71, size := 4 }
end HefsIndexNode

namespace HefsIndexNodeDirectory
def size : Nat := 512
def fHashPath : Field := { off := 0, size := 8 }
def fFlags : Field := { off := 8, size := 4 }
def fEntryCount : Field := { off := 14, size := 4 }
def fChecksum : Field := { off := 18, size := 4 }
def fCreated : Field := { off := 22, size := 8 }
def fDeleted : Field := { off := 46, size := 8 }
def fINSlices (i : Fin kOpenHeFSSliceCount) : Field :=
  { off := 66 + 8 * i.val
    size := 8
    doesFit := Nat.ble_eq_true_of_le (by
      have bound : i.val < 16 := i.isLt
      omega) }
def fColor : Field := { off := 194, size := 1 }
def fNext : Field := { off := 195, size := 8 }
def fPrev : Field := { off := 203, size := 8 }
def fChild : Field := { off := 211, size := 8 }
def fParent : Field := { off := 219, size := 8 }
end HefsIndexNodeDirectory

def zeroed : Image := fun _ => 0

theorem sliceCount_pos : 0 < kOpenHeFSSliceCount := by decide

/-- `ke_calculate_crc32` of a structure, at the width the numeric members are read with. -/
def imageCrc (s : Image) (size : Nat) : BitVec 64 := (keCalculateCrc32 (read s 0 size)).setWidth 64

/-! ## The drive -/

/-- The parts of a `DriveTrait` that stay as they are while it is mounted. The drivers address
sectors of 512 bytes with 48 bits. -/
structure DriveTrait where
  fKind : BitVec 32
  fLbaStart : Lba
  fLbaEnd : Lba
  fSectorSz : SizeT
  fPacketReadOnly : Bool
  sectorCount : SizeT
  ahci : Bool
  start_lt : fLbaStart.toNat < 2 ^ 57
  sectors_lt : sectorCount.toNat < 2 ^ 48

/-- `drv_std_get_size`. -/
def DriveTrait.drvStdGetSize (mnt : DriveTrait) : SizeT := mnt.sectorCount * 512

inductive Content where
  | boot
  | directory
  | inode
  deriving DecidableEq

def Content.size : Content → Nat
  | .boot => HefsBootNode.size
  | .directory => HefsIndexNodeDirectory.size
  | .inode => HefsIndexNode.size

structure Packet where
  content : Content
  fPacketLba : Lba
  body : Image

def Packet.transfer (p : Packet) : Transfer := ⟨p.fPacketLba, p.content.size, p.body⟩

/-- The disk, the packet's `fPacketGood`, `err_global_get()`, and the packets the drive has taken. -/
structure Mount where
  disk : Memory
  fPacketGood : Bool
  errGlobal : Int
  written : List Packet

/-- The AHCI driver reports each transfer it completes, the ATA drivers leave the status alone. -/
def DriveTrait.completed (mnt : DriveTrait) (σ : Mount) : Mount :=
  if mnt.ahci then { σ with errGlobal := kErrorSuccess } else σ

/-- `io_drv_input` into a cleared buffer. -/
def ioDrvInput (mnt : DriveTrait) (content : Content) (lba : Lba) (σ : Mount) : Image × Mount :=
  (window σ.disk lba content.size, mnt.completed σ)

def ioDrvOutput (mnt : DriveTrait) (content : Content) (lba : Lba) (body : Image) (σ : Mount) : Mount :=
  if mnt.fPacketReadOnly then { σ with fPacketGood := false }
  else if lba = 0 then { σ with fPacketGood := false }
  else mnt.completed { σ with
    disk := place σ.disk lba content.size body
    written := σ.written ++ [⟨content, lba, body⟩] }

end FS

end Ne.Kernel
