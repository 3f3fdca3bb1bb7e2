import NeKernel.FS.OpenHeFS
import Mathlib.Data.List.TakeWhile

/-!
# NeFS structures, the strings their names are compared with, and the drive

Every driver divides the address of a packet by the sector size, so a structure lies at the start of
the sector its address falls into, and what exceeds the sector is not transferred.
-/

namespace Ne.Kernel.FS
open ByteMem

def kNeFSCatalogNameLen : Nat := 256
def kNeFSSectorSz : Nat := 512
def kNeFSPartLen : Nat := 32
def kNeFSVersionInteger : BitVec 64 := 0x0129
def kNeFSPartitionTypeStandard : BitVec 64 := 7
def kNeFSCatalogKindFile : BitVec 32 := 1
def kNeFSCatalogKindDir : BitVec 32 := 2
def kNeFSRootCatalogStartAddress : Lba := 1024
def kNeFSCatalogStartAddress : Lba := 1536
def kNeFSFlagDeleted : BitVec 64 := 70
def kNeFSFlagCreated : BitVec 64 := 71
def kNeFSStatusUnlocked : BitVec 64 := 0x18
def kNeFSStatusLocked : BitVec 64 := 0x19

def kNeFSIdent : List Byte := [0x20, 0x20, 0x4E, 0x65, 0x46, 0x53, 0]
def kNeFSSeparator : Byte := 0x2F

def kNeFSRoot : List Byte := [kNeFSSeparator]

/-! ## Structures -/

namespace NefsCatalogStruct
def size : Nat := 535
def Name : BitVec 64 := 1
def Flags : Field := { off := 457, size := 2 }
def Status : Field := { off := 459, size := 2 }
def CatalogFlags : Field := { off := 461, size := 2 }
def Kind : Field := { off := 463, size := 4 }
def DataForkSize : Field := { off := 467, size := 8 }
def ResourceForkSize : Field := { off := 475, size := 8 }
def DataFork : Field := { off := 483, size := 8 }
def ResourceFork : Field := { off := 491, size := 8 }
def NextSibling : Field := { off := 499, size := 8 }
def PrevSibling : Field := { off := 507, size := 8 }
def Checksum : Field := { off := 531, size := 4 }
end NefsCatalogStruct

namespace NefsForkStruct
def size : Nat := 512
def ForkOrCatalog : Field := { off := 0, size := 1 }
def ForkName : BitVec 64 := 1
def CatalogName : BitVec 64 := 200
def Flags : Field := { off := 456, size := 4 }
def DataOffset : Field := { off := 480, size := 8 }
def DataSize : Field := { off := 488, size := 8 }
def NextSibling : Field := { off := 496, size := 8 }
def PreviousSibling : Field := { off := 504, size := 8 }
end NefsForkStruct

namespace NefsRootPartitionBlock
def size : Nat := 512
def Ident : BitVec 64 := 0
def PartitionName : BitVec 64 := 8
def Flags : Field := { off := 40, size := 4 }
def Kind : Field := { off := 44, size := 4 }
def StartCatalog : Field := { off := 48, size := 8 }
def CatalogCount : Field := { off := 56, size := 8 }
def DiskSize : Field := { off := 64, size := 8 }
def FreeCatalog : Field := { off := 72, size := 8 }
def FreeSectors : Field := { off := 80, size := 8 }
def SectorCount : Field := { off := 88, size := 8 }
def SectorSize : Field := { off := 96, size := 8 }
def Version : Field := { off := 104, size := 8 }
end NefsRootPartitionBlock

/-- The bytes of two structures that a packet transfers are the same. -/
def SameSector (s s' : Image) : Prop := ∀ x : BitVec 64, x.toNat < kNeFSSectorSz → s' x = s x

theorem SameSector.trans {s s' s'' : Image} (first : SameSector s s') (second : SameSector s' s'') :
    SameSector s s'' := fun x inside => (second x inside).trans (first x inside)

theorem SameSector.get {s s' : Image} {f : Field} (same : SameSector s s') (inside : f.off + f.size ≤ kNeFSSectorSz) :
    f.get s' = f.get s := Field.get_congr fun x _ high => same x (high.trans_le inside)

/-! ## Strings -/

/-- A character array of a structure in a sector, up to its NUL. -/
def charsOf (s : Image) (off : BitVec 64) : List Byte :=
  (read s off (kNeFSSectorSz - off.toNat)).takeWhile (· ≠ 0)

theorem SameSector.charsOf {s s' : Image} {off : BitVec 64} (same : SameSector s s')
    (inside : off.toNat ≤ kNeFSSectorSz) : charsOf s' off = charsOf s off := by
  have small : kNeFSSectorSz = 512 := rfl
  unfold FS.charsOf
  rw [read_congr (by omega)]
  intro x within
  have bound := (within_iff (by omega)).mp within
  exact same x (by omega)

theorem charsOf_ended {s : Image} {off : BitVec 64} {c : Byte} (member : c ∈ charsOf s off) : c ≠ 0 := by
  simpa using List.mem_takeWhile_imp member

def nameOf (catalog : Image) : List Byte := charsOf catalog NefsCatalogStruct.Name

/-- A pointer to a NUL-terminated string. `behind` are the bytes before it, the nearest first. -/
structure CString where
  behind : Nat → Byte
  text : List Byte
  ended : ∀ c ∈ text, c ≠ 0

namespace CString

def length (p : CString) : Nat := p.text.length

/-- The `n` bytes before the terminator. More than the string has are read from the memory before it. -/
def ending (p : CString) (n : Nat) : List Byte :=
  if n ≤ p.length then p.text.drop (p.length - n)
  else ((List.range (n - p.length)).map p.behind).reverse ++ p.text

/-- `KStringBuilder::Equals` of `name` and the end of the string at its length: the pointer
`p + (rt_string_len(p) - rt_string_len(name))` may lie before `p`. -/
def endsWith (p : CString) (name : List Byte) : Bool := p.ending name.length = name

/-- The string without its last component, in a copy that has other bytes behind it. A separator at
the end is part of the component. -/
def parent (p : CString) (behind : Nat → Byte) : Option CString :=
  let body := if p.text.getLast? = some kNeFSSeparator then p.text.dropLast else p.text
  let text := (body.reverse.dropWhile (· ≠ kNeFSSeparator)).reverse
  if text = [] then none
  else some
    { behind := behind
      text := text
      ended := by
        intro c member
        have inBody : c ∈ body := by
          have inner := (List.dropWhile_sublist _).subset (List.mem_reverse.mp member)
          exact List.mem_reverse.mp inner
        dsimp only [body] at inBody
        split at inBody
        · exact p.ended c (List.dropLast_subset _ inBody)
        · exact p.ended c inBody }

end CString

/-- The bytes before the copies a call makes of its path. -/
structure Beside where
  heap : Nat → Byte
  stack : Nat → Byte

/-- `rt_copy_memory_safe` into an array of `room` bytes. What does not fit clears the array. -/
def copyChars (s : Image) (off : BitVec 64) (chars : List Byte) (room : Nat) : Image :=
  if chars.length ≤ room then write s off chars else write s off (List.replicate room 0)

/-! ## The drive -/

/-- The parts of the drive that stay as they are while it is mounted. `identNext` is the byte that follows the
identifier's literal, whose eighth byte the parser copies and compares. -/
structure NeDrive where
  fLbaStart : Lba
  fSectorSz : SizeT
  fPacketReadOnly : Bool
  sectorCount : SizeT
  ahci : Bool
  identNext : Byte
  sectorSz_pos : 0 < fSectorSz.toNat

/-- The sectors, and the packet's `fPacketGood`. Only `fInit` makes a packet good again. -/
structure NeVolume where
  sectors : Nat → Image
  fPacketGood : Bool

namespace NeDrive

/-- The bits of a sector number that the driver passes on. -/
def lbaBits (drive : NeDrive) : Nat := if drive.ahci then 48 else 28

def sectorOf (drive : NeDrive) (lba : Lba) : Nat := lba.toNat / kNeFSSectorSz % 2 ^ drive.lbaBits

/-- `fInput` of a structure. -/
def input (drive : NeDrive) (lba : Lba) (v : NeVolume) : Image := v.sectors (drive.sectorOf lba)

/-- `fOutput` of `size` bytes. -/
def output (drive : NeDrive) (lba : Lba) (size : Nat) (body : Image) (v : NeVolume) : NeVolume :=
  if drive.fPacketReadOnly then { v with fPacketGood := false }
  else if lba = 0 then { v with fPacketGood := false }
  else { v with
    sectors := fun s => if s = drive.sectorOf lba
      then place (v.sectors s) 0 (min size kNeFSSectorSz) body else v.sectors s }

/-- `fs_ifs_write` of the packet that was sent last. Nothing sets `fPacketGood` after it was cleared. -/
def fsIfsWrite (drive : NeDrive) (lba : Lba) (size : Nat) (body : Image) (v : NeVolume) : NeVolume :=
  if v.fPacketGood then drive.output lba size body { v with fPacketGood := false } else v

/-- The sectors a catalog is counted for. -/
def catalogSectors (drive : NeDrive) : SizeT :=
  (BitVec.ofNat 64 NefsCatalogStruct.size + drive.fSectorSz - 1) / drive.fSectorSz

def partition (drive : NeDrive) (v : NeVolume) : Image := drive.input kNeFSRootCatalogStartAddress v

end NeDrive

end Ne.Kernel.FS
