import NeKernel.FS.FileStream

/-!
# The disk swap

`IDiskSwap` keeps a page in a file, through a stream that it opens for reading and writing.
-/

namespace Ne.Kernel.Swap
open ByteMem FS

def kSwapDiskHeaderMagic : BitVec 64 := 0x44535750

namespace SwapDiskHdr
def size : BitVec 64 := 56
def fMagic : Field := { off := 0, size := 4 }
def fOffset : Field := { off := 28, size := 8 }
def fBlobSz : Field := { off := 44, size := 8 }
end SwapDiskHdr

namespace IDiskSwap

/-- `Write`. Null pointers are `none`. -/
def write (mnt : DriveTrait) (data : Option Image) (name : Option Path) (m : FileMgr) : SizeT × FileMgr :=
  match data, name with
  | some data, some name =>
      if SwapDiskHdr.fMagic.get data ≠ kSwapDiskHeaderMagic then (0, m)
      else if name = [] then (0, m)
      else
        let (file, m) := FileStream.make mnt name kRestrictWRB m
        if file.fFile.isNone then (0, m)
        else
          let (ret, _, m) := file.write mnt (.offset (SwapDiskHdr.fOffset.get data)) (some data)
            (SwapDiskHdr.size + SwapDiskHdr.fBlobSz.get data) m
          (ret, m)
  | _, _ => (0, m)

/-- `Read`: the header that it found, `some none` when there is none. The outer `none` is a panic. -/
def read (mnt : DriveTrait) (offset : UIntPtr) (dataLen : SizeT) (name : Option Path) (m : FileMgr) :
    Option (Option Image) × FileMgr :=
  match name with
  | none => (some none, m)
  | some name =>
      if dataLen = 0 then (some none, m)
      else if name = [] then (some none, m)
      else
        let (file, m) := FileStream.make mnt name kRestrictRB m
        if file.fFile.isNone then (some none, m)
        else match file.read mnt offset (SwapDiskHdr.size + dataLen) m with
          | (.panic, m) => (none, m)
          | (.error _, m) => (some none, m)
          | (.blob blob, m) =>
              if SwapDiskHdr.fMagic.get blob ≠ kSwapDiskHeaderMagic then (some none, m) else (some (some blob), m)

end IDiskSwap

/-- A header that is a swap header, and fits a file's block with its blob. -/
structure Swappable (header : Image) : Prop where
  magic : SwapDiskHdr.fMagic.get header = kSwapDiskHeaderMagic
  fits : SwapDiskHdr.size.toNat + (SwapDiskHdr.fBlobSz.get header).toNat ≤ kOpenHeFSBlockLen.toNat

/-- Two pages swapped out one after the other: the first comes back. -/
def SwapTrips (mnt : DriveTrait) (name : Path) (first second : Image) (m : FileMgr) : Prop :=
  Swappable first → Swappable second → SwapDiskHdr.fOffset.get first ≠ SwapDiskHdr.fOffset.get second →
    (IDiskSwap.write mnt (some first) (some name) m).1 ≠ 0 →
    (IDiskSwap.write mnt (some second) (some name) (IDiskSwap.write mnt (some first) (some name) m).2).1 ≠ 0 →
    ∃ blob, (IDiskSwap.read mnt (SwapDiskHdr.fOffset.get first) (SwapDiskHdr.fBlobSz.get first) (some name)
        (IDiskSwap.write mnt (some second) (some name) (IDiskSwap.write mnt (some first) (some name) m).2).2).1 =
          some (some blob) ∧
      ∀ i : BitVec 64, i.toNat < SwapDiskHdr.size.toNat + (SwapDiskHdr.fBlobSz.get first).toNat → blob i = first i

/-- The count that a stream's `Write` returns is of the bytes stored. -/
def CountsStored (mnt : DriveTrait) (call : StreamCall) (data : Option Image) (len : SizeT) (stream : FileStream)
    (m : FileMgr) : Prop :=
  (stream.write mnt call data len m).1 = stream.stored mnt call data len m

section Swaps
variable {mnt : DriveTrait} {m : FileMgr} {data : Option Image} {name : Option Path}

/-- The mode of the swap's stream begins as the one for reading does, so no page is ever written. -/
theorem write_zero : (IDiskSwap.write mnt data name m).1 = 0 := by
  unfold IDiskSwap.write
  split
  · rename_i data name
    split
    · rfl
    split
    · rfl
    have refuses : (FileStream.make mnt name kRestrictWRB m).1.fFileRestrict.writes = false := by
      show (restrictOf kRestrictWRB).writes = false
      decide
    generalize FileStream.make mnt name kRestrictWRB m = opened at refuses
    dsimp only
    split
    · rfl
    · rw [write_count, if_neg (by simp [refuses])]
  · rfl

theorem swap_trips (mnt : DriveTrait) (name : Path) (first second : Image) (m : FileMgr) :
    SwapTrips mnt name first second m :=
  fun _ _ _ written => absurd write_zero written

end Swaps

/-! ## A byte too many -/

def fDesc : HefsNodeDesc := ⟨kOpenHeFSRootDirectory, utf8 ['f'], 0, kOpenHeFSFileKindRegular⟩

theorem f_opens : (FileStream.make pairDrive (utf8 ['/', 'f']) kRestrictW pairMgr).1 = ⟨some fDesc, .write⟩ := by
  have split : hefsSplitPath (utf8 ['/', 'f']) = some (kOpenHeFSRootDirectory, utf8 ['f']) := by decide
  have there : (iNodeExists pairDrive kOpenHeFSRootDirectory (utf8 ['f']) kOpenHeFSFileKindRegular pairMgr.mount).1 =
      true := pair_first.isThere
  have mode : restrictOf kRestrictW = .write := by decide
  unfold FileStream.make openNode
  rw [if_neg (by decide), if_neg (by decide), split, mode]
  simp [there, fDesc]

end Ne.Kernel.Swap
