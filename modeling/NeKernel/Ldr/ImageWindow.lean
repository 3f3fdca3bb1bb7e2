import NeKernel.Ldr.ImageCopies
import NeKernel.Ldr.PE32Lookups

/-!
# Where a PE32 image changes the translation

Nothing bounds the base that the headers of an image ask for.
-/

namespace Ne.Kernel.Ldr.PE32Loader
open ByteMem Access HAL Runs

/-- The addresses kept for images. The walk ignores the bits from 48 on. -/
def InWindow (a : UIntPtr) : Prop :=
  kPefBaseOrigin.toNat ≤ a.toNat % 2 ^ 48 ∧ a.toNat % 2 ^ 48 < kPefBaseOrigin.toNat + kPefMaxImageSz.toNat

instance (a : UIntPtr) : Decidable (InWindow a) := inferInstanceAs (Decidable (_ ∧ _))

section Image
variable (m : Memory) (blob : UIntPtr)

def imageBase : UIntPtr := LdrOptionalHeader.ImageBase.on m (blob + BitVec.ofNat 64 152)

def imageSize : Nat := (LdrOptionalHeader.SizeOfImage.on m (blob + BitVec.ofNat 64 152)).toNat

def imagePages : Nat := pageCount (imageSize m blob)

/-- There are sections, and their headers lie in the blob. -/
def TableIn (len : SizeT) : Prop :=
  1 ≤ sectionCount m blob ∧ 152 + (optionalSize m blob).toNat + sectionCount m blob * 40 ≤ len.toNat

/-- The bytes of the image that lie behind its pages do no harm. -/
def TailHarmless (root : UIntPtr) (σ : PmmState) : Prop :=
  ∀ i < imageSize m blob, (∀ j < imagePages m blob,
    pageNumber (imageBase m blob + BitVec.ofNat 64 i) ≠ pageNumber (pageAt (imageBase m blob) j)) →
    Harmless root σ (imageBase m blob + BitVec.ofNat 64 i)

/-- The size counts from the start of a page, the bytes from the base. -/
def ImageFits : Prop := (imageBase m blob).toNat % kPageSize + imageSize m blob ≤ imagePages m blob * kPageSize

instance : Decidable (ImageFits m blob) := inferInstanceAs (Decidable (_ ≤ _))

end Image

section Loading
variable {root base blob sec : UIntPtr} {m : Memory} {len : SizeT} {image : BitVec 64} {data : List UIntPtr}
  {σ : PmmState} {left : Nat}

theorem section_written {src : UIntPtr} {va raw : BitVec 64} (inv : DataInv root data σ) (start : va ≤ image)
    (lands : ∀ i < image.toNat, Lands root data σ (base + BitVec.ofNat 64 i)) :
    Written root data base image.toNat σ (rtCopyMemorySafe root m src (base + va) raw (image - va) σ).val.2 := by
  have begins := BitVec.le_def.mp start
  have room : (image - va).toNat = image.toNat - va.toNat := BitVec.toNat_sub_of_le start
  have offset : va = BitVec.ofNat 64 va.toNat := by simp
  have copied := @rtCopyMemorySafe_written root src (base + va) data m σ raw (image - va) inv fun i below => by
    rw [offset, BitVec.add_assoc, ← BitVec.ofNat_add]
    exact lands _ (by omega)
  generalize (rtCopyMemorySafe root m src (base + va) raw (image - va) σ).val.2 = τ at copied ⊢
  rw [offset] at copied
  exact copied.widen (by rw [← offset]; omega)

theorem copySections_written (inv : DataInv root data σ) (small : image.toNat < 2 ^ 32)
    (lands : ∀ i < image.toNat, Lands root data σ (base + BitVec.ofNat 64 i)) :
    ∃ υ, Written root data base image.toNat σ υ ∧
      (((∀ code, (copySections root m blob len base image left sec σ).val.1 ≠ .error code) ∧
          (copySections root m blob len base image left sec σ).val.2 = υ) ∨
        (copySections root m blob len base image left sec σ).val =
          (.error kErrorInvalidData, ldrUnmapPages root base (pageCount image.toNat) υ)) := by
  induction left generalizing sec σ with
  | zero => exact ⟨σ, .refl inv base _, .inl ⟨by simp [copySections], by simp [copySections]⟩⟩
  | succ left ih =>
      have va := LdrSectionHeader.VirtualAddress.on_lt m sec
      have raw := LdrSectionHeader.SizeOfRawData.on_lt m sec
      rw [copySections]
      simp only [Traced.val_bind, Traced.val_ite, Field.fetch_val, Traced.val_pure]
      split
      · exact ih inv lands
      split
      · exact ⟨σ, .refl inv base _, .inr rfl⟩
      rename_i inside
      obtain ⟨start, -, -⟩ := checkSection_true small va raw (by simpa using inside)
      have whole := @section_written root base m image data σ (blob + LdrSectionHeader.PointerToRawData.on m sec) _
        (LdrSectionHeader.SizeOfRawData.on m sec) inv start lands
      split
      · refine ⟨_, whole, .inl ⟨fun code same => ?_, rfl⟩⟩
        cases same
      · obtain ⟨υ, written, ends⟩ := @ih (sec + BitVec.ofNat 64 LdrSectionHeader.size) _ whole.inv
          fun i below => whole.lands (lands i below)
        exact ⟨υ, whole.trans written, ends⟩

/-- The loop over the sections of an image whose pages have their frames. -/
theorem sections_written {frames : List UIntPtr} {τ : PmmState} (inv : DataInv root data σ)
    (tail : TailHarmless m blob root σ) (length : frames.length = imagePages m blob)
    (backed : Backed root (imageBase m blob) data frames σ τ) :
    ∃ υ, Written root (frames ++ data) (imageBase m blob) (imageSize m blob) τ υ ∧
      (((∀ code, (copySections root m blob len (imageBase m blob)
            (LdrOptionalHeader.SizeOfImage.on m (blob + BitVec.ofNat 64 152)) left sec τ).val.1 ≠ .error code) ∧
          (copySections root m blob len (imageBase m blob)
            (LdrOptionalHeader.SizeOfImage.on m (blob + BitVec.ofNat 64 152)) left sec τ).val.2 = υ) ∨
        (copySections root m blob len (imageBase m blob)
            (LdrOptionalHeader.SizeOfImage.on m (blob + BitVec.ofNat 64 152)) left sec τ).val =
          (.error kErrorInvalidData, ldrUnmapPages root (imageBase m blob) (imagePages m blob) υ)) := by
  have small : imageSize m blob < 2 ^ 32 := LdrOptionalHeader.SizeOfImage.on_lt m (blob + BitVec.ofNat 64 152)
  refine copySections_written backed.inv small fun i below => ?_
  refine backed.lands fun off => (tail i below ?_).lands inv
  rwa [← length]

theorem mapImage_val (good : Accepted m blob len) (root : UIntPtr) (σ : PmmState) :
    (¬ TableIn m blob len ∧ (mapImage root m blob len σ).val = (.error kErrorInvalidData, σ)) ∨
    TableIn m blob len ∧ (mapImage root m blob len σ).val =
      if (backFrom root (imageBase m blob) (imagePages m blob) 0 σ).1 = false then
        (.error kErrorHeapOutOfMemory, (backFrom root (imageBase m blob) (imagePages m blob) 0 σ).2)
      else (copySections root m blob len (imageBase m blob)
        (LdrOptionalHeader.SizeOfImage.on m (blob + BitVec.ofNat 64 152)) (sectionCount m blob)
        (blob + BitVec.ofNat 64 152 + optionalSize m blob)
        (backFrom root (imageBase m blob) (imagePages m blob) 0 σ).2).val := by
  have narrow : (optionalSize m blob).toNat < 65536 :=
    LdrExecHeader.SizeOfOptionalHeader.on_lt m (blob + BitVec.ofNat 64 128)
  have distance : blob + BitVec.ofNat 64 152 - blob = BitVec.ofNat 64 152 := by
    rw [BitVec.add_comm, BitVec.add_sub_cancel]
  have sum : (BitVec.ofNat 64 152 + LdrExecHeader.SizeOfOptionalHeader.on m (blob + BitVec.ofNat 64 128)).toNat =
      152 + (optionalSize m blob).toNat := by
    rw [BitVec.toNat_add, BitVec.toNat_ofNat]
    exact Nat.mod_eq_of_lt (Nat.lt_trans (Nat.add_lt_add_left narrow 152) (by decide))
  unfold mapImage TableIn
  simp only [Traced.val_bind, Traced.val_ite, Traced.val_pure, Field.fetch_val, addWord_val, subWord_val,
    good.header, good.opt, if_neg good.placed, distance]
  by_cases none : LdrExecHeader.NumberOfSections.on m (blob + BitVec.ofNat 64 128) < 1
  · refine .inl ⟨fun table => ?_, if_pos none⟩
    exact absurd table.1 (by simpa [sectionCount, BitVec.lt_def] using none)
  rw [if_neg none]
  have positive : 1 ≤ sectionCount m blob := BitVec.le_def.mp (BitVec.not_lt.mp none)
  by_cases beyond : BitVec.ofNat 64 152 + LdrExecHeader.SizeOfOptionalHeader.on m (blob + BitVec.ofNat 64 128) > len
  · refine .inl ⟨fun table => ?_, if_pos beyond⟩
    have past := BitVec.lt_def.mp beyond
    omega
  rw [if_neg beyond]
  have begins := BitVec.not_lt.mp beyond
  have capacity :
      ((len - (BitVec.ofNat 64 152 + LdrExecHeader.SizeOfOptionalHeader.on m (blob + BitVec.ofNat 64 128))) /
        BitVec.ofNat 64 LdrSectionHeader.size).toNat = (len.toNat - (152 + (optionalSize m blob).toNat)) / 40 := by
    rw [BitVec.toNat_udiv, BitVec.toNat_sub_of_le begins, sum]
    rfl
  rw [BitVec.le_def, sum] at begins
  by_cases many : LdrExecHeader.NumberOfSections.on m (blob + BitVec.ofNat 64 128) >
      (len - (BitVec.ofNat 64 152 + LdrExecHeader.SizeOfOptionalHeader.on m (blob + BitVec.ofNat 64 128))) /
        BitVec.ofNat 64 LdrSectionHeader.size
  · refine .inl ⟨fun table => ?_, if_pos many⟩
    have more : _ < sectionCount m blob := BitVec.lt_def.mp many
    rw [capacity] at more
    omega
  rw [if_neg many]
  have fits : sectionCount m blob ≤ _ := BitVec.le_def.mp (BitVec.not_lt.mp many)
  rw [capacity] at fits
  exact .inr ⟨⟨positive, by omega⟩, rfl⟩

theorem imagePages_le (good : Accepted m blob len) : imagePages m blob ≤ 2 ^ 36 := by
  have limited : imageSize m blob ≤ 0x4000000 := good.limited
  unfold imagePages pageCount kPageSize
  split <;> omega

theorem ImageFits.below (fits : ImageFits m blob) {i : Nat} (inside : i < imageSize m blob) :
    ((imageBase m blob).toNat % kPageSize + i) / kPageSize < imagePages m blob := by
  unfold ImageFits at fits
  exact Nat.div_lt_of_lt_mul (by rw [Nat.mul_comm]; omega)

theorem ImageFits.tailHarmless (fits : ImageFits m blob) (root : UIntPtr) (σ : PmmState) :
    TailHarmless m blob root σ :=
  fun i below off => absurd (byte_page (imageBase m blob) i) (off _ (fits.below below))

theorem mapImage_cases (good : Accepted m blob len) (table : TableIn m blob len) (inv : DataInv root data σ)
    (tail : TailHarmless m blob root σ) :
    (SameBeside root (imageBase m blob) (imagePages m blob) σ.mem (mapImage root m blob len σ).val.2.mem ∧
      σ.kPmmFree.toNat < 4 * imagePages m blob) ∨
    ∃ frames τ υ, frames.length = imagePages m blob ∧ Backed root (imageBase m blob) data frames σ τ ∧
      Written root (frames ++ data) (imageBase m blob) (imageSize m blob) τ υ ∧
      ((mapImage root m blob len σ).val.2 = υ ∨
        (mapImage root m blob len σ).val.2 = ldrUnmapPages root (imageBase m blob) (imagePages m blob) υ) := by
  have few := imagePages_le good
  rcases mapImage_val good root σ with ⟨none, -⟩ | ⟨-, maps⟩
  · exact absurd table none
  rw [maps]
  rcases backFrom_spec few inv (imageBase m blob) with
    ⟨k, τ, le, failed, undone, scarce⟩ | ⟨frames, τ, done, length, backed, -⟩
  · rw [failed, if_pos rfl]
    exact .inl ⟨undone.beside.mono le, scarce⟩
  · rw [done, if_neg (by simp)]
    obtain ⟨υ, written, ends⟩ := @sections_written root blob (blob + BitVec.ofNat 64 152 + optionalSize m blob) m len
      data σ (sectionCount m blob) frames τ inv tail length backed
    exact .inr ⟨frames, τ, υ, length, backed, written, ends.imp And.right fun same => congrArg Prod.snd same⟩

/-- An image with one section and no content in it is mapped, and that is all. -/
theorem mapImage_empty {τ : PmmState} (good : Accepted m blob len) (table : TableIn m blob len)
    (sections : sectionCount m blob = 1)
    (empty : LdrSectionHeader.SizeOfRawData.on m (blob + BitVec.ofNat 64 152 + optionalSize m blob) = 0)
    (backed : backFrom root (imageBase m blob) (imagePages m blob) 0 σ = (true, τ)) :
    (mapImage root m blob len σ).val = (.value (imageBase m blob), τ) := by
  rcases mapImage_val good root σ with ⟨none, -⟩ | ⟨-, maps⟩
  · exact absurd table none
  · rw [maps, backed, if_neg (by simp), sections, copySections]
    simp only [Traced.val_bind, Field.fetch_val, if_pos empty, copySections, Traced.val_pure]

theorem loadImage_outcome (accepted : (make m blob len).val.fBad = false) (root : UIntPtr) (σ : PmmState) :
    (loadImage root m (make m blob len).val σ).val.1 = (mapImage root m blob len σ).val.1 ∧
      (loadImage root m (make m blob len).val σ).val.2.2 = (mapImage root m blob len σ).val.2 := by
  have good := accepted_of_make accepted
  have long := good.long
  have some : ¬ ((make m blob len).val.fBad = true ∨ blob = 0 ∨ len = 0) := by
    rw [accepted]
    rintro (bad | null | empty)
    · cases bad
    · exact good.nonnull null
    · rw [empty] at long
      exact absurd long (by decide)
  have blobIs : (make m blob len).val.fCachedBlob = blob := by
    simp only [make, Traced.val_bind, Traced.val_pure]
  have lenIs : (make m blob len).val.fCachedBlobSz = len := by
    simp only [make, Traced.val_bind, Traced.val_pure]
  have fresh : (make m blob len).val.fImage = 0 := by
    simp only [make, Traced.val_bind, Traced.val_pure]
  unfold loadImage
  rw [blobIs, lenIs, fresh, if_neg (not_not.mpr rfl), if_neg some]
  simp only [Traced.val_bind]
  cases (mapImage root m blob len σ).val with
  | mk ending τ => cases ending <;> simp

theorem loadImage_state (accepted : (make m blob len).val.fBad = false) (root : UIntPtr) (σ : PmmState) :
    (loadImage root m (make m blob len).val σ).val.2.2 = (mapImage root m blob len σ).val.2 :=
  (loadImage_outcome accepted root σ).2

end Loading

section Window
variable {root base a : UIntPtr} {σ τ : PmmState} {n : Nat}

theorem inWindow_page {b : UIntPtr} (same : pageNumber a = pageNumber b) (inside : InWindow b) : InWindow a := by
  unfold InWindow at *
  rw [kPefBaseOrigin_toNat, kPefMaxImageSz_toNat] at *
  unfold pageNumber kPageSize at same
  omega

theorem beside_window (beside : SameBeside root base n σ.mem τ.mem)
    (pages : ∀ i < n, InWindow (pageAt base i)) (outside : ¬ InWindow a) :
    viewOf τ.mem root a = viewOf σ.mem root a :=
  beside a fun i below same => outside (inWindow_page same (pages i below))

/-- The addresses outside the window show what they did before the image was loaded. -/
def KeepsOutside (m : Memory) (blob : UIntPtr) (len : SizeT) (root : UIntPtr) (σ : PmmState) : Prop :=
  ∀ a, ¬ InWindow a →
    viewOf (loadImage root m (make m blob len).val σ).val.2.2.mem root a = viewOf σ.mem root a

end Window

section Booted
variable (mem : Memory) (base : UIntPtr) (sz : SizeT) (frameCalls : List FrameCall) (r : FrameRun)
  (frames : Run (Guarded FreesHeld FrameStep) (bootFrames mem base sz) frameCalls r)
  (fuel : Nat) (limit root : UIntPtr) (σ₀ : PmmState)
  (built : mmInitKernelTables fuel limit r.state = some (root, σ₀)) (nonnull : root ≠ 0)
  (calls : List SharedCall) (σ : PmmState) (run : Run (SharedStep root) σ₀ calls σ)
include frames built nonnull run

end Booted

/-- An image of one page whose headers ask for a base far below the window. -/
def lowImage : Memory := write (fun _ => 0) imageAt (peHeaders 1 96 0x400000 0x1000)

end Ne.Kernel.Ldr.PE32Loader
