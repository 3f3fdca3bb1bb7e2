import NeKernel.Ldr.ImageWindow

/-!
# What a loaded PE32 image holds

The base, the size and the entry of an image are members of its headers that nothing compares.
-/

namespace Ne.Kernel.Ldr
open ByteMem Access HAL Runs

namespace PE32Loader

def kErrorExecutable : Int := 33

/-- `FindStart`. -/
def findStart (cr3 : UIntPtr) (m : Memory) (ldr : PE32Loader) (σ : PmmState) :
    Traced Access (Ending × PE32Loader × PmmState) := do
  let (image, ldr, τ) ← loadImage cr3 m ldr σ
  match image with
  | .fault => pure (.fault, ldr, τ)
  | .error _ => pure (.error kErrorExecutable, ldr, τ)
  | .value start =>
      if start = 0 then pure (.error kErrorExecutable, ldr, τ)
      else do
        let opt ← ldrFindOptExecHeader m ldr.fCachedBlob
        if opt = 0 then pure (.error kErrorExecutable, ldr, τ)
        else do
          let entry ← LdrOptionalHeader.AddressOfEntryPoint.fetch m opt
          if entry = 0 then pure (.error kErrorExecutable, ldr, τ)
          else do
            let base ← LdrOptionalHeader.ImageBase.fetch m opt
            pure (.value (base + entry), ldr, τ)

section Contents
variable (m : Memory) (blob : UIntPtr)

def entryPoint : BitVec 64 := LdrOptionalHeader.AddressOfEntryPoint.on m (blob + BitVec.ofNat 64 152)

def rawAddress (k : Nat) : BitVec 64 := LdrSectionHeader.VirtualAddress.on m (sectionOf m blob k)
def rawSize (k : Nat) : BitVec 64 := LdrSectionHeader.SizeOfRawData.on m (sectionOf m blob k)
def rawPointer (k : Nat) : BitVec 64 := LdrSectionHeader.PointerToRawData.on m (sectionOf m blob k)

/-- The raw data of the section covers the `i`th byte of the image. -/
def InRaw (k i : Nat) : Prop :=
  (rawAddress m blob k).toNat ≤ i ∧ i < (rawAddress m blob k).toNat + (rawSize m blob k).toNat

instance (k i : Nat) : Decidable (InRaw m blob k i) := inferInstanceAs (Decidable (_ ∧ _))

def rawByte (k i : Nat) : Byte :=
  m (blob + rawPointer m blob k + BitVec.ofNat 64 (i - (rawAddress m blob k).toNat))

/-- The byte that the last of the first `n` sections to cover it gives, of those that count. -/
def lastByte (counts : Nat → Prop) [DecidablePred counts] : Nat → Nat → Byte
  | 0, _ => 0
  | k + 1, i => if counts k ∧ InRaw m blob k i then rawByte m blob k i else lastByte counts k i

/-- The image as its headers describe it. -/
def imageByte (i : Nat) : Byte := lastByte m blob (fun _ => True) (sectionCount m blob) i

/-- `rt_copy_memory_safe` takes address zero for no address. -/
def NotNull (k : Nat) : Prop := imageBase m blob + rawAddress m blob k ≠ 0

instance : DecidablePred (NotNull m blob) := fun _ => inferInstanceAs (Decidable (_ ≠ _))

/-- The sections that would start at address zero make no difference. -/
def NullSpared : Prop := ∀ i < imageSize m blob,
  lastByte m blob (NotNull m blob) (sectionCount m blob) i = imageByte m blob i

/-- The entry, if there is one, lies in the image. -/
def EntryInside : Prop :=
  imageBase m blob ≠ 0 → entryPoint m blob ≠ 0 → (entryPoint m blob).toNat < imageSize m blob

end Contents

/-- The first `n` bytes from `base` on are shown in frames that carry data, each in a place of its own. -/
structure Placed (root base : UIntPtr) (data : List UIntPtr) (n : Nat) (σ : PmmState) : Prop where
  inv : DataInv root data σ
  lands : ∀ i < n, Lands root data σ (base + BitVec.ofNat 64 i)
  mapped : ∀ i < n, ∃ x, physOf σ.mem root (base + BitVec.ofNat 64 i) = some x
  apart : ∀ i < n, ∀ j < n, physOf σ.mem root (base + BitVec.ofNat 64 i) =
    physOf σ.mem root (base + BitVec.ofNat 64 j) → i = j

/-- The image is there as its first `k` sections make it. -/
def Holds (m : Memory) (blob root : UIntPtr) (k : Nat) (σ : PmmState) : Prop :=
  ∀ i < imageSize m blob, ∀ x, physOf σ.mem root (imageBase m blob + BitVec.ofNat 64 i) = some x →
    σ.mem x = lastByte m blob (NotNull m blob) k i

/-- The `i`th byte of the image has a frame that was not handed out before. -/
def Fresh (m : Memory) (blob root : UIntPtr) (σ τ : PmmState) (i : Nat) : Prop :=
  ∃ view, viewOf τ.mem root (imageBase m blob + BitVec.ofNat 64 i) = some view ∧ HandedOut τ view.frame ∧
    ¬ HandedOut σ view.frame

/-- Every byte of the image is in a frame of its own load, with what the headers say. -/
structure Complete (m : Memory) (blob root : UIntPtr) (σ τ : PmmState) : Prop where
  fresh : ∀ i < imageSize m blob, Fresh m blob root σ τ i
  content : ∀ i < imageSize m blob,
    (physOf τ.mem root (imageBase m blob + BitVec.ofNat 64 i)).map τ.mem = some (imageByte m blob i)

/-- What `LoadImage` and `FindStart` promise of a blob. -/
structure Promised (m : Memory) (blob : UIntPtr) (len : SizeT) (root : UIntPtr) (σ : PmmState) : Prop where
  image : ∀ start, (loadImage root m (make m blob len).val σ).val.1 = .value start →
    Complete m blob root σ (loadImage root m (make m blob len).val σ).val.2.2
  entry : ∀ start, (findStart root m (make m blob len).val σ).val.1 = .value start →
    ∃ i < imageSize m blob, start = imageBase m blob + BitVec.ofNat 64 i

section Copying
variable {root blob : UIntPtr} {m : Memory} {len : SizeT} {data : List UIntPtr} {σ τ : PmmState} {k left : Nat}

theorem Placed.written {base : UIntPtr} {n : Nat} (placed : Placed root base data n σ)
    (written : Written root data base n σ τ) : Placed root base data n τ := by
  refine ⟨written.inv, fun i below => written.lands (placed.lands i below), fun i below => ?_,
    fun i below j below' => ?_⟩
  · rw [written.physOf]
    exact placed.mapped i below
  · rw [written.physOf, written.physOf]
    exact placed.apart i below j below'

theorem Holds.keep (holds : Holds m blob root k σ) (skipped : ∀ i, ¬ (NotNull m blob k ∧ InRaw m blob k i)) :
    Holds m blob root (k + 1) σ := by
  intro i below x behind
  rw [lastByte, if_neg (skipped i)]
  exact holds i below x behind

/-- A copy of raw data puts it where the image has it, and leaves the other bytes of the image. -/
theorem Holds.copy (placed : Placed root (imageBase m blob) data (imageSize m blob) σ)
    (holds : Holds m blob root k σ) (notNull : NotNull m blob k)
    (room : (rawAddress m blob k).toNat + (rawSize m blob k).toNat ≤ imageSize m blob) :
    (copyFrom root m (rawSize m blob k).toNat (blob + rawPointer m blob k) (imageBase m blob + rawAddress m blob k)
        σ).val.1 = true ∧
      Holds m blob root (k + 1) (copyFrom root m (rawSize m blob k).toNat (blob + rawPointer m blob k)
        (imageBase m blob + rawAddress m blob k) σ).val.2 := by
  have place (j : Nat) : imageBase m blob + rawAddress m blob k + BitVec.ofNat 64 j =
      imageBase m blob + BitVec.ofNat 64 ((rawAddress m blob k).toNat + j) := by
    rw [BitVec.ofNat_add, BitVec.ofNat_toNat, BitVec.setWidth_eq, BitVec.add_assoc]
  have lands : ∀ j < (rawSize m blob k).toNat,
      Lands root data σ (imageBase m blob + rawAddress m blob k + BitVec.ofNat 64 j) := by
    intro j below
    rw [place]
    exact placed.lands _ (by omega)
  have written := @copyFrom_written root (blob + rawPointer m blob k) (imageBase m blob + rawAddress m blob k) data m σ
    (rawSize m blob k).toNat placed.inv lands
  obtain ⟨through, bytes⟩ := @copyFrom_bytes root (blob + rawPointer m blob k)
    (imageBase m blob + rawAddress m blob k) data m σ (rawSize m blob k).toNat placed.inv lands
    (fun j below => by rw [place]; exact placed.mapped _ (by omega))
    fun i below j below' same => by
      rw [place, place] at same
      have one := placed.apart _ (by omega) _ (by omega) same
      omega
  refine ⟨through, fun i below x behind => ?_⟩
  rw [written.physOf] at behind
  rw [lastByte]
  by_cases inRaw : InRaw m blob k i
  · obtain ⟨low, high⟩ := inRaw
    rw [if_pos ⟨notNull, low, high⟩]
    refine bytes (i - (rawAddress m blob k).toNat) (by omega) x ?_
    rw [place, Nat.add_sub_cancel' low]
    exact behind
  · rw [if_neg fun both => inRaw both.2, written.bytes x fun j below' same => ?_]
    · exact holds i below x behind
    · rw [place] at same
      have one := placed.apart _ (by omega) i below (same.trans behind.symm)
      exact inRaw ⟨by omega, by omega⟩

theorem rtCopyMemorySafe_null {src : UIntPtr} {size room : SizeT} :
    rtCopyMemorySafe root m src 0 size room σ = pure (true, σ) := by
  unfold rtCopyMemorySafe
  rw [if_pos (.inr (.inl rfl)), if_pos rfl]

theorem rawSource_nonnull (nonnull : blob ≠ 0) (lies : blob.toNat + len.toNat ≤ 2 ^ 64) (some : rawSize m blob k ≠ 0)
    (source : (rawPointer m blob k).toNat + (rawSize m blob k).toNat ≤ len.toNat) : blob + rawPointer m blob k ≠ 0 := by
  have start : 0 < blob.toNat := Nat.pos_of_ne_zero fun zero => nonnull (BitVec.eq_of_toNat_eq zero)
  have content : 0 < (rawSize m blob k).toNat := Nat.pos_of_ne_zero fun zero => some (BitVec.eq_of_toNat_eq zero)
  intro null
  have address := congrArg BitVec.toNat null
  rw [BitVec.toNat_add, Nat.mod_eq_of_lt (by omega)] at address
  have zero : (0 : UIntPtr).toNat = 0 := rfl
  omega

theorem sectionOf_next (m : Memory) (blob : UIntPtr) (k : Nat) :
    sectionOf m blob k + BitVec.ofNat 64 LdrSectionHeader.size = sectionOf m blob (k + 1) := by
  unfold sectionOf sectionAt
  rw [Nat.add_mul, Nat.one_mul, BitVec.ofNat_add, BitVec.add_assoc]

theorem copySections_base {base sec ptr : UIntPtr} {image : BitVec 64}
    (done : (copySections root m blob len base image left sec σ).val.1 = .value ptr) : ptr = base := by
  induction left generalizing sec σ with
  | zero =>
      rw [copySections, Traced.val_pure] at done
      cases done
      rfl
  | succ left ih =>
      rw [copySections] at done
      simp only [Traced.val_bind, Traced.val_ite, Field.fetch_val, Traced.val_pure] at done
      split at done
      · exact ih done
      split at done
      · cases done
      split at done
      · cases done
      · exact ih done

theorem copySections_holds {ptr : UIntPtr} (nonnull : blob ≠ 0) (lies : blob.toNat + len.toNat ≤ 2 ^ 64)
    (placed : Placed root (imageBase m blob) data (imageSize m blob) σ) (holds : Holds m blob root k σ)
    (done : (copySections root m blob len (imageBase m blob)
      (LdrOptionalHeader.SizeOfImage.on m (blob + BitVec.ofNat 64 152)) left (sectionOf m blob k) σ).val.1 =
        .value ptr) :
    Holds m blob root (k + left) (copySections root m blob len (imageBase m blob)
      (LdrOptionalHeader.SizeOfImage.on m (blob + BitVec.ofNat 64 152)) left (sectionOf m blob k) σ).val.2 := by
  induction left generalizing k σ with
  | zero =>
      rw [copySections, Traced.val_pure]
      exact holds
  | succ left ih =>
      have small : (LdrOptionalHeader.SizeOfImage.on m (blob + BitVec.ofNat 64 152)).toNat < 2 ^ 32 :=
        LdrOptionalHeader.SizeOfImage.on_lt m (blob + BitVec.ofNat 64 152)
      have va : (rawAddress m blob k).toNat < 2 ^ 32 :=
        LdrSectionHeader.VirtualAddress.on_lt m (sectionOf m blob k)
      have raw : (rawSize m blob k).toNat < 2 ^ 32 := LdrSectionHeader.SizeOfRawData.on_lt m (sectionOf m blob k)
      have later : k + (left + 1) = k + 1 + left := by omega
      rw [copySections] at done ⊢
      simp only [Traced.val_bind, Traced.val_ite, Field.fetch_val, sectionOf_next] at done ⊢
      rw [later]
      by_cases empty : LdrSectionHeader.SizeOfRawData.on m (sectionOf m blob k) = 0
      · rw [if_pos empty] at done ⊢
        refine ih placed (holds.keep fun i both => ?_) done
        obtain ⟨-, low, high⟩ := both
        rw [show rawSize m blob k = 0 from empty] at high
        exact absurd high (Nat.not_lt.mpr low)
      rw [if_neg empty] at done ⊢
      by_cases refused : (checkSection len (LdrOptionalHeader.SizeOfImage.on m (blob + BitVec.ofNat 64 152))
          (LdrSectionHeader.VirtualAddress.on m (sectionOf m blob k))
          (LdrSectionHeader.SizeOfRawData.on m (sectionOf m blob k))
          (LdrSectionHeader.PointerToRawData.on m (sectionOf m blob k))).val = false
      · rw [if_pos refused] at done
        cases done
      rw [if_neg refused] at done ⊢
      obtain ⟨start, room, source⟩ := checkSection_true small va raw (eq_true_of_ne_false refused)
      have written := @section_written root (imageBase m blob) m _ data σ (blob + rawPointer m blob k)
        (rawAddress m blob k) (rawSize m blob k) placed.inv start placed.lands
      by_cases null : imageBase m blob + rawAddress m blob k = 0
      · have skips : rtCopyMemorySafe root m (blob + rawPointer m blob k) (imageBase m blob + rawAddress m blob k)
            (rawSize m blob k) (LdrOptionalHeader.SizeOfImage.on m (blob + BitVec.ofNat 64 152) - rawAddress m blob k)
            σ = pure (true, σ) := by
          rw [null]
          exact rtCopyMemorySafe_null
        unfold rawAddress rawSize rawPointer at skips
        simp only [skips, Traced.val_pure, Bool.true_eq_false, if_false] at done ⊢
        exact ih placed (holds.keep fun i both => both.1 null) done
      · have copies : rtCopyMemorySafe root m (blob + rawPointer m blob k) (imageBase m blob + rawAddress m blob k)
            (rawSize m blob k) (LdrOptionalHeader.SizeOfImage.on m (blob + BitVec.ofNat 64 152) - rawAddress m blob k)
            σ = _ := rtCopyMemorySafe_copies (rawSource_nonnull nonnull lies empty source) null (by
          rw [BitVec.toNat_sub_of_le start]
          exact Nat.le_sub_of_add_le' room)
        obtain ⟨through, holds'⟩ := holds.copy placed null room
        rw [copies] at written
        unfold rawAddress rawSize rawPointer at copies through holds' written
        simp only [copies, through, Bool.true_eq_false, if_false] at done ⊢
        exact ih (placed.written written) holds' done

end Copying

section Loading
variable {root blob ptr : UIntPtr} {m : Memory} {len : SizeT} {data frames : List UIntPtr} {σ τ : PmmState}

theorem placed_of_backed (backed : Backed root (imageBase m blob) data frames σ τ)
    (length : frames.length = imagePages m blob) (fits : ImageFits m blob) :
    Placed root (imageBase m blob) (frames ++ data) (imageSize m blob) τ := by
  have onPage {i : Nat} (below : i < imageSize m blob) :
      ((imageBase m blob).toNat % kPageSize + i) / kPageSize < frames.length := length ▸ fits.below below
  refine ⟨backed.inv, fun i below => ?_, fun i below => ?_, fun i below j below' same => ?_⟩
  · exact backed.lands fun off => absurd (byte_page (imageBase m blob) i) (off _ (onPage below))
  · exact ⟨_, (backed.byte (onPage below)).choose_spec.2.2⟩
  · exact backed.byte_inj (onPage below) (onPage below') same

theorem mapImage_value (good : Accepted m blob len) (inv : DataInv root data σ)
    (done : (mapImage root m blob len σ).val.1 = .value ptr) :
    ∃ frames τ, frames.length = imagePages m blob ∧ Backed root (imageBase m blob) data frames σ τ ∧
      (mapImage root m blob len σ).val = (copySections root m blob len (imageBase m blob)
        (LdrOptionalHeader.SizeOfImage.on m (blob + BitVec.ofNat 64 152)) (sectionCount m blob) (sectionOf m blob 0)
        τ).val := by
  have first : blob + BitVec.ofNat 64 152 + optionalSize m blob = sectionOf m blob 0 := by
    unfold sectionOf sectionAt
    rw [Nat.zero_mul, BitVec.add_zero]
  rcases mapImage_val good root σ with ⟨-, same⟩ | ⟨-, maps⟩
  · rw [same] at done
    cases done
  rcases backFrom_spec (imagePages_le good) inv (imageBase m blob) with
    ⟨k, τ, -, failed, -, -⟩ | ⟨frames, τ, backs, length, backed, -⟩
  · rw [maps, failed, if_pos rfl] at done
    cases done
  · rw [backs, if_neg (by simp), first] at maps
    exact ⟨frames, τ, length, backed, maps⟩

theorem mapImage_written (good : Accepted m blob len) (inv : DataInv root data σ) (tail : TailHarmless m blob root σ)
    (done : (mapImage root m blob len σ).val.1 = .value ptr) :
    ∃ frames τ, frames.length = imagePages m blob ∧ Backed root (imageBase m blob) data frames σ τ ∧
      Written root (frames ++ data) (imageBase m blob) (imageSize m blob) τ (mapImage root m blob len σ).val.2 := by
  obtain ⟨frames, τ, length, backed, same⟩ := mapImage_value good inv done
  obtain ⟨υ, written, ⟨-, state⟩ | undone⟩ := @sections_written root blob (sectionOf m blob 0) m len data σ
    (sectionCount m blob) frames τ inv tail length backed
  · rw [same, state]
    exact ⟨frames, τ, length, backed, written⟩
  · rw [same, undone] at done
    cases done

theorem mapImage_holds (good : Accepted m blob len) (lies : blob.toNat + len.toNat ≤ 2 ^ 64)
    (inv : DataInv root data σ) (fits : ImageFits m blob) (done : (mapImage root m blob len σ).val.1 = .value ptr) :
    Holds m blob root (sectionCount m blob) (mapImage root m blob len σ).val.2 := by
  obtain ⟨frames, τ, length, backed, same⟩ := mapImage_value good inv done
  have zeroed : Holds m blob root 0 τ := by
    intro i below x behind
    obtain ⟨f, member, -, found⟩ := backed.byte (length ▸ fits.below below)
    obtain rfl := Option.some.inj (found.symm.trans behind)
    exact backed.zeroed f member _ (within_frame f _)
  rw [same] at done ⊢
  have copied := copySections_holds good.nonnull lies (placed_of_backed backed length fits) zeroed done
  rwa [Nat.zero_add] at copied

theorem imageFits_of_fresh (good : Accepted m blob len) (inv : DataInv root data σ) (tail : TailHarmless m blob root σ)
    (done : (mapImage root m blob len σ).val.1 = .value ptr)
    (fresh : ∀ i < imageSize m blob, Fresh m blob root σ (mapImage root m blob len σ).val.2 i) :
    ImageFits m blob := by
  have positive : 1 ≤ imageSize m blob := good.some
  have limited : imageSize m blob ≤ 0x4000000 := good.limited
  have few := imagePages_le good
  obtain ⟨frames, τ, length, backed, written⟩ := mapImage_written good inv tail done
  by_contra beyond
  unfold ImageFits at beyond
  have page := byte_page (imageBase m blob) (imageSize m blob - 1)
  have behind : imagePages m blob ≤
      ((imageBase m blob).toNat % kPageSize + (imageSize m blob - 1)) / kPageSize := by
    unfold kPageSize at *
    omega
  have small : ((imageBase m blob).toNat % kPageSize + (imageSize m blob - 1)) / kPageSize < 2 ^ 36 := by
    unfold kPageSize
    omega
  have off : ∀ j < imagePages m blob, pageNumber (imageBase m blob + BitVec.ofNat 64 (imageSize m blob - 1)) ≠
      pageNumber (pageAt (imageBase m blob) j) :=
    fun j below same => pageAt_apart small (by omega) (by omega) (page.symm.trans same)
  obtain ⟨view, seen, handed, new⟩ := fresh (imageSize m blob - 1) (by omega)
  rw [written.views, backed.beside _ fun j below => off j (length ▸ below)] at seen
  obtain ⟨total, tables, free, owners⟩ := written.inv
  have there := owners.owned.inRegion handed.1 (within_self (by decide))
  have region := (backed.spares.inRegion _).mp ((written.tables.inRegion _).mp there)
  exact new (tail _ (by omega) off view seen region).1

theorem fresh_of_imageFits (good : Accepted m blob len) (inv : DataInv root data σ) (fits : ImageFits m blob)
    (done : (mapImage root m blob len σ).val.1 = .value ptr) {i : Nat} (below : i < imageSize m blob) :
    Fresh m blob root σ (mapImage root m blob len σ).val.2 i := by
  obtain ⟨frames, τ, length, backed, written⟩ := mapImage_written good inv (fits.tailHarmless root σ) done
  obtain ⟨view, seen, member⟩ := backed.view (length ▸ fits.below below) (byte_page (imageBase m blob) i)
  refine ⟨view, (written.views _).trans seen, ?_, (backed.fresh inv member).2⟩
  exact written.inv.isTable_or.mpr (.inr (List.mem_append_left _ member))

theorem mapImage_complete_iff (good : Accepted m blob len) (lies : blob.toNat + len.toNat ≤ 2 ^ 64)
    (inv : DataInv root data σ) (fits : ImageFits m blob) (done : (mapImage root m blob len σ).val.1 = .value ptr) :
    Complete m blob root σ (mapImage root m blob len σ).val.2 ↔ NullSpared m blob := by
  have holds := mapImage_holds good lies inv fits done
  have shown (i : Nat) (below : i < imageSize m blob) :
      (physOf (mapImage root m blob len σ).val.2.mem root (imageBase m blob + BitVec.ofNat 64 i)).map
        (mapImage root m blob len σ).val.2.mem =
      some (lastByte m blob (NotNull m blob) (sectionCount m blob) i) := by
    obtain ⟨view, seen, -⟩ := fresh_of_imageFits good inv fits done below
    have behind := physOf_of_view seen
    rw [behind, Option.map_some, holds i below _ behind]
  constructor
  · intro complete i below
    exact Option.some.inj ((shown i below).symm.trans (complete.content i below))
  · intro spared
    refine ⟨fun i below => fresh_of_imageFits good inv fits done below, fun i below => ?_⟩
    rw [shown i below, spared i below]

theorem mapImage_base (good : Accepted m blob len) (inv : DataInv root data σ)
    (done : (mapImage root m blob len σ).val.1 = .value ptr) : ptr = imageBase m blob := by
  obtain ⟨frames, τ, -, -, same⟩ := mapImage_value good inv done
  rw [same] at done
  exact copySections_base done

theorem loadImage_blob (m : Memory) (blob : UIntPtr) (len : SizeT) (root : UIntPtr) (σ : PmmState) :
    (loadImage root m (make m blob len).val σ).val.2.1.fCachedBlob = blob := by
  have blobIs : (make m blob len).val.fCachedBlob = blob := by
    simp only [make, Traced.val_bind, Traced.val_pure]
  unfold loadImage
  simp only [Traced.val_ite, Traced.val_bind, Traced.val_pure]
  split
  · exact blobIs
  split
  · exact blobIs
  cases (mapImage root m (make m blob len).val.fCachedBlob (make m blob len).val.fCachedBlobSz σ).val.1 <;>
    simpa using blobIs

theorem findStart_value (good : Accepted m blob len) :
    (findStart root m (make m blob len).val σ).val.1 =
      match (loadImage root m (make m blob len).val σ).val.1 with
      | .fault => .fault
      | .error _ => .error kErrorExecutable
      | .value start => if start = 0 ∨ entryPoint m blob = 0 then .error kErrorExecutable
          else .value (imageBase m blob + entryPoint m blob) := by
  have blobIs := loadImage_blob m blob len root σ
  have placed : blob + BitVec.ofNat 64 152 ≠ 0 := fun null => good.placed (.inr null)
  unfold findStart
  rw [Traced.val_bind]
  cases loaded : (loadImage root m (make m blob len).val σ).val with
  | mk image rest =>
      obtain ⟨ldr, τ⟩ := rest
      rw [loaded] at blobIs
      dsimp only at blobIs ⊢
      cases image with
      | fault => rfl
      | error code => rfl
      | value start =>
          simp only [Traced.val_ite, Traced.val_bind, Traced.val_pure, Field.fetch_val, blobIs, good.opt,
            if_neg placed]
          by_cases null : start = 0
          · rw [if_pos null, if_pos (.inl null)]
          rw [if_neg null]
          by_cases none : entryPoint m blob = 0
          · rw [if_pos (show LdrOptionalHeader.AddressOfEntryPoint.on m _ = 0 from none), if_pos (.inr none)]
          · rw [if_neg (show ¬ LdrOptionalHeader.AddressOfEntryPoint.on m _ = 0 from none),
              if_neg (not_or.mpr ⟨null, none⟩)]
            rfl

theorem entry_in_image (m : Memory) (blob : UIntPtr) : (∃ i < imageSize m blob,
    imageBase m blob + entryPoint m blob = imageBase m blob + BitVec.ofNat 64 i) ↔
      (entryPoint m blob).toNat < imageSize m blob := by
  have small : imageSize m blob < 2 ^ 32 := LdrOptionalHeader.SizeOfImage.on_lt m (blob + BitVec.ofNat 64 152)
  constructor
  · rintro ⟨i, below, same⟩
    rw [(BitVec.add_right_inj _).mp same, BitVec.toNat_ofNat, Nat.mod_eq_of_lt (by omega)]
    exact below
  · intro below
    exact ⟨_, below, by rw [BitVec.ofNat_toNat, BitVec.setWidth_eq]⟩

theorem promised_of (accepted : (make m blob len).val.fBad = false) (lies : blob.toNat + len.toNat ≤ 2 ^ 64)
    (inv : DataInv root data σ) (fits : ImageFits m blob) (spared : NullSpared m blob) (inside : EntryInside m blob) :
    Promised m blob len root σ := by
  have good := accepted_of_make accepted
  obtain ⟨ending, state⟩ := loadImage_outcome accepted root σ
  constructor
  · intro start done
    rw [ending] at done
    rw [state]
    exact (mapImage_complete_iff good lies inv fits done).mpr spared
  · intro start done
    rw [findStart_value good, ending] at done
    cases loaded : (mapImage root m blob len σ).val.1 with
    | fault =>
        rw [loaded] at done
        cases done
    | error code =>
        rw [loaded] at done
        cases done
    | value base =>
        obtain rfl := mapImage_base good inv loaded
        rw [loaded] at done
        dsimp only at done
        by_cases none : imageBase m blob = 0 ∨ entryPoint m blob = 0
        · rw [if_pos none] at done
          cases done
        · rw [if_neg none] at done
          cases done
          obtain ⟨placed, entry⟩ := not_or.mp none
          exact (entry_in_image m blob).mpr (inside placed entry)

theorem of_promised {start : UIntPtr} (accepted : (make m blob len).val.fBad = false)
    (lies : blob.toNat + len.toNat ≤ 2 ^ 64) (inv : DataInv root data σ) (tail : TailHarmless m blob root σ)
    (done : (loadImage root m (make m blob len).val σ).val.1 = .value start) (promised : Promised m blob len root σ) :
    ImageFits m blob ∧ NullSpared m blob ∧ EntryInside m blob := by
  have good := accepted_of_make accepted
  obtain ⟨ending, state⟩ := loadImage_outcome accepted root σ
  have complete := promised.image start done
  rw [state] at complete
  have started := promised.entry (imageBase m blob + entryPoint m blob)
  rw [findStart_value good] at started
  rw [ending] at done started
  have fits := imageFits_of_fresh good inv tail done complete.fresh
  refine ⟨fits, (mapImage_complete_iff good lies inv fits done).mp complete, fun placed entry => ?_⟩
  rw [← entry_in_image]
  refine started ?_
  obtain rfl := mapImage_base good inv done
  rw [done]
  exact if_neg (not_or.mpr ⟨placed, entry⟩)

end Loading

section Booted
variable (mem : Memory) (base : UIntPtr) (sz : SizeT) (frameCalls : List FrameCall) (r : FrameRun)
  (frames : Run (Guarded FreesHeld FrameStep) (bootFrames mem base sz) frameCalls r)
  (fuel : Nat) (limit root : UIntPtr) (σ₀ : PmmState)
  (built : mmInitKernelTables fuel limit r.state = some (root, σ₀)) (nonnull : root ≠ 0)
  (calls : List SharedCall) (σ : PmmState) (run : Run (SharedStep root) σ₀ calls σ)
include frames built nonnull run

end Booted

theorem nullSpared_of_notNull {m : Memory} {blob : UIntPtr} (none : ∀ k < sectionCount m blob, NotNull m blob k) :
    NullSpared m blob := by
  intro i _
  unfold imageByte
  generalize sectionCount m blob = count at none
  induction count with
  | zero => rfl
  | succ k ih =>
      rw [lastByte, lastByte, ih fun j below => none j (by omega)]
      exact if_congr (by simp [none k (by omega)]) rfl rfl

/-- The image of one page, whose entry is four pages behind it. -/
def entryBlob : Memory := write imageBlob (imageAt + 168) [0, 0x50]

end PE32Loader

end Ne.Kernel.Ldr
