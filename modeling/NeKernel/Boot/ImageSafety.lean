import NeKernel.Boot.BootThread

/-!
# What loading an image touches

The headers, names and sizes of a file are taken as they are, so the loader stays in the blob and in
the window it claimed exactly when they do.
-/

namespace Ne.Kernel.Boot
open ByteMem Access Ldr

/-- Reads in the blob and writes in the window. -/
def Inside (blob : UIntPtr) (len : Nat) (base : UIntPtr) (size : Nat) (e : Access) : Prop :=
  ReadsIn blob len e ∧ WritesIn base size e

/-- A section counts as code by its name. -/
def IsCode (m : Memory) (sec : UIntPtr) : Prop := (strcmp m sectionForCode sec).val = 0

/-- A section counts as a handover header by its name. -/
def IsHandover (m : Memory) (sec : UIntPtr) : Prop :=
  ¬ IsCode m sec ∧ ((strcmp m sectionForBootZ sec).val = 0 ∨ (strcmp m sectionForBootZAlt sec).val = 0)

/-- Where a section's content lies in the blob. -/
def contentOf (m : Memory) (blob sec : UIntPtr) : UIntPtr := blob + LdrSectionHeader.PointerToRawData.on m sec

/-- The loader stops at a section. -/
def Stops (m : Memory) (blob sec : UIntPtr) : Prop :=
  IsHandover m sec ∧ HandoverMagic.on m (contentOf m blob sec) ≠ kHandoverMagic

instance (m : Memory) (sec : UIntPtr) : Decidable (IsCode m sec) := inferInstanceAs (Decidable (_ = _))
instance (m : Memory) (sec : UIntPtr) : Decidable (IsHandover m sec) := inferInstanceAs (Decidable (_ ∧ _))
instance (m : Memory) (blob sec : UIntPtr) : Decidable (Stops m blob sec) := inferInstanceAs (Decidable (_ ∧ _))

def rawSize (m : Memory) (sec : UIntPtr) : Nat := (LdrSectionHeader.SizeOfRawData.on m sec).toNat

def placeSize (m : Memory) (sec : UIntPtr) : Nat :=
  (sectionSize (LdrSectionHeader.SizeOfRawData.on m sec) (LdrSectionHeader.VirtualSize.on m sec)).toNat

/-- A section's place lies in a window of `size` bytes, with four bytes for each one that the header
counts. -/
def TargetIn (m : Memory) (size : Nat) (sec : UIntPtr) : Prop :=
  placeSize m sec * 4 = 0 ∨ (LdrSectionHeader.VirtualAddress.on m sec).toNat + placeSize m sec * 4 ≤ size

/-- A section's content lies in a blob of `len` bytes, with four bytes for each one that the header counts. -/
def SourceIn (m : Memory) (len : Nat) (sec : UIntPtr) : Prop :=
  rawSize m sec * 4 = 0 ∨ (LdrSectionHeader.PointerToRawData.on m sec).toNat + rawSize m sec * 4 ≤ len

/-- What is looked at of a handover header. -/
def HandoverIn (m : Memory) (blob : UIntPtr) (len : Nat) (sec : UIntPtr) : Prop :=
  IsHandover m sec → (LdrSectionHeader.PointerToRawData.on m sec).toNat + 8 ≤ len ∧
    (HandoverMagic.on m (contentOf m blob sec) ≠ kHandoverMagic →
      (LdrSectionHeader.PointerToRawData.on m sec).toNat + 20 ≤ len)

/-- What one turn goes through, when the section's header is at `off` in the blob. -/
structure SectionIn (debug : Bool) (m : Memory) (blob : UIntPtr) (len size off : Nat) (sec : UIntPtr) : Prop where
  header : off + 24 ≤ len
  target : TargetIn m size sec
  source : SourceIn m len sec
  handover : HandoverIn m blob len sec
  printed : ¬ Stops m blob sec → debug = true → StringIn m blob len sec

section Loops
variable {P : Access → Prop} {m m' : Memory} {a base blob dst src : UIntPtr} {text : List Byte} {len size n : Nat}

@[simp] theorem inside_read : Inside blob len base size (.read a n) ↔ Covers blob len a n := by
  simp [Inside]

theorem memset_inside : Traced.Only (Inside blob len base size) (memset dst 0 n m) ↔
    Covers base size dst (n * 4) := by
  unfold memset Inside
  rw [Traced.only_and, fillWords_writes, leBytes_length]
  exact and_iff_right fillWords_reads

theorem memcpy_inside : Traced.Only (Inside blob len base size) (memcpy dst src n m) ↔
    Covers blob len src (n * 4) ∧ Covers base size dst (n * 4) := by
  unfold memcpy Inside
  rw [Traced.only_and, copyWords_reads, copyWords_writes]

theorem strcmpFrom_only {i : Nat} (inside : ∀ k ≤ text.length, P (.read (a + BitVec.ofNat 64 k) 1)) :
    Traced.Only P (strcmpFrom m text a i) := by
  have first : P (.read a 1) := by simpa using inside 0 (Nat.zero_le _)
  induction text generalizing a i with
  | nil => simpa [strcmpFrom] using first
  | cons left rest ih =>
      have later (k : Nat) (le : k ≤ rest.length) : P (.read (a + 1 + BitVec.ofNat 64 k) 1) := by
        have next := inside (k + 1) (Nat.succ_le_succ le)
        rwa [Nat.add_comm, BitVec.ofNat_add, ← BitVec.add_assoc] at next
      rw [strcmpFrom]
      simp only [Traced.only_bind, Traced.only_ite, Traced.only_pure, only_fetchByte, implies_true, and_true]
      exact ⟨first, fun _ => ih later (by simpa using later 0 (Nat.zero_le _))⟩

theorem strcmpFrom_congr {i : Nat}
    (same : ∀ k ≤ text.length, m' (a + BitVec.ofNat 64 k) = m (a + BitVec.ofNat 64 k)) :
    (strcmpFrom m' text a i).val = (strcmpFrom m text a i).val := by
  have first : m' a = m a := by simpa using same 0 (Nat.zero_le _)
  induction text generalizing a i with
  | nil => simp only [strcmpFrom, Traced.val_bind, Traced.val_pure, fetchByte_val, first]
  | cons left rest ih =>
      have later (k : Nat) (le : k ≤ rest.length) :
          m' (a + 1 + BitVec.ofNat 64 k) = m (a + 1 + BitVec.ofNat 64 k) := by
        have next := same (k + 1) (Nat.succ_le_succ le)
        rwa [Nat.add_comm, BitVec.ofNat_add, ← BitVec.add_assoc] at next
      simp only [strcmpFrom, Traced.val_bind, Traced.val_ite, Traced.val_pure, fetchByte_val, first,
        ih later (by simpa using later 0 (Nat.zero_le _))]

end Loops

section Phases
variable {P : Access → Prop} {m : Memory} {blob base opt sec start : UIntPtr} {build : Build} {len size : Nat}

theorem inspectSection_only : Traced.Only P (inspectSection m blob base opt sec start) ↔
    Traced.Only P (strcmp m sectionForCode sec) ∧
    (IsCode m sec → P (.read (opt + BitVec.ofNat 64 16) 4)) ∧
    (¬ IsCode m sec → Traced.Only P (strcmp m sectionForBootZ sec) ∧
      ((strcmp m sectionForBootZ sec).val ≠ 0 → Traced.Only P (strcmp m sectionForBootZAlt sec))) ∧
    (IsHandover m sec → P (.read (sec + BitVec.ofNat 64 20) 4) ∧
      P (.read (contentOf m blob sec + BitVec.ofNat 64 0) 8) ∧
      (HandoverMagic.on m (contentOf m blob sec) ≠ kHandoverMagic →
        P (.read (contentOf m blob sec + BitVec.ofNat 64 16) 4))) := by
  unfold inspectSection IsHandover IsCode contentOf
  simp only [Traced.only_bind, Traced.only_ite, Traced.only_pure, Traced.val_pure, Field.only_fetch, Field.fetch_val,
    implies_true, true_and, and_true]
  by_cases code : (strcmp m sectionForCode sec).val = 0
  · simp [code, LdrOptionalHeader.AddressOfEntryPoint]
  · by_cases bootZ : (strcmp m sectionForBootZ sec).val = 0
    · simp [code, bootZ, LdrSectionHeader.PointerToRawData, HandoverMagic, HandoverArch]
    · by_cases alt : (strcmp m sectionForBootZAlt sec).val = 0
      · simp [code, bootZ, alt, LdrSectionHeader.PointerToRawData, HandoverMagic, HandoverArch, and_assoc]
      · simp [code, bootZ, alt]

theorem inspectSection_none : (inspectSection m blob base opt sec start).val = none ↔ Stops m blob sec := by
  unfold inspectSection Stops IsHandover IsCode contentOf
  simp only [Traced.val_bind, Traced.val_ite, Traced.val_pure, Field.fetch_val]
  by_cases code : (strcmp m sectionForCode sec).val = 0
  · simp [code]
  · by_cases bootZ : (strcmp m sectionForBootZ sec).val = 0
    · simp [code, bootZ]
    · by_cases alt : (strcmp m sectionForBootZAlt sec).val = 0
      · simp [code, bootZ, alt]
      · simp [code, bootZ, alt]

theorem printSection_inside {sec : UIntPtr} (fits : len < 2 ^ 64) :
    Traced.Only (Inside blob len base size) (printSection build m sec) ↔
      Covers blob len (sec + BitVec.ofNat 64 20) 4 ∧ (build.debug = true → StringIn m blob len sec) := by
  unfold printSection strLenAt StringIn
  simp only [Traced.only_bind, Traced.only_ite, Traced.only_pure, Traced.only_emit, Field.only_fetch, inside_read,
    covers_strLen fits, implies_true, and_true, true_and, ne_eq]
  exact Iff.rfl

theorem loadSection_only : Traced.Only P (loadSection build blob base opt sec start m) ↔
    Traced.Only P (clearSection m base sec) ∧
    Traced.Only P (copyContent (clearSection m base sec).val blob base sec) ∧
    Traced.Only P (inspectSection (copyContent (clearSection m base sec).val blob base sec).val
      blob base opt sec start) ∧
    (¬ Stops (copyContent (clearSection m base sec).val blob base sec).val blob sec →
      Traced.Only P (printSection build (copyContent (clearSection m base sec).val blob base sec).val sec) ∧
      Traced.Only P (copySection (copyContent (clearSection m base sec).val blob base sec).val blob base sec)) := by
  generalize copied : (copyContent (clearSection m base sec).val blob base sec).val = k
  unfold loadSection
  simp only [Traced.only_bind, copied]
  refine and_congr_right fun _ => and_congr_right fun _ => and_congr_right fun _ => ?_
  have stops := @inspectSection_none k blob base opt sec start
  cases next : (inspectSection k blob base opt sec start).val with
  | none => exact iff_of_true Traced.only_pure fun runs => absurd (stops.mp next) runs
  | some next' =>
      rw [next] at stops
      have runs : ¬ Stops k blob sec := by
        intro stop
        cases stops.mpr stop
      simp only [Traced.only_bind, Traced.only_pure, and_true]
      exact (imp_iff_right runs).symm

theorem loadSection_val {copied : Memory}
    (content : (copyContent (clearSection m base sec).val blob base sec).val = copied) :
    (loadSection build blob base opt sec start m).val =
      if Stops copied blob sec then (none, copied)
      else ((inspectSection copied blob base opt sec start).val, (copySection copied blob base sec).val) := by
  have stops := @inspectSection_none copied blob base opt sec start
  unfold loadSection
  simp only [Traced.val_bind, content]
  cases next : (inspectSection copied blob base opt sec start).val with
  | none => rw [if_pos (stops.mp next), Traced.val_pure]
  | some next' =>
      rw [next] at stops
      have runs : ¬ Stops copied blob sec := fun stop => nomatch stops.mpr stop
      rw [if_neg runs]
      simp only [Traced.val_bind, Traced.val_pure]

end Phases

/-! ## One section

The memory `m` that a turn finds holds the blob as it was in `m₀`. -/

section Turn
variable {m₀ m : Memory} {blob base opt start : UIntPtr} {build : Build} {len size off : Nat}
  (fits : len < 2 ^ 64) (narrow : off < 2 ^ 32)

include fits narrow in
theorem member_inside {k n : Nat} (small : k < 2 ^ 32) (positive : 0 < n) :
    Covers blob len (blob + BitVec.ofNat 64 off + BitVec.ofNat 64 k) n ↔ off + k + n ≤ len := by
  rw [BitVec.add_assoc, ← BitVec.ofNat_add]
  exact covers_offset_iff fits positive (by omega)

section Kept
variable (same : SameInside blob len m₀ m) (header : off + 24 ≤ len)
include same header

theorem field_kept (f : Field) (low : f.off + f.size ≤ 24) :
    f.on m (blob + BitVec.ofNat 64 off) = f.on m₀ (blob + BitVec.ofNat 64 off) := by
  apply same.field
  rw [BitVec.add_assoc, ← BitVec.ofNat_add]
  exact covers_offset (by omega)

theorem strcmp_kept {text : List Byte} (short : text.length < 24) :
    (strcmp m text (blob + BitVec.ofNat 64 off)).val = (strcmp m₀ text (blob + BitVec.ofNat 64 off)).val := by
  apply strcmpFrom_congr
  intro k le
  rw [BitVec.add_assoc, ← BitVec.ofNat_add]
  exact same _ (covers_offset (n := 1) (by omega) _ (within_self (by omega)))

theorem isHandover_kept : IsHandover m (blob + BitVec.ofNat 64 off) ↔ IsHandover m₀ (blob + BitVec.ofNat 64 off) := by
  unfold IsHandover IsCode
  rw [strcmp_kept same header (by decide), strcmp_kept same header (by decide), strcmp_kept same header (by decide)]

theorem contentOf_kept :
    contentOf m blob (blob + BitVec.ofNat 64 off) = contentOf m₀ blob (blob + BitVec.ofNat 64 off) := by
  rw [contentOf, contentOf, field_kept same header _ (by decide)]

theorem placeSize_kept : placeSize m (blob + BitVec.ofNat 64 off) = placeSize m₀ (blob + BitVec.ofNat 64 off) := by
  rw [placeSize, placeSize, field_kept same header _ (by decide), field_kept same header _ (by decide)]

end Kept

section Steps
variable (same : SameInside blob len m₀ m) (header : off + 24 ≤ len)

include fits narrow same header in
theorem clearSection_inside (region : size < 2 ^ 64) :
    Traced.Only (Inside blob len base size) (clearSection m base (blob + BitVec.ofNat 64 off)) ↔
      TargetIn m₀ size (blob + BitVec.ofNat 64 off) := by
  have member (k : Nat) (low : k + 4 ≤ 24) := (@member_inside blob _ _ fits narrow k 4 (by omega)
    (by omega)).mpr (by omega)
  unfold clearSection
  simp only [Traced.only_bind, Field.only_fetch, Field.fetch_val, inside_read, memset_inside, covers_fits region]
  have place := placeSize_kept same header
  rw [placeSize] at place
  rw [place, field_kept same header LdrSectionHeader.VirtualAddress (by decide)]
  exact ⟨fun inside => inside.2.2.2, fun target => ⟨member 8 (by decide), member 16 (by decide), member 12 (by decide),
    target⟩⟩

include fits narrow same header in
theorem copySection_inside (region : size < 2 ^ 64) :
    Traced.Only (Inside blob len base size) (copySection m blob base (blob + BitVec.ofNat 64 off)) ↔
      SourceIn m₀ len (blob + BitVec.ofNat 64 off) ∧
      (rawSize m₀ (blob + BitVec.ofNat 64 off) * 4 = 0 ∨
        (LdrSectionHeader.VirtualAddress.on m₀ (blob + BitVec.ofNat 64 off)).toNat +
          rawSize m₀ (blob + BitVec.ofNat 64 off) * 4 ≤ size) := by
  have member (k : Nat) (low : k + 4 ≤ 24) := (@member_inside blob _ _ fits narrow k 4 (by omega)
    (by omega)).mpr (by omega)
  unfold copySection rawSize
  simp only [Traced.only_bind, Field.only_fetch, Field.fetch_val, inside_read, memcpy_inside, covers_fits region,
    covers_fits fits, field_kept same header LdrSectionHeader.VirtualAddress (by decide),
    field_kept same header LdrSectionHeader.PointerToRawData (by decide),
    field_kept same header LdrSectionHeader.SizeOfRawData (by decide)]
  exact ⟨fun inside => inside.2.2.2, fun ranges => ⟨member 12 (by decide), member 20 (by decide), member 16 (by decide),
    ranges⟩⟩

include fits narrow same header in
theorem copyContent_inside (region : size < 2 ^ 64)
    (target : TargetIn m₀ size (blob + BitVec.ofNat 64 off)) :
    (Traced.Only (Inside blob len base size) (copyContent m blob base (blob + BitVec.ofNat 64 off)) ↔
      SourceIn m₀ len (blob + BitVec.ofNat 64 off)) ∧
    (Traced.Only (Inside blob len base size) (copySection m blob base (blob + BitVec.ofNat 64 off)) ↔
      SourceIn m₀ len (blob + BitVec.ofNat 64 off)) := by
  have member := (@member_inside blob _ _ fits narrow 16 4 (by omega) (by omega)).mpr (by omega)
  have positive : LdrSectionHeader.SizeOfRawData.on m₀ (blob + BitVec.ofNat 64 off) > 0 ↔
      rawSize m₀ (blob + BitVec.ofNat 64 off) ≠ 0 := by
    rw [gt_iff_lt, BitVec.lt_def, rawSize]
    exact Nat.pos_iff_ne_zero
  have place : rawSize m₀ (blob + BitVec.ofNat 64 off) * 4 = 0 ∨
      (LdrSectionHeader.VirtualAddress.on m₀ (blob + BitVec.ofNat 64 off)).toNat +
        rawSize m₀ (blob + BitVec.ofNat 64 off) * 4 ≤ size := by
    by_cases empty : rawSize m₀ (blob + BitVec.ofNat 64 off) = 0
    · exact .inl (by omega)
    · rwa [TargetIn, placeSize, sectionSize, if_pos (positive.mpr empty)] at target
  have copies := @copySection_inside _ _ _ base _ _ _ fits narrow same header region
  rw [and_iff_left place] at copies
  refine ⟨?_, copies⟩
  unfold copyContent
  simp only [Traced.only_bind, Traced.only_ite, Traced.only_pure, Field.only_fetch, Field.fetch_val, inside_read,
    field_kept same header LdrSectionHeader.SizeOfRawData (by decide), positive, copies, implies_true, and_true]
  constructor
  · rintro ⟨-, copied⟩
    by_cases empty : rawSize m₀ (blob + BitVec.ofNat 64 off) = 0
    · exact .inl (by omega)
    · exact copied empty
  · exact fun source => ⟨member, fun _ => source⟩

theorem clearSection_same {sec : UIntPtr} (apart : Apart blob len base size)
    (inside : Traced.Only (Inside blob len base size) (clearSection m base sec)) :
    SameInside blob len m (clearSection m base sec).val := by
  unfold clearSection at inside ⊢
  simp only [Traced.only_bind, Traced.val_bind, Field.fetch_val, memset_inside] at inside ⊢
  refine SameInside.of_outside fillWords_same ?_ apart
  rw [leBytes_length]
  exact inside.2.2.2

theorem copySection_same {sec : UIntPtr} (apart : Apart blob len base size)
    (inside : Traced.Only (Inside blob len base size) (copySection m blob base sec)) :
    SameInside blob len m (copySection m blob base sec).val := by
  unfold copySection at inside ⊢
  simp only [Traced.only_bind, Traced.val_bind, Field.fetch_val, memcpy_inside] at inside ⊢
  exact SameInside.of_outside copyWords_same inside.2.2.2.2 apart

theorem copyContent_same {sec : UIntPtr} (apart : Apart blob len base size)
    (inside : Traced.Only (Inside blob len base size) (copyContent m blob base sec)) :
    SameInside blob len m (copyContent m blob base sec).val := by
  unfold copyContent at inside ⊢
  simp only [Traced.only_bind, Traced.only_ite, Traced.val_bind, Traced.val_ite, Traced.val_pure, Field.fetch_val]
    at inside ⊢
  split
  · rename_i positive
    exact copySection_same apart (inside.2.1 positive)
  · exact SameInside.refl

include fits narrow same header in
theorem inspectSection_inside (entry : Covers blob len (opt + BitVec.ofNat 64 16) 4) :
    (Traced.Only (Inside blob len base size) (inspectSection m blob base opt (blob + BitVec.ofNat 64 off) start) ↔
      HandoverIn m₀ blob len (blob + BitVec.ofNat 64 off)) ∧
    (Traced.Only (Inside blob len base size) (inspectSection m blob base opt (blob + BitVec.ofNat 64 off) start) →
      (Stops m blob (blob + BitVec.ofNat 64 off) ↔ Stops m₀ blob (blob + BitVec.ofNat 64 off))) := by
  have name (text : List Byte) (short : text.length < 24) :
      Traced.Only (Inside blob len base size) (strcmp m text (blob + BitVec.ofNat 64 off)) := by
    refine strcmpFrom_only fun k le => ?_
    rw [inside_read]
    exact (member_inside fits narrow (by omega) (by omega)).mpr (by omega)
  have pointer := (@member_inside blob _ _ fits narrow 20 4 (by omega) (by omega)).mpr (by omega)
  have handover := isHandover_kept same header
  have content := contentOf_kept same header
  have small := LdrSectionHeader.PointerToRawData.on_lt m₀ (blob + BitVec.ofNat 64 off)
  have small : (LdrSectionHeader.PointerToRawData.on m₀ (blob + BitVec.ofNat 64 off)).toNat < 2 ^ 32 := small
  have magicIn : Covers blob len (contentOf m₀ blob (blob + BitVec.ofNat 64 off) + BitVec.ofNat 64 0) 8 ↔
      (LdrSectionHeader.PointerToRawData.on m₀ (blob + BitVec.ofNat 64 off)).toNat + 8 ≤ len :=
    @covers_word_iff _ _ _ 0 _ fits (by omega) (by omega)
  have archIn : Covers blob len (contentOf m₀ blob (blob + BitVec.ofNat 64 off) + BitVec.ofNat 64 16) 4 ↔
      (LdrSectionHeader.PointerToRawData.on m₀ (blob + BitVec.ofNat 64 off)).toNat + 20 ≤ len := by
    rw [contentOf, covers_word_iff fits (by omega) (by omega)]
  have magic (inside : (LdrSectionHeader.PointerToRawData.on m₀ (blob + BitVec.ofNat 64 off)).toNat + 8 ≤ len) :
      HandoverMagic.on m (contentOf m₀ blob (blob + BitVec.ofNat 64 off)) =
        HandoverMagic.on m₀ (contentOf m₀ blob (blob + BitVec.ofNat 64 off)) :=
    same.field (magicIn.mpr inside)
  rw [inspectSection_only, handover, content]
  simp only [inside_read, name _ (by decide : sectionForCode.length < 24),
    name _ (by decide : sectionForBootZ.length < 24), name _ (by decide : sectionForBootZAlt.length < 24), entry,
    pointer, magicIn, archIn, implies_true, true_and, and_self]
  constructor
  · refine imp_congr_right fun _ => and_congr_right fun inside => ?_
    rw [magic inside]
  · intro inside
    unfold Stops
    rw [handover, content]
    refine and_congr_right fun boots => ?_
    rw [magic (inside boots).1]

end Steps

section Whole
variable (same : SameInside blob len m₀ m) (apart : Apart blob len base size)
  (entry : Covers blob len (opt + BitVec.ofNat 64 16) 4) (region : size < 2 ^ 64)

include fits narrow in
theorem header_of_inside
    (inside : Traced.Only (Inside blob len base size)
      (loadSection build blob base opt (blob + BitVec.ofNat 64 off) start m)) : off + 24 ≤ len := by
  obtain ⟨-, -, inspected, rest⟩ := loadSection_only.mp inside
  have pointer : Covers blob len (blob + BitVec.ofNat 64 off + BitVec.ofNat 64 20) 4 := by
    by_cases stops : Stops (copyContent (clearSection m base (blob + BitVec.ofNat 64 off)).val blob base
        (blob + BitVec.ofNat 64 off)).val blob (blob + BitVec.ofNat 64 off)
    · exact inside_read.mp ((inspectSection_only.mp inspected).2.2.2 stops.1).1
    · have printed := (rest stops).1
      simp only [printSection, Traced.only_bind, Field.only_fetch, inside_read] at printed
      exact printed.1
  exact (member_inside fits narrow (by omega) (by omega)).mp pointer

include fits narrow same apart entry region

theorem turn_of_inside
    (inside : Traced.Only (Inside blob len base size)
      (loadSection build blob base opt (blob + BitVec.ofNat 64 off) start m)) :
    SectionIn build.debug m₀ blob len size off (blob + BitVec.ofNat 64 off) ∧
    SameInside blob len m₀ (loadSection build blob base opt (blob + BitVec.ofNat 64 off) start m).val.2 ∧
    ((loadSection build blob base opt (blob + BitVec.ofNat 64 off) start m).val.1 = none ↔
      Stops m₀ blob (blob + BitVec.ofNat 64 off)) := by
  have header := header_of_inside fits narrow inside
  obtain ⟨cleared, content, inspected, rest⟩ := loadSection_only.mp inside
  rw [loadSection_val rfl]
  have target := (clearSection_inside fits narrow same header region).mp cleared
  replace same := same.trans (clearSection_same apart cleared)
  have source := (copyContent_inside fits narrow same header region target).1.mp content
  replace same := same.trans (copyContent_same apart content)
  generalize (copyContent (clearSection m base (blob + BitVec.ofNat 64 off)).val blob base
    (blob + BitVec.ofNat 64 off)).val = copied at same inspected rest ⊢
  obtain ⟨handover, stops⟩ := @inspectSection_inside _ _ _ _ _ start _ _ _ fits narrow same header entry
  replace stops := stops inspected
  refine ⟨⟨header, target, source, handover.mp inspected, fun runs debug => ?_⟩, ?_, ?_⟩
  · exact same.stringIn.mp (((printSection_inside fits).mp (rest (mt stops.mp runs)).1).2 debug)
  · split
    · exact same
    · rename_i runs
      exact same.trans (copySection_same apart (rest runs).2)
  · rw [← stops]
    split
    · rename_i stopped
      exact iff_of_true rfl stopped
    · exact inspectSection_none

theorem loadSection_inside : Traced.Only (Inside blob len base size)
      (loadSection build blob base opt (blob + BitVec.ofNat 64 off) start m) ↔
    SectionIn build.debug m₀ blob len size off (blob + BitVec.ofNat 64 off) := by
  constructor
  · exact fun inside => (turn_of_inside fits narrow same apart entry region inside).1
  · intro within
    have header := within.header
    rw [loadSection_only]
    have cleared := (@clearSection_inside _ _ _ base _ _ _ fits narrow same header region).mpr within.target
    replace same := same.trans (clearSection_same apart cleared)
    have inside := @copyContent_inside _ _ _ base _ _ _ fits narrow same header region within.target
    have content := inside.1.mpr within.source
    replace same := same.trans (copyContent_same apart content)
    refine ⟨cleared, content, ?_⟩
    generalize (copyContent (clearSection m base (blob + BitVec.ofNat 64 off)).val blob base
      (blob + BitVec.ofNat 64 off)).val = copied at same ⊢
    obtain ⟨handover, stops⟩ := @inspectSection_inside _ _ _ base _ start _ size _ fits narrow same header entry
    have inspected := handover.mpr within.handover
    have last := (@copyContent_inside _ _ _ base _ _ _ fits narrow same header region within.target).2.mpr within.source
    refine ⟨inspected, fun runs => ⟨(printSection_inside fits).mpr ⟨?_, fun debug => ?_⟩, last⟩⟩
    · exact (member_inside fits narrow (by omega) (by omega)).mpr (by omega)
    · exact same.stringIn.mpr (within.printed (mt (stops inspected).mpr runs) debug)

theorem loadSections_inside {left : Nat} (room : off + left * 40 < 2 ^ 32) :
    Traced.Only (Inside blob len base size)
      (loadSections build blob base opt left (blob + BitVec.ofNat 64 off) start m) ↔
    ∀ k < left, (∀ j < k, ¬ Stops m₀ blob (blob + BitVec.ofNat 64 (off + j * 40))) →
      SectionIn build.debug m₀ blob len size (off + k * 40) (blob + BitVec.ofNat 64 (off + k * 40)) := by
  induction left generalizing off start m with
  | zero => exact iff_of_true Traced.only_pure fun k below => absurd below (Nat.not_lt_zero k)
  | succ left ih =>
      have step : blob + BitVec.ofNat 64 off + BitVec.ofNat 64 LdrSectionHeader.size =
          blob + BitVec.ofNat 64 (off + 40) := by
        rw [BitVec.add_assoc, ← BitVec.ofNat_add]
        rfl
      have shift (k : Nat) : off + (k + 1) * 40 = off + 40 + k * 40 := by omega
      have begins : off + 0 * 40 = off := by omega
      have turn := @turn_of_inside _ _ _ _ _ start build _ _ _ fits narrow same apart entry region
      rw [loadSections, Traced.only_bind, loadSection_inside fits narrow same apart entry region, step]
      constructor
      · rintro ⟨first, later⟩ k below misses
        obtain ⟨-, kept, ends⟩ := turn ((loadSection_inside fits narrow same apart entry region).mpr first)
        cases k with
        | zero => rwa [begins]
        | succ k =>
            have runs := misses 0 (Nat.succ_pos k)
            rw [begins] at runs
            cases next : (loadSection build blob base opt (blob + BitVec.ofNat 64 off) start m).val.1 with
            | none => exact absurd (ends.mp next) runs
            | some next' =>
                rw [next] at later
                rw [shift]
                refine (ih (by omega) kept (by omega)).mp later k (by omega) fun j less => ?_
                rw [← shift]
                exact misses (j + 1) (by omega)
      · intro all
        have first := all 0 (Nat.succ_pos left) fun j less => absurd less (Nat.not_lt_zero j)
        rw [begins] at first
        obtain ⟨-, kept, ends⟩ := turn ((loadSection_inside fits narrow same apart entry region).mpr first)
        refine ⟨first, ?_⟩
        cases next : (loadSection build blob base opt (blob + BitVec.ofNat 64 off) start m).val.1 with
        | none => exact Traced.only_pure
        | some next' =>
            have runs : ¬ Stops m₀ blob (blob + BitVec.ofNat 64 off) := by
              intro stops
              have none := ends.mpr stops
              rw [next] at none
              cases none
            refine (ih (by omega) kept (by omega)).mpr fun k below misses => ?_
            rw [← shift]
            refine all (k + 1) (by omega) fun j less => ?_
            cases j with
            | zero => rwa [begins]
            | succ j =>
                rw [shift]
                exact misses j (by omega)

end Whole

end Turn

/-! ## A whole image -/

/-- A file that the loader takes for a PE image. -/
structure PeBlob (m : Memory) (blob : UIntPtr) (len : SizeT) : Prop where
  nonnull : blob ≠ 0
  long : 2 ≤ len.toNat
  mz0 : m blob = kMagMz0
  mz1 : m (blob + 1) = kMagMz1

/-- Pages that the firmware gives are none of those where it keeps the blob. -/
def Fresh (firmware : Firmware) (blob : UIntPtr) (len : SizeT) : Prop :=
  ∀ base pages, firmware base pages = true → Apart blob len.toNat base (4096 * pages.toNat)

section Image
variable (build : Build) (firmware : Firmware) (m : Memory) (blob : UIntPtr) (len : SizeT)

def headerOf : UIntPtr := blob + BitVec.ofNat 64 128
def optionalOf : UIntPtr := blob + BitVec.ofNat 64 152

def imageBase : UIntPtr := LdrOptionalHeader.ImageBase.on m (optionalOf blob)

/-- The window that the firmware gave for the image. -/
def windowSize : Nat :=
  claimedSize firmware (imageBase m blob) (LdrOptionalHeader.SizeOfImage.on m (optionalOf blob))

def IsPe : Prop := LdrExecHeader.Machine.on m (headerOf blob) = kPeMachineAMD64 ∧
  LdrExecHeader.Signature.on m (headerOf blob) = kPeSignature

/-- The loader goes on to the sections. -/
def Loads : Prop := IsPe m blob ∧ (build.allowNonNekernelPe = false →
  LdrOptionalHeader.Subsystem.on m (optionalOf blob) = kNeKernelPESubsystem)

def sectionCount : Nat := (LdrExecHeader.NumberOfSections.on m (headerOf blob)).toNat

def sectionOffset (k : Nat) : Nat :=
  152 + (LdrExecHeader.SizeOfOptionalHeader.on m (headerOf blob)).toNat + k * 40

def sectionOf (k : Nat) : UIntPtr := blob + BitVec.ofNat 64 (sectionOffset m blob k)

/-- The headers lie in the blob, and so does what they name, in the blob or in the window. -/
structure ImageIn : Prop where
  exec : 134 ≤ len.toNat
  subsystem : IsPe m blob → build.allowNonNekernelPe = false → 222 ≤ len.toNat
  optional : Loads build m blob → 212 ≤ len.toNat
  sections : Loads build m blob → ∀ k < sectionCount m blob, (∀ j < k, ¬ Stops m blob (sectionOf m blob j)) →
    SectionIn build.debug m blob len.toNat (windowSize firmware m blob) (sectionOffset m blob k) (sectionOf m blob k)

end Image

section Constructor
variable {build : Build} {firmware : Firmware} {m : Memory} {blob : UIntPtr} {len : SizeT}

theorem windowSize_small : windowSize firmware m blob < 2 ^ 64 := by
  have pages : (imagePages (LdrOptionalHeader.SizeOfImage.on m (optionalOf blob))).toNat < 2 ^ 32 := by
    unfold imagePages
    rw [BitVec.toNat_setWidth]
    exact Nat.lt_of_le_of_lt (Nat.mod_le _ _) (BitVec.isLt _)
  unfold windowSize claimedSize
  split <;> omega

theorem window_apart (fresh : Fresh firmware blob len) :
    Apart blob len.toNat (imageBase m blob) (windowSize firmware m blob) := by
  unfold windowSize claimedSize
  split
  · rename_i given
    exact fresh _ _ given
  · exact fun _ _ inside => absurd inside (Nat.not_lt_zero _)

variable (pe : PeBlob m blob len)
include pe

theorem PeBlob.header_val : (ldrFindExecHeader m blob).val = headerOf blob := by
  unfold ldrFindExecHeader
  simp only [Traced.val_bind, Traced.val_pure, fetchByte_val, if_neg pe.nonnull, pe.mz0, pe.mz1, ne_eq,
    not_true_eq_false, if_false]
  rfl

theorem PeBlob.opt_val (placed : headerOf blob ≠ 0) : (ldrFindOptExecHeader m blob).val = optionalOf blob := by
  rw [PE32Loader.ldrFindOptExecHeader_val, pe.header_val, if_neg (not_or.mpr ⟨pe.nonnull, placed⟩), headerOf,
    BitVec.add_assoc]
  rfl

theorem PeBlob.magic_covers : Covers blob len.toNat blob 1 ∧ Covers blob len.toNat (blob + 1) 1 := by
  have long := pe.long
  exact ⟨by simpa using @covers_offset blob len.toNat 1 0 (by omega),
    @covers_offset _ _ _ 1 (by omega)⟩

theorem loadPe_null {P : Access → Prop} (null : headerOf blob = 0 ∨ optionalOf blob = 0)
    (first : P (.read blob 1)) (second : P (.read (blob + 1) 1)) : Traced.Only P (loadPe build firmware m blob) := by
  have ends : (ldrFindExecHeader m blob).val = 0 ∨ (ldrFindOptExecHeader m blob).val = 0 := by
    rw [pe.header_val]
    by_cases header : headerOf blob = 0
    · exact .inl header
    · exact .inr ((pe.opt_val header).trans (null.resolve_left header))
  unfold loadPe
  simp only [Traced.only_bind]
  refine ⟨PE32Loader.ldrFindExecHeader_only first second, PE32Loader.ldrFindOptExecHeader_only first second, ?_⟩
  rw [if_pos ends]
  exact Traced.only_pure

omit pe in
theorem checkSubsystem_val : (checkSubsystem build m (optionalOf blob)).val = true ↔
    (build.allowNonNekernelPe = false →
      LdrOptionalHeader.Subsystem.on m (optionalOf blob) = kNeKernelPESubsystem) := by
  unfold checkSubsystem
  cases build.allowNonNekernelPe <;> simp

omit pe in
theorem checkSubsystem_only {P : Access → Prop} : Traced.Only P (checkSubsystem build m (optionalOf blob)) ↔
    (build.allowNonNekernelPe = false → P (.read (optionalOf blob + BitVec.ofNat 64 68) 2)) := by
  unfold checkSubsystem
  cases build.allowNonNekernelPe <;> simp [LdrOptionalHeader.Subsystem]

section Members
variable {f : Field} (positive : 0 < f.size)
include positive

omit pe in
theorem exec_covers : Covers blob len.toNat (headerOf blob + BitVec.ofNat 64 f.off) f.size ↔
    128 + f.off + f.size ≤ len.toNat := by
  have fits := f.fits
  exact member_inside len.isLt (by decide) (by omega) positive

omit pe in
theorem optional_covers : Covers blob len.toNat (optionalOf blob + BitVec.ofNat 64 f.off) f.size ↔
    152 + f.off + f.size ≤ len.toNat := by
  have fits := f.fits
  exact member_inside len.isLt (by decide) (by omega) positive

end Members

omit pe in
theorem loadImage_inside (fresh : Fresh firmware blob len) :
    Traced.Only (Inside blob len.toNat (imageBase m blob) (windowSize firmware m blob))
      (loadImage build firmware m blob (headerOf blob) (optionalOf blob)) ↔
    212 ≤ len.toNat ∧ ∀ k < sectionCount m blob, (∀ j < k, ¬ Stops m blob (sectionOf m blob j)) →
      SectionIn build.debug m blob len.toNat (windowSize firmware m blob) (sectionOffset m blob k)
        (sectionOf m blob k) := by
  have sections : optionalOf blob + LdrExecHeader.SizeOfOptionalHeader.on m (headerOf blob) =
      blob + BitVec.ofNat 64 (152 + (LdrExecHeader.SizeOfOptionalHeader.on m (headerOf blob)).toNat) := by
    rw [BitVec.ofNat_add, BitVec.ofNat_toNat, BitVec.setWidth_eq, ← BitVec.add_assoc]
    rfl
  have narrow : (LdrExecHeader.SizeOfOptionalHeader.on m (headerOf blob)).toNat < 65536 :=
    LdrExecHeader.SizeOfOptionalHeader.on_lt m (headerOf blob)
  have few : sectionCount m blob < 65536 := LdrExecHeader.NumberOfSections.on_lt m (headerOf blob)
  have loop (long : 212 ≤ len.toNat) := @loadSections_inside m m _ _ _ 0 build _ _
    (152 + (LdrExecHeader.SizeOfOptionalHeader.on m (headerOf blob)).toNat)
    len.isLt (by omega) SameInside.refl (window_apart (m := m) fresh)
    ((optional_covers (f := LdrOptionalHeader.AddressOfEntryPoint) (by decide)).mpr (Nat.le_trans (by decide) long))
    windowSize_small (sectionCount m blob) (by omega)
  unfold loadImage
  simp only [Traced.only_bind, Traced.only_pure, Field.only_fetch, Field.fetch_val, inside_read, sections, and_true]
  constructor
  · rintro ⟨-, -, -, -, -, -, size, -, turns⟩
    have long : 212 ≤ len.toNat := (optional_covers (f := LdrOptionalHeader.SizeOfImage) (by decide)).mp size
    exact ⟨long, (loop long).mp turns⟩
  · rintro ⟨long, turns⟩
    have exec (f : Field) (positive : 0 < f.size) (low : 128 + f.off + f.size ≤ 212) :=
      (@exec_covers blob len _ positive).mpr (low.trans long)
    have opt (f : Field) (positive : 0 < f.size) (low : 152 + f.off + f.size ≤ 212) :=
      (@optional_covers blob len _ positive).mpr (low.trans long)
    exact ⟨exec _ (by decide) (by decide), opt _ (by decide) (by decide), opt _ (by decide) (by decide),
      opt _ (by decide) (by decide), opt _ (by decide) (by decide), opt _ (by decide) (by decide),
      opt _ (by decide) (by decide), exec _ (by decide) (by decide), (loop long).mpr turns⟩

theorem loadPe_inside (header : headerOf blob ≠ 0) (opt : optionalOf blob ≠ 0) (fresh : Fresh firmware blob len) :
    Traced.Only (Inside blob len.toNat (imageBase m blob) (windowSize firmware m blob))
      (loadPe build firmware m blob) ↔ ImageIn build firmware m blob len := by
  have placed : ¬ ((ldrFindExecHeader m blob).val = 0 ∨ (ldrFindOptExecHeader m blob).val = 0) := by
    rw [pe.header_val, pe.opt_val header]
    exact not_or.mpr ⟨header, opt⟩
  have first := (@inside_read _ (imageBase m blob) _ _ (windowSize firmware m blob) _).mpr pe.magic_covers.1
  have second := (@inside_read _ (imageBase m blob) _ _ (windowSize firmware m blob) _).mpr pe.magic_covers.2
  have subsystem := @optional_covers blob len LdrOptionalHeader.Subsystem (by decide)
  unfold loadPe
  simp only [Traced.only_bind, if_neg placed]
  rw [and_iff_right (PE32Loader.ldrFindExecHeader_only first second),
    and_iff_right (PE32Loader.ldrFindOptExecHeader_only first second), pe.header_val, pe.opt_val header]
  simp only [Traced.only_bind, Traced.only_ite, Traced.only_pure, Field.only_fetch, Field.fetch_val, inside_read,
    checkSubsystem_only, checkSubsystem_val, loadImage_inside fresh,
    exec_covers (by decide : 0 < LdrExecHeader.Machine.size),
    exec_covers (by decide : 0 < LdrExecHeader.Signature.size), implies_true, true_and, and_true, ne_eq, not_not]
  constructor
  · rintro ⟨exec, pe'⟩
    exact ⟨exec, fun is forbidden => subsystem.mp (((pe' is.1).2 is.2).1 forbidden),
      fun loads => (((pe' loads.1.1).2 loads.1.2).2 loads.2).1,
      fun loads => (((pe' loads.1.1).2 loads.1.2).2 loads.2).2⟩
  · intro image
    have exec := image.exec
    exact ⟨exec, fun machine => ⟨Nat.le_trans (by decide) exec, fun signature =>
      ⟨fun forbidden => subsystem.mpr (image.subsystem ⟨machine, signature⟩ forbidden),
        fun runs => ⟨image.optional ⟨⟨machine, signature⟩, runs⟩, image.sections ⟨⟨machine, signature⟩, runs⟩⟩⟩⟩⟩

theorem bootThread_only {P : Access → Prop} : Traced.Only P (bootThread build firmware m blob) ↔
    P (.read blob 1) ∧ P (.read (blob + 1) 1) ∧ Traced.Only P (loadPe build firmware m blob) := by
  have mz1 : m (blob + 1#64) = kMagMz1 := pe.mz1
  have magic : (magicIs m blob [kMagMz0, kMagMz1]).val = true := by
    simp [magicIs, pe.mz0, mz1]
  unfold bootThread
  rw [if_neg pe.nonnull, Traced.only_bind, if_pos magic]
  simp [magicIs, pe.mz0, and_assoc]

end Constructor

/-- The constructor over a PE image stays in the blob and in the window that the firmware gave it exactly
when the image does. -/
theorem bootThread_inside_iff (build : Build) (firmware : Firmware) (m : Memory) (blob : UIntPtr) (len : SizeT)
    (pe : PeBlob m blob len) (fresh : Fresh firmware blob len) :
    Traced.Only (Inside blob len.toNat (imageBase m blob) (windowSize firmware m blob))
      (bootThread build firmware m blob) ↔
    headerOf blob = 0 ∨ optionalOf blob = 0 ∨ ImageIn build firmware m blob len := by
  obtain ⟨first, second⟩ := pe.magic_covers
  rw [bootThread_only pe, inside_read, inside_read, and_iff_right first, and_iff_right second]
  by_cases null : headerOf blob = 0 ∨ optionalOf blob = 0
  · rw [← or_assoc]
    exact iff_of_true (loadPe_null pe null (inside_read.mpr first) (inside_read.mpr second)) (.inl null)
  · obtain ⟨header, opt⟩ := not_or.mp null
    rw [loadPe_inside pe header opt fresh, or_iff_right header, or_iff_right opt]

/-- An image of one page at `0x40000000`, with one section of one byte that the file has no content for. -/
def bootBlob : Memory :=
  ByteMem.write (fun _ => 0) PE32Loader.imageAt
    (PE32Loader.peHeaders 1 96 0x40000000 0x1000 ++ leBytes 8 0 ++ leBytes 4 1 ++ leBytes 28 0)

theorem bootBlob_pe : PeBlob bootBlob PE32Loader.imageAt 288 where
  nonnull := by decide
  long := by decide
  mz0 := by decide +kernel
  mz1 := by decide +kernel

/-- A firmware that has this one page left. -/
def onePage : Firmware := fun base pages => base = 0x40000000#64 ∧ pages = 1#64

theorem onePage_fresh : Fresh onePage PE32Loader.imageAt 288 := by
  intro base pages given
  obtain ⟨rfl, rfl⟩ : base = 0x40000000#64 ∧ pages = 1#64 := by simpa [onePage] using given
  exact Apart.of_le (by decide) (by decide)

theorem bootThread_inside_iff_bootBlob :
    Traced.Only (Inside PE32Loader.imageAt (288 : SizeT).toNat (imageBase bootBlob PE32Loader.imageAt)
        (windowSize onePage bootBlob PE32Loader.imageAt))
        (bootThread ⟨false, false⟩ onePage bootBlob PE32Loader.imageAt) ↔
      headerOf PE32Loader.imageAt = 0 ∨ optionalOf PE32Loader.imageAt = 0 ∨
        ImageIn ⟨false, false⟩ onePage bootBlob PE32Loader.imageAt 288 :=
  bootThread_inside_iff ⟨false, false⟩ onePage bootBlob PE32Loader.imageAt 288 bootBlob_pe onePage_fresh

/-- The section's place is cleared although the firmware refused the window. -/
theorem refused_window_written :
    PeBlob bootBlob PE32Loader.imageAt 288 ∧ Fresh (fun _ _ => false) PE32Loader.imageAt 288 ∧
    ¬ Traced.Only (Inside PE32Loader.imageAt (288 : SizeT).toNat (imageBase bootBlob PE32Loader.imageAt)
      (windowSize (fun _ _ => false) bootBlob PE32Loader.imageAt))
      (bootThread ⟨false, false⟩ (fun _ _ => false) bootBlob PE32Loader.imageAt) := by
  have fresh : Fresh (fun _ _ => false) PE32Loader.imageAt 288 := fun _ _ given => nomatch given
  refine ⟨bootBlob_pe, fresh, fun inside => ?_⟩
  have loaded := ((bootThread_only bootBlob_pe).mp inside).2.2
  have image := (loadPe_inside bootBlob_pe (by decide) (by decide) fresh).mp loaded
  have loads : Loads ⟨false, false⟩ bootBlob PE32Loader.imageAt := by
    unfold Loads IsPe
    decide +kernel
  have one : 0 < sectionCount bootBlob PE32Loader.imageAt := by decide +kernel
  have place : placeSize bootBlob (sectionOf bootBlob PE32Loader.imageAt 0) = 1 := by decide +kernel
  have target := (image.sections loads 0 one fun j below => absurd below (Nat.not_lt_zero j)).target
  rw [TargetIn, place] at target
  have none : windowSize (fun _ _ => false) bootBlob PE32Loader.imageAt = 0 := rfl
  omega

end Ne.Kernel.Boot
