import NeKernel.Lib.Traced
import NeKernel.Machine

/-!
# PEF containers

The part of `PEFCodeMgr.cpp` that looks at a container. A blob is a range of a memory that the
loaders do not write, and every read of it, as every operation of a check, goes to the log. A
character array that the caller passes is given from its first character on, with NULs behind it.
-/

namespace Ne.Kernel.Ldr
open ByteMem Access

def kPefMagic : List Byte := [0x4F, 0x70, 0x65, 0x6E, 0]
def kPefMagicFat : List Byte := [0x6E, 0x65, 0x70, 0x4F, 0]
def kPefMagicLen : Nat := 5
def kPefNameLen : Nat := 256
def kPefAbi : BitVec 64 := 0x5046
def kPefBaseOrigin : UIntPtr := 0x40000000
def kPefMaxSections : SizeT := 64
def kPefMaxImageSz : SizeT := 0x4000000
def kPefArchAMD64 : BitVec 64 := 1

def kPefInvalid : BitVec 32 := 0
def kPefCode : BitVec 32 := 0xC
def kPefData : BitVec 32 := 0xD
def kPefZero : BitVec 32 := 0xE

namespace PEFContainer
def size : Nat := 64
def Magic : BitVec 64 := 0
def Abi : Field := { off := 17, size := 4 }
def Cpu : Field := { off := 21, size := 4 }
def Count : Field := { off := 45, size := 8 }
end PEFContainer

namespace PEFCommandHeader
def size : Nat := 304
def Name : BitVec 64 := 0
def Cpu : Field := { off := 256, size := 4 }
def Kind : Field := { off := 268, size := 2 }
def Offset : Field := { off := 270, size := 8 }
def OffsetSize : Field := { off := 278, size := 8 }
def VMAddress : Field := { off := 286, size := 8 }
def VMSize : Field := { off := 294, size := 8 }
end PEFCommandHeader

theorem kPefBaseOrigin_toNat : kPefBaseOrigin.toNat = 0x40000000 := rfl
theorem kPefMaxImageSz_toNat : kPefMaxImageSz.toNat = 0x4000000 := rfl

attribute [irreducible] kPefBaseOrigin kPefMaxImageSz

/-- `ldr_get_platform` of the AMD64 kernel. -/
def ldrGetPlatform : BitVec 64 := kPefArchAMD64

/-- `rt_string_len` with a limit. -/
def rtStringLen (str : List Byte) (maxLen : Nat) : Nat := min (str.takeWhile (· ≠ 0)).length maxLen

/-- The first `n` characters of an array. -/
def chars (str : List Byte) (n : Nat) : List Byte := str.takeD n 0

def pefMagicEq (magic want : List Byte) : Bool :=
  chars magic (kPefMagicLen - 1) = chars want (kPefMagicLen - 1)

/-- A null pointer is `none`. -/
def pefNameEq (field : List Byte) : Option (List Byte) → Bool
  | none => false
  | some want =>
      let fieldLen := rtStringLen field kPefNameLen
      if fieldLen ≥ kPefNameLen then false
      else if rtStringLen want kPefNameLen ≠ fieldLen then false
      else chars field fieldLen = chars want fieldLen

def pefReadContainer (m : Memory) (blob : UIntPtr) (len : SizeT) : Traced Access (Option Image) :=
  if blob = 0 ∨ len < BitVec.ofNat 64 PEFContainer.size then pure none
  else do
    let out ← fetch m blob PEFContainer.size
    let magic := read out PEFContainer.Magic kPefMagicLen
    if pefMagicEq magic kPefMagic = false ∧ pefMagicEq magic kPefMagicFat = false then pure none
    else if PEFContainer.Abi.get out ≠ kPefAbi then pure none
    else if PEFContainer.Count.get out < 1 ∨ PEFContainer.Count.get out > kPefMaxSections then pure none
    else do
      let room ← subWord len (BitVec.ofNat 64 PEFContainer.size)
      if PEFContainer.Count.get out > room / BitVec.ofNat 64 PEFCommandHeader.size then pure none
      else pure (some out)

/-- The checks on the content of a section that has some. -/
def pefCheckContent (len tableSz : SizeT) (out : Image) : Traced Access Bool :=
  if PEFCommandHeader.Offset.get out > len then pure false
  else do
    let room ← subWord len (PEFCommandHeader.Offset.get out)
    if PEFCommandHeader.OffsetSize.get out > room then pure false
    else do
      let tableEnd ← addWord (BitVec.ofNat 64 PEFContainer.size) tableSz
      pure (decide (tableEnd ≤ PEFCommandHeader.Offset.get out))

/-- The checks on the header that name and kind select. -/
def pefCheckSection (len tableSz : SizeT) (isFat : Bool) (out : Image) : Traced Access Bool :=
  if PEFCommandHeader.Cpu.get out ≠ ldrGetPlatform ∧ isFat = false then pure false
  else if PEFCommandHeader.VMSize.get out < 1 ∨ PEFCommandHeader.VMSize.get out > kPefMaxImageSz then
    pure false
  else if PEFCommandHeader.VMAddress.get out < kPefBaseOrigin then pure false
  else do
    let start ← subWord (PEFCommandHeader.VMAddress.get out) kPefBaseOrigin
    let room ← subWord kPefMaxImageSz (PEFCommandHeader.VMSize.get out)
    if start > room then pure false
    else if PEFCommandHeader.OffsetSize.get out > PEFCommandHeader.VMSize.get out then pure false
    else if PEFCommandHeader.OffsetSize.get out > 0 then pefCheckContent len tableSz out
    else pure true

/-- The loop over the headers, from the `i`th on with `left` to go. -/
def pefFindFrom (m : Memory) (blob : UIntPtr) (len tableSz : SizeT) (isFat : Bool)
    (name : Option (List Byte)) (kind : BitVec 32) : Nat → SizeT → Traced Access (Option Image)
  | 0, _ => pure none
  | left + 1, i => do
      let off ← mulWord i (BitVec.ofNat 64 PEFCommandHeader.size)
      let out ← fetch m (blob + BitVec.ofNat 64 PEFContainer.size + off) PEFCommandHeader.size
      if (PEFCommandHeader.Kind.get out).setWidth 32 ≠ kind then
        pefFindFrom m blob len tableSz isFat name kind left (i + 1)
      else if pefNameEq (read out PEFCommandHeader.Name kPefNameLen) name = false then
        pefFindFrom m blob len tableSz isFat name kind left (i + 1)
      else do
        let accepted ← pefCheckSection len tableSz isFat out
        pure (if accepted then some out else none)

/-- `pef_find_section`: `YES` with the header it leaves in `out`, or `none`. -/
def pefFindSection (m : Memory) (blob : UIntPtr) (len : SizeT) (name : Option (List Byte))
    (kind : BitVec 32) : Traced Access (Option Image) := do
  let container ← pefReadContainer m blob len
  match container with
  | none => pure none
  | some container => do
      let isFat := pefMagicEq (read container PEFContainer.Magic kPefMagicLen) kPefMagicFat
      let tableSz ← mulWord (PEFContainer.Count.get container) (BitVec.ofNat 64 PEFCommandHeader.size)
      pefFindFrom m blob len tableSz isFat name kind (PEFContainer.Count.get container).toNat 0

/-- Reads stay in the blob and no arithmetic wraps. -/
def Sound (blob : UIntPtr) (len : SizeT) (e : Access) : Prop := ReadsIn blob len.toNat e ∧ Exact e

section Container
variable {m : Memory} {blob : UIntPtr} {len : SizeT} {container : Image}

theorem pefReadContainer_sound : Traced.Only (Sound blob len) (pefReadContainer m blob len) := by
  unfold pefReadContainer
  simp only [Traced.only_ite, Traced.only_pure, Traced.only_bind, only_fetch, only_subWord, Sound,
    readsIn_read, exact_read, implies_true, and_true, true_and]
  intro present
  have room : 64 ≤ len.toNat := by
    have above := fun short => present (.inr short)
    simpa [BitVec.lt_def, PEFContainer.size] using above
  refine ⟨?_, fun _ _ _ wrap => ?_⟩
  · simpa using @covers_offset blob _ PEFContainer.size 0 room
  · simp [PEFContainer.size] at wrap
    omega

theorem pefReadContainer_some (read : (pefReadContainer m blob len).val = some container) :
    container = window m blob PEFContainer.size ∧ 1 ≤ (PEFContainer.Count.get container).toNat ∧
      (PEFContainer.Count.get container).toNat ≤ 64 ∧
      64 + (PEFContainer.Count.get container).toNat * 304 ≤ len.toNat := by
  simp only [pefReadContainer, Traced.val_guard_some, Traced.val_pure, Traced.val_bind, fetch_val,
    subWord_val] at read
  obtain ⟨null, -, -, count, room, same⟩ := read
  obtain rfl := Option.some.inj same
  simp only [not_or, BitVec.not_lt, gt_iff_lt, kPefMaxSections, BitVec.le_def, PEFContainer.size,
    PEFCommandHeader.size, BitVec.toNat_udiv, BitVec.toNat_ofNat, Nat.reducePow, Nat.reduceMod]
    at null count room
  have long : BitVec.ofNat 64 64 ≤ len := BitVec.le_def.mpr null.2
  have rest : (len - BitVec.ofNat 64 64).toNat = len.toNat - 64 := BitVec.toNat_sub_of_le long
  rw [rest] at room
  have sections := Nat.mul_le_of_le_div _ _ _ room
  exact ⟨rfl, count.1, count.2, by simp only [PEFContainer.size]; omega⟩

end Container

/-- What the checks promise of a section's header, the headers of the blob ending at `tableEnd`. The
image window is the 64 MiB from `kPefBaseOrigin`. -/
structure SectionBounds (len tableEnd : Nat) (hdr : Image) : Prop where
  origin : 0x40000000 ≤ (PEFCommandHeader.VMAddress.get hdr).toNat
  window : (PEFCommandHeader.VMAddress.get hdr).toNat + (PEFCommandHeader.VMSize.get hdr).toNat ≤ 0x44000000
  positive : 1 ≤ (PEFCommandHeader.VMSize.get hdr).toNat
  content : (PEFCommandHeader.OffsetSize.get hdr).toNat ≤ (PEFCommandHeader.VMSize.get hdr).toNat
  inside : 0 < (PEFCommandHeader.OffsetSize.get hdr).toNat →
    tableEnd ≤ (PEFCommandHeader.Offset.get hdr).toNat ∧
    (PEFCommandHeader.Offset.get hdr).toNat + (PEFCommandHeader.OffsetSize.get hdr).toNat ≤ len

instance (len tableEnd : Nat) (hdr : Image) : Decidable (SectionBounds len tableEnd hdr) :=
  decidable_of_iff (_ ∧ _ ∧ _ ∧ _ ∧ (_ → _ ∧ _))
    ⟨fun ⟨origin, window, positive, content, inside⟩ => ⟨origin, window, positive, content, inside⟩,
      fun ⟨origin, window, positive, content, inside⟩ => ⟨origin, window, positive, content, inside⟩⟩

section Checks
variable {blob : UIntPtr} {len tableSz : SizeT} {isFat : Bool} {hdr : Image}

theorem pefCheckContent_sound (table : 64 + tableSz.toNat < 2 ^ 64) :
    Traced.Only (Sound blob len) (pefCheckContent len tableSz hdr) := by
  unfold pefCheckContent
  simp only [Traced.only_ite, Traced.only_pure, Traced.only_bind, only_subWord, only_addWord, Sound,
    readsIn_wrapped, not_exact_wrapped, implies_true, true_and, and_true, and_false, imp_false]
  intro below
  simp only [gt_iff_lt, BitVec.lt_def, PEFContainer.size, BitVec.toNat_ofNat] at below ⊢
  exact ⟨below, fun _ => by omega⟩

theorem pefCheckContent_iff (table : 64 + tableSz.toNat < 2 ^ 64) : (pefCheckContent len tableSz hdr).val = true ↔
    64 + tableSz.toNat ≤ (PEFCommandHeader.Offset.get hdr).toNat ∧
    (PEFCommandHeader.Offset.get hdr).toNat + (PEFCommandHeader.OffsetSize.get hdr).toNat ≤ len.toNat := by
  simp only [pefCheckContent, Traced.val_guard, Traced.val_pure, Traced.val_bind, subWord_val,
    addWord_val, decide_eq_true_eq, gt_iff_lt, BitVec.not_lt]
  rw [BitVec.le_def (x := BitVec.ofNat 64 _ + _), BitVec.toNat_add, PEFContainer.size, BitVec.toNat_ofNat]
  constructor
  · rintro ⟨start, size, behind⟩
    rw [BitVec.le_def, BitVec.toNat_sub_of_le start] at size
    rw [BitVec.le_def] at start
    omega
  · rintro ⟨behind, size⟩
    have start : PEFCommandHeader.Offset.get hdr ≤ len := by
      rw [BitVec.le_def]
      omega
    refine ⟨start, ?_, by omega⟩
    rw [BitVec.le_def, BitVec.toNat_sub_of_le start]
    omega

theorem pefCheckSection_sound (table : 64 + tableSz.toNat < 2 ^ 64) :
    Traced.Only (Sound blob len) (pefCheckSection len tableSz isFat hdr) := by
  unfold pefCheckSection
  simp only [Traced.only_ite, Traced.only_pure, Traced.only_bind, only_subWord, Sound,
    readsIn_wrapped, not_exact_wrapped, implies_true, true_and, and_true, and_false, imp_false]
  intro _ size address
  refine ⟨?_, ?_, ?_⟩
  · exact fun below => address (BitVec.lt_def.mpr below)
  · exact fun above => size (.inr (BitVec.lt_def.mpr above))
  · exact fun _ _ _ => pefCheckContent_sound table

theorem pefCheckSection_iff (table : 64 + tableSz.toNat < 2 ^ 64) :
    (pefCheckSection len tableSz isFat hdr).val = true ↔
    (PEFCommandHeader.Cpu.get hdr = ldrGetPlatform ∨ isFat = true) ∧
      SectionBounds len.toNat (64 + tableSz.toNat) hdr := by
  simp only [pefCheckSection, Traced.val_guard, Traced.val_bind, subWord_val,
    not_or, not_and_or, not_not, Bool.not_eq_false, gt_iff_lt, BitVec.not_lt]
  refine and_congr_right fun _ => ⟨?_, fun bounds => ?_⟩
  · rintro ⟨⟨one, small⟩, above, room, content, rest⟩
    rw [BitVec.le_def, BitVec.toNat_sub_of_le above, BitVec.toNat_sub_of_le small, kPefMaxImageSz_toNat,
      kPefBaseOrigin_toNat] at room
    rw [BitVec.le_def, kPefBaseOrigin_toNat] at above
    rw [BitVec.le_def, kPefMaxImageSz_toNat] at small
    rw [BitVec.le_def] at one content
    refine ⟨above, by omega, one, content, fun positive => ?_⟩
    have some : 0 < PEFCommandHeader.OffsetSize.get hdr := by simpa [BitVec.lt_def] using positive
    rw [if_pos some] at rest
    exact (pefCheckContent_iff table).mp rest
  · obtain ⟨origin, window, positive, content, inside⟩ := bounds
    have above : kPefBaseOrigin ≤ PEFCommandHeader.VMAddress.get hdr := by
      rwa [BitVec.le_def, kPefBaseOrigin_toNat]
    have small : PEFCommandHeader.VMSize.get hdr ≤ kPefMaxImageSz := by
      rw [BitVec.le_def, kPefMaxImageSz_toNat]
      omega
    refine ⟨⟨BitVec.le_def.mpr positive, small⟩, above, ?_, BitVec.le_def.mpr content, ?_⟩
    · rw [BitVec.le_def, BitVec.toNat_sub_of_le above, BitVec.toNat_sub_of_le small, kPefMaxImageSz_toNat,
        kPefBaseOrigin_toNat]
      omega
    · split
      · rename_i some
        exact (pefCheckContent_iff table).mpr (inside (BitVec.lt_def.mp some))
      · exact Traced.val_pure

end Checks

/-- The header is one of the table's, from index `low` on and before `high`, and name and kind select it. -/
structure Selected (m : Memory) (blob : UIntPtr) (name : Option (List Byte)) (kind : BitVec 32)
    (low high : Nat) (hdr : Image) : Prop where
  listed : ∃ k, low ≤ k ∧ k < high ∧ hdr = window m (blob + BitVec.ofNat 64 (64 + k * 304)) 304
  kind : (PEFCommandHeader.Kind.get hdr).setWidth 32 = kind
  name : pefNameEq (read hdr PEFCommandHeader.Name kPefNameLen) name = true

section Search
variable {m : Memory} {blob : UIntPtr} {len tableSz i : SizeT} {isFat : Bool} {hdr : Image}
  {name : Option (List Byte)} {kind : BitVec 32} {left : Nat}

theorem header_next (small : i.toNat < 64) : (i + 1).toNat = i.toNat + 1 := by
  have one : (1 : SizeT).toNat = 1 := rfl
  rw [BitVec.toNat_add, one]
  omega

theorem header_address : blob + BitVec.ofNat 64 64 + i * BitVec.ofNat 64 304 =
    blob + BitVec.ofNat 64 (64 + i.toNat * 304) := by
  rw [BitVec.ofNat_add, BitVec.ofNat_mul, BitVec.ofNat_toNat, BitVec.setWidth_eq, BitVec.add_assoc]

theorem pefFindFrom_sound (table : 64 + tableSz.toNat < 2 ^ 64) (few : i.toNat + left ≤ 64)
    (room : 64 + (i.toNat + left) * 304 ≤ len.toNat) :
    Traced.Only (Sound blob len) (pefFindFrom m blob len tableSz isFat name kind left i) := by
  induction left generalizing i with
  | zero => exact Traced.only_pure
  | succ left ih =>
      have next := header_next (i := i) (by omega)
      have later := ih (i := i + 1) (by omega) (by rw [next, Nat.add_right_comm]; exact room)
      have product : (i * BitVec.ofNat 64 304).toNat = i.toNat * 304 := by
        rw [BitVec.toNat_mul, BitVec.toNat_ofNat, Nat.mod_eq_of_lt]
        omega
      have inside : Covers blob len.toNat (blob + BitVec.ofNat 64 (64 + i.toNat * 304)) 304 :=
        covers_offset (by omega)
      rw [pefFindFrom]
      simp only [Traced.only_ite, Traced.only_pure, Traced.only_bind, only_mulWord, only_fetch,
        mulWord_val]
      refine ⟨fun wrap => ?_, ⟨?_, trivial⟩, fun _ => later, fun _ => ⟨fun _ => later, fun _ => ?_⟩⟩
      · rw [PEFCommandHeader.size, BitVec.toNat_ofNat] at wrap
        omega
      · rw [PEFContainer.size, PEFCommandHeader.size, header_address]
        exact inside
      · exact ⟨pefCheckSection_sound table, trivial⟩

theorem pefFindFrom_some (table : 64 + tableSz.toNat < 2 ^ 64)
    (found : (pefFindFrom m blob len tableSz isFat name kind left i).val = some hdr) :
    SectionBounds len.toNat (64 + tableSz.toNat) hdr := by
  induction left generalizing i with
  | zero => cases found
  | succ left ih =>
      rw [pefFindFrom] at found
      simp only [Traced.val_ite, Traced.val_pure, Traced.val_bind] at found
      split_ifs at found with other unlike accepted
      · exact ih found
      · exact ih found
      · obtain rfl := Option.some.inj found
        exact ((pefCheckSection_iff table).mp accepted).2

/-- The size of the header table, which the container's checks keep in the blob. -/
theorem table_size (few : (PEFContainer.Count.get hdr).toNat ≤ 64) :
    (PEFContainer.Count.get hdr * BitVec.ofNat 64 PEFCommandHeader.size).toNat =
      (PEFContainer.Count.get hdr).toNat * 304 := by
  rw [BitVec.toNat_mul, PEFCommandHeader.size, BitVec.toNat_ofNat, Nat.mod_eq_of_lt]
  omega

theorem pefFindSection_sound :
    Traced.Only (Sound blob len) (pefFindSection m blob len name kind) := by
  unfold pefFindSection
  refine Traced.only_bind.mpr ⟨pefReadContainer_sound, ?_⟩
  cases container : (pefReadContainer m blob len).val with
  | none => exact Traced.only_pure
  | some container =>
      obtain ⟨-, -, few, room⟩ := pefReadContainer_some container
      have size := table_size few
      simp only [Traced.only_bind, only_mulWord, mulWord_val]
      refine ⟨fun wrap => ?_, pefFindFrom_sound ?_ ?_ ?_⟩
      · rw [PEFCommandHeader.size, BitVec.toNat_ofNat] at wrap
        omega
      · omega
      · simpa using few
      · simpa using room

theorem pefFindSection_some (found : (pefFindSection m blob len name kind).val = some hdr) :
    SectionBounds len.toNat (64 + (PEFContainer.Count.on m blob).toNat * 304) hdr := by
  simp only [pefFindSection, Traced.val_bind] at found
  cases container : (pefReadContainer m blob len).val with
  | none =>
      rw [container] at found
      cases found
  | some container =>
      obtain ⟨rfl, -, few, room⟩ := pefReadContainer_some container
      rw [container] at found
      simp only [Traced.val_bind, mulWord_val] at found
      have size := table_size few
      have bounds := pefFindFrom_some (by omega) found
      rwa [size, PEFContainer.Count.get_window (by decide)] at bounds

theorem Selected.later (small : i.toNat < 64)
    (selected : Selected m blob name kind (i + 1).toNat ((i + 1).toNat + left) hdr) :
    Selected m blob name kind i.toNat (i.toNat + (left + 1)) hdr := by
  obtain ⟨⟨k, low, high, same⟩, ofKind, named⟩ := selected
  rw [header_next small] at low high
  exact ⟨⟨k, by omega, by omega, same⟩, ofKind, named⟩

theorem pefFindFrom_selected (few : i.toNat + left ≤ 64)
    (found : (pefFindFrom m blob len tableSz isFat name kind left i).val = some hdr) :
    Selected m blob name kind i.toNat (i.toNat + left) hdr := by
  induction left generalizing i with
  | zero => cases found
  | succ left ih =>
      rw [pefFindFrom] at found
      simp only [Traced.val_ite, Traced.val_pure, Traced.val_bind, fetch_val, mulWord_val] at found
      split_ifs at found with other unlike accepted
      · exact Selected.later (by omega) (ih (header_next (i := i) (by omega) ▸ by omega) found)
      · exact Selected.later (by omega) (ih (header_next (i := i) (by omega) ▸ by omega) found)
      · obtain rfl := Option.some.inj found
        refine ⟨⟨i.toNat, le_rfl, by omega, ?_⟩, not_not.mp other, by simpa using unlike⟩
        rw [← header_address]
        rfl

theorem pefFindSection_selected (found : (pefFindSection m blob len name kind).val = some hdr) :
    Selected m blob name kind 0 (PEFContainer.Count.on m blob).toNat hdr := by
  simp only [pefFindSection, Traced.val_bind] at found
  cases container : (pefReadContainer m blob len).val with
  | none =>
      rw [container] at found
      cases found
  | some container =>
      obtain ⟨rfl, -, few, -⟩ := pefReadContainer_some container
      rw [container] at found
      simp only [Traced.val_bind, mulWord_val] at found
      have selected := pefFindFrom_selected (by simpa using few) found
      have zero : (0 : SizeT).toNat = 0 := rfl
      rwa [PEFContainer.Count.get_window (by decide), zero, Nat.zero_add] at selected

/-- What `pef_find_section` promises of the header it accepts, and of the way to it. -/
theorem pefFindSection_validated (m : Memory) (blob : UIntPtr) (len : SizeT) (name : Option (List Byte))
    (kind : BitVec 32) (hdr : Image) (found : (pefFindSection m blob len name kind).val = some hdr) :
    Traced.Only (Sound blob len) (pefFindSection m blob len name kind) ∧
    Selected m blob name kind 0 (PEFContainer.Count.on m blob).toNat hdr ∧
    SectionBounds len.toNat (64 + (PEFContainer.Count.on m blob).toNat * 304) hdr :=
  ⟨pefFindSection_sound, pefFindSection_selected found, pefFindSection_some found⟩

/-! ## A container -/

def mainName : List Byte := [0x2E, 0x63, 0x6F, 0x64, 0x65, 0x36, 0x34, 0x6D, 0x61, 0x69, 0x6E]

/-- The code section `main`, of `sz` bytes at `va` and with the `n` bytes of content from `off` on. -/
def codeHeader (va sz off n : Nat) : List Byte :=
  chars mainName 256 ++ leBytes 4 1 ++
    leBytes 8 0 ++ leBytes 2 0xC ++ leBytes 8 off ++ leBytes 8 n ++ leBytes 8 va ++ leBytes 8 sz ++ leBytes 2 0

/-- Three headers, the first of which is `codeHeader`, and `content` behind them. -/
def containerBytes (va sz : Nat) (content : List Byte) : List Byte :=
  kPefMagic ++ leBytes 12 0 ++ leBytes 4 0x5046 ++ leBytes 4 1 ++ leBytes 20 0 ++ leBytes 8 3 ++ leBytes 11 0 ++
    codeHeader va sz 976 content.length ++ leBytes 608 0 ++ content

def containerAt (blob : UIntPtr) (va sz : Nat) (content : List Byte) : Memory :=
  write (fun _ => 0) blob (containerBytes va sz content)

def mainAt : UIntPtr := 0x1000
def mainBlob : Memory := containerAt mainAt 0x40000000 8 [1, 2]

theorem pefFindSection_validated_main :
    ∃ hdr, (pefFindSection mainBlob mainAt 978 (some mainName) kPefCode).val = some hdr ∧
      Traced.Only (Sound mainAt 978) (pefFindSection mainBlob mainAt 978 (some mainName) kPefCode) ∧
      Selected mainBlob mainAt (some mainName) kPefCode 0 (PEFContainer.Count.on mainBlob mainAt).toNat hdr ∧
      SectionBounds (978 : SizeT).toNat (64 + (PEFContainer.Count.on mainBlob mainAt).toNat * 304) hdr := by
  have accepted : (pefFindSection mainBlob mainAt 978 (some mainName) kPefCode).val.isSome = true := by
    decide +kernel
  obtain ⟨hdr, found⟩ := Option.isSome_iff_exists.mp accepted
  exact ⟨hdr, found, pefFindSection_validated _ _ _ _ _ hdr found⟩

end Search

end Ne.Kernel.Ldr
