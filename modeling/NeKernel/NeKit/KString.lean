import NeKernel.Lib.PaddedText
import NeKernel.Machine

/-!
# Kernel strings

`KBasicString` owns a buffer of `fDataSz` characters and appends at `fCur`. Only a string made for a size
has room for anything: a string made from a text gets as many characters as the text has, and the appends
do not ask for room. What is appended is measured again after the copy to move the cursor.
-/

namespace Ne.Kernel
open ByteMem
open Access (WritesIn writesIn_write)

def oeStringLen (m : Memory) (str : UIntPtr) : ℕ := if str = 0 then 0 else strLen m str

def kMinimumStringSize : BitVec 32 := 8196

structure KBasicString where
  fData : UIntPtr
  fDataSz : SizeT
  fCur : SizeT
  deriving DecidableEq

/-- `ort_string_append`, whose cursor is an `Int32`. -/
def ortStringAppend (lhs rhs : UIntPtr) (cur : BitVec 32) (m : Memory) : Traced Access Memory :=
  copyWords 1 (oeStringLen m rhs) (lhs + cur.signExtend 64) rhs m

namespace KBasicString

/-- A buffer for `size` characters at `data`, where `new` answered null if it found none. -/
def allocate (size : SizeT) (data : UIntPtr) (m : Memory) : Traced Access (KBasicString × Memory) :=
  if data = 0 then pure (⟨0, size, 0⟩, m)
  else .emit (.write data size.toNat) (⟨data, size, 0⟩, rtSetMemory data 0 size.toNat m)

/-- `operator+=(const CharKind*)`. -/
def append (s : KBasicString) (rhs : UIntPtr) (m : Memory) : Traced Access (KBasicString × Memory) := do
  let m ← ortStringAppend s.fData rhs (s.fCur.setWidth 32) m
  pure ({ s with fCur := s.fCur + BitVec.ofNat 64 (oeStringLen m rhs) }, m)

/-- `operator+=(const KBasicString&)`. -/
def appendString (s rhs : KBasicString) (m : Memory) : Traced Access (KBasicString × Memory) :=
  if s.fDataSz.toNat < oeStringLen m rhs.fData then pure (s, m) else s.append rhs.fData m

/-- `KBasicString(const CharKind*)`. -/
def ofText (text data : UIntPtr) (m : Memory) : Traced Access (KBasicString × Memory) := do
  let made ← allocate (BitVec.ofNat 64 (oeStringLen m text)) data m
  if made.1.fData = 0 then pure made else made.1.append text made.2

/-- `KBasicString(SizeT)`, which stops the kernel where the size is not above one. -/
def ofSize (size : SizeT) (data : UIntPtr) (m : Memory) : Option (Traced Access (KBasicString × Memory)) :=
  if size.toNat ≤ 1 then none else some (allocate size data m)

/-- The characters at `fData`. -/
def room (s : KBasicString) : ℕ := if s.fData = 0 then 0 else s.fDataSz.toNat

end KBasicString

/-- `KStringBuilder::Construct`, with the answers of `new` for the object and for its buffer. The kernel stops at the
first access through a null object. -/
def construct (data view buffer : UIntPtr) (m : Memory) :
    Option (Except Int (Traced Access (KBasicString × Memory))) :=
  if data = 0 ∨ m data = 0 then some (.error (-kErrorInvalidData))
  else if view = 0 then none
  else (KBasicString.ofSize (BitVec.ofNat 64 (oeStringLen m data)) buffer m).map fun made => .ok do
    let made ← made
    made.1.append data made.2

/-! ## One string -/

/-- A string with what was appended to it. -/
structure Entry where
  string : KBasicString
  appended : List Byte

def charactersAt (m : Memory) (str : UIntPtr) : List Byte := read m str (oeStringLen m str)

/-- What was appended so far, with the characters at `rhs`. -/
def Entry.more (e : Entry) (m : Memory) (rhs : UIntPtr) : List Byte := e.appended ++ charactersAt m rhs

/-- A text that a caller hands over: null, or the characters of a string. -/
def Given (m : Memory) (text : UIntPtr) : Prop := text = 0 ∨ ∃ characters, Text m text characters

/-- The buffer holds what was appended, with its terminator, and the cursor is inside. -/
structure Entry.Sound (m : Memory) (e : Entry) : Prop where
  present : e.string.fData ≠ 0
  cursor : e.string.fCur.toNat < e.string.fDataSz.toNat
  holds : HoldsText m e.string.fData e.string.fDataSz.toNat e.appended

/-- Where an append stores its first character. -/
def KBasicString.at (s : KBasicString) : ℕ := ((s.fCur.setWidth 32).signExtend 64).toNat

/-- The cursor after an append: a string that is appended to itself has grown before it is measured. -/
def Entry.cursorAfter (e : Entry) (rhs : UIntPtr) (n : ℕ) : SizeT :=
  e.string.fCur + BitVec.ofNat 64
    (if rhs + BitVec.ofNat 64 n = e.string.fData + BitVec.ofNat 64 e.appended.length then n + n else n)

/-- The append stores at the end of what is there, with room for a terminator, and leaves the cursor inside. -/
structure Entry.HasRoom (e : Entry) (rhs : UIntPtr) (n : ℕ) : Prop where
  behind : e.string.at = e.appended.length
  short : e.appended.length + n < e.string.fDataSz.toNat
  cursor : (e.cursorAfter rhs n).toNat < e.string.fDataSz.toNat

def Entry.Takes (e : Entry) (m : Memory) (rhs : UIntPtr) : Prop :=
  oeStringLen m rhs = 0 ∨ e.HasRoom rhs (oeStringLen m rhs)

section Append
variable {m : Memory} {e : Entry} {rhs : UIntPtr} {P : Access → Prop} {base : UIntPtr} {len : ℕ}

theorem charactersAt_length : (charactersAt m rhs).length = oeStringLen m rhs := read_length

theorem oeStringLen_text {text : List Byte} (here : Text m rhs text) : oeStringLen m rhs = text.length := by
  rw [oeStringLen, if_neg here.nonnull, here.strLen_eq]

theorem charactersAt_text {text : List Byte} (here : Text m rhs text) : charactersAt m rhs = text := by
  rw [charactersAt, oeStringLen_text here, here.read_take le_rfl, List.take_length]

theorem Given.text (given : Given m rhs) (some : oeStringLen m rhs ≠ 0) : Text m rhs (charactersAt m rhs) := by
  rcases given with null | ⟨characters, here⟩
  · exact absurd (if_pos null) some
  · rwa [charactersAt_text here]

theorem at_word (s : KBasicString) : (s.fCur.setWidth 32).signExtend 64 = BitVec.ofNat 64 s.at := by
  rw [KBasicString.at, BitVec.ofNat_toNat, BitVec.setWidth_eq]

theorem append_fData (s : KBasicString) : (s.append rhs m).val.1.fData = s.fData := by
  rw [KBasicString.append, Traced.val_bind, Traced.val_pure]

theorem append_fDataSz (s : KBasicString) : (s.append rhs m).val.1.fDataSz = s.fDataSz := by
  rw [KBasicString.append, Traced.val_bind, Traced.val_pure]

theorem append_room (s : KBasicString) : (s.append rhs m).val.1.room = s.room := by
  rw [KBasicString.room, KBasicString.room, append_fData, append_fDataSz]

theorem append_fCur (s : KBasicString) : (s.append rhs m).val.1.fCur =
    s.fCur + BitVec.ofNat 64 (oeStringLen (s.append rhs m).val.2 rhs) := by
  rw [KBasicString.append, Traced.val_bind, Traced.val_pure]

theorem append_same (s : KBasicString) :
    SameOutside (s.fData + BitVec.ofNat 64 s.at) (oeStringLen m rhs) m (s.append rhs m).val.2 := by
  have same : SameOutside (s.fData + BitVec.ofNat 64 s.at) (oeStringLen m rhs * 1) m
      (copyWords 1 (oeStringLen m rhs) (s.fData + BitVec.ofNat 64 s.at) rhs m).val := copyWords_same
  rw [Nat.mul_one] at same
  rwa [KBasicString.append, Traced.val_bind, Traced.val_pure, ortStringAppend, at_word]

theorem append_writes (s : KBasicString) : Traced.Only (WritesIn base len) (s.append rhs m) ↔
    Covers base len (s.fData + BitVec.ofNat 64 s.at) (oeStringLen m rhs) := by
  rw [KBasicString.append, Traced.only_bind, ortStringAppend, ← at_word, copyWords_writes, Nat.mul_one]
  exact and_iff_left Traced.only_pure

theorem append_empty (s : KBasicString) (empty : oeStringLen m rhs = 0) : (s.append rhs m).val = (s, m) := by
  have same : (ortStringAppend s.fData rhs (s.fCur.setWidth 32) m).val = m := by
    rw [ortStringAppend, empty, copyWords, Traced.val_pure]
  rw [KBasicString.append, Traced.val_bind, Traced.val_pure, same, empty, BitVec.add_zero]

/-- What is appended at the end of a string that has room for it. -/
theorem append_val (padded : Padded m e.string.fData e.string.fDataSz.toNat e.appended) (given : Given m rhs)
    (some : oeStringLen m rhs ≠ 0) (behind : e.string.at = e.appended.length)
    (short : e.appended.length + oeStringLen m rhs < e.string.fDataSz.toNat) :
    (e.string.append rhs m).val = ({ e.string with fCur := e.cursorAfter rhs (oeStringLen m rhs) },
      write m (e.string.fData + BitVec.ofNat 64 e.appended.length) (charactersAt m rhs)) := by
  have here := given.text some
  rw [← charactersAt_length] at short
  have copied : (ortStringAppend e.string.fData rhs (e.string.fCur.setWidth 32) m).val =
      write m (e.string.fData + BitVec.ofNat 64 e.appended.length) (charactersAt m rhs) := by
    have clear := padded.source short here
    have fits := padded.fits
    rw [charactersAt_length] at clear short
    rw [ortStringAppend, at_word, behind, copyWords_moves (by omega) (by rwa [Nat.mul_one]), Nat.mul_one]
    rfl
  have grown := padded.grown short here
  rw [KBasicString.append, Traced.val_bind, Traced.val_pure, copied, oeStringLen_text grown, Entry.cursorAfter,
    apply_ite List.length, List.length_append, charactersAt_length]

section Room
variable (padded : Padded m e.string.fData e.string.fDataSz.toNat e.appended) (given : Given m rhs)
include padded given

theorem append_padded (takes : e.Takes m rhs) :
    Padded (e.string.append rhs m).val.2 e.string.fData e.string.fDataSz.toNat (e.more m rhs) := by
  by_cases empty : oeStringLen m rhs = 0
  · have nothing : charactersAt m rhs = [] := List.eq_nil_of_length_eq_zero (charactersAt_length.trans empty)
    rw [append_empty _ empty, Entry.more, nothing, List.append_nil]
    exact padded
  · obtain ⟨behind, short, -⟩ := takes.resolve_left empty
    rw [append_val padded given empty behind short]
    exact padded.append (charactersAt_length ▸ short) (given.text empty).characters

/-- An append leaves a sound string behind exactly if it takes what is appended. -/
theorem append_sound_iff (sound : e.Sound m) :
    (Traced.Only (WritesIn e.string.fData e.string.room) (e.string.append rhs m) ∧
      (⟨(e.string.append rhs m).val.1, e.more m rhs⟩ : Entry).Sound (e.string.append rhs m).val.2) ↔
      e.Takes m rhs := by
  have room : e.string.room = e.string.fDataSz.toNat := if_neg sound.present
  rw [append_writes, room]
  by_cases empty : oeStringLen m rhs = 0
  · have nothing : charactersAt m rhs = [] := List.eq_nil_of_length_eq_zero (charactersAt_length.trans empty)
    refine iff_of_true ⟨?_, ?_⟩ (.inl empty)
    · rw [empty]
      exact covers_zero
    · rw [append_empty _ empty, Entry.more, nothing, List.append_nil]
      exact sound
  have here := given.text empty
  have some : charactersAt m rhs ≠ [] := fun nothing => empty (charactersAt_length.symm.trans (congrArg _ nothing))
  constructor
  · rintro ⟨-, after⟩
    have longer := after.holds
    rw [append_fData, append_fDataSz] at longer
    have short : (e.more m rhs).length < e.string.fDataSz.toNat := longer.short
    rw [Entry.more, List.length_append, charactersAt_length] at short
    have same : SameOutside (e.string.fData + BitVec.ofNat 64 e.string.at) (charactersAt m rhs).length m _ :=
      charactersAt_length (m := m) ▸ append_same e.string
    have behind : e.string.at = e.appended.length := by
      have fits := padded.fits
      have word : e.string.at < 2 ^ 64 := BitVec.isLt _
      have place := congrArg BitVec.toNat ((BitVec.add_right_inj _).mp (padded.lands same longer some))
      rwa [BitVec.toNat_ofNat, BitVec.toNat_ofNat, Nat.mod_eq_of_lt word, Nat.mod_eq_of_lt (by omega)] at place
    have cursor := after.cursor
    rw [append_val padded given empty behind short] at cursor
    exact .inr ⟨behind, short, cursor⟩
  · rintro (none | ⟨behind, short, cursor⟩)
    · exact absurd none empty
    have value := append_val padded given empty behind short
    have longer := padded.append (charactersAt_length ▸ short) here.characters
    refine ⟨?_, ?_⟩
    · rw [behind]
      exact covers_offset short.le
    · rw [value]
      exact ⟨sound.present, cursor, longer.holds⟩

end Room

end Append

/-! ## New strings -/

section New
variable {m m' : Memory} {size : SizeT} {data text : UIntPtr} {appended : List Byte} {P : Access → Prop}

theorem allocate_null : (KBasicString.allocate size 0 m).val = (⟨0, size, 0⟩, m) := by
  rw [KBasicString.allocate, if_pos rfl, Traced.val_pure]

theorem allocate_val (present : data ≠ 0) : (KBasicString.allocate size data m).val =
    (⟨data, size, 0⟩, write m data (List.replicate size.toNat 0)) := by
  have zero : (0 : BitVec 32).setWidth 8 = 0 := rfl
  rw [KBasicString.allocate, if_neg present, Traced.val_emit, rtSetMemory, if_neg present, zero]

theorem only_allocate (present : data ≠ 0) :
    Traced.Only P (KBasicString.allocate size data m) ↔ P (.write data size.toNat) := by
  rw [KBasicString.allocate, if_neg present, Traced.only_emit]

theorem allocate_same (present : data ≠ 0) :
    SameOutside data size.toNat m (KBasicString.allocate size data m).val.2 := by
  rw [allocate_val present]
  exact fun x outside => write_outside (by rwa [List.length_replicate])

theorem allocated (present : data ≠ 0) (some : size ≠ 0) (fits : data.toNat + size.toNat ≤ 2 ^ 64) :
    (⟨(KBasicString.allocate size data m).val.1, []⟩ : Entry).Sound (KBasicString.allocate size data m).val.2 ∧
      Padded (KBasicString.allocate size data m).val.2 (KBasicString.allocate size data m).val.1.fData
        (KBasicString.allocate size data m).val.1.fDataSz.toNat [] := by
  have positive : 0 < size.toNat := Nat.pos_of_ne_zero fun zero => some (BitVec.eq_of_toNat_eq zero)
  have padded : Padded (write m data (List.replicate size.toNat 0)) data size.toNat [] := padded_cleared fits positive
  rw [allocate_val present]
  exact ⟨⟨present, positive, padded.holds⟩, padded⟩

theorem oeStringLen_same (given : Given m text) (same : SameInside text (oeStringLen m text + 1) m m') :
    oeStringLen m' text = oeStringLen m text := by
  rcases given with null | ⟨characters, here⟩
  · rw [oeStringLen, oeStringLen, if_pos null, if_pos null]
  · rw [oeStringLen_text here] at same ⊢
    exact oeStringLen_text (here.congr same)

section Filled
variable (given : Given m text) (apart : data ≠ 0 → Apart text (oeStringLen m text + 1) data (oeStringLen m text))
include given apart

/-- A string that is made with as many characters as its text has is full, without a terminator. -/
theorem filled_unsound (made : KBasicString × Memory)
    (new : (KBasicString.allocate (BitVec.ofNat 64 (oeStringLen m text)) data m).val = made) :
    ¬ Entry.Sound m' ⟨(made.1.append text made.2).val.1, appended⟩ := by
  rintro ⟨present, cursor, -⟩
  dsimp only at present cursor
  rw [append_fData] at present
  rw [append_fDataSz] at cursor
  by_cases null : data = 0
  · subst null
    rw [allocate_null] at new
    exact present (new ▸ rfl)
  have small : oeStringLen m text < 2 ^ 64 := by
    rcases given with empty | ⟨characters, here⟩
    · rw [oeStringLen, if_pos empty]
      decide
    · have fits := here.fits
      rw [oeStringLen_text here]
      omega
  have kept {n n' : Memory} (same : SameOutside data (oeStringLen m text) n n') :
      SameInside text (oeStringLen m text + 1) n n' :=
    fun x inside => same x (apart null x inside)
  -- neither the fill nor the copy touches the text
  have cleared : SameInside text (oeStringLen m text + 1) m made.2 := by
    refine kept ?_
    have same := @allocate_same m (BitVec.ofNat 64 (oeStringLen m text)) _ null
    rwa [new, BitVec.toNat_ofNat, Nat.mod_eq_of_lt small] at same
  have first := oeStringLen_same given cleared
  have copied : SameInside text (oeStringLen m text + 1) made.2 (made.1.append text made.2).val.2 := by
    refine kept ?_
    have same := @append_same made.2 text made.1
    rw [first] at same
    rw [allocate_val null] at new
    have start : made.1.fData + BitVec.ofNat 64 made.1.at = data := by
      rw [← new]
      exact BitVec.add_zero data
    rwa [start] at same
  have last := oeStringLen_same given (cleared.trans copied)
  rw [append_fCur, last, ← new, allocate_val null] at cursor
  have full : (0 : SizeT) + BitVec.ofNat 64 (oeStringLen m text) = BitVec.ofNat 64 (oeStringLen m text) :=
    BitVec.zero_add _
  dsimp only at cursor
  rw [full] at cursor
  exact absurd cursor (lt_irrefl _)

theorem ofText_unsound : ¬ Entry.Sound m' ⟨(KBasicString.ofText text data m).val.1, appended⟩ := by
  rw [KBasicString.ofText, Traced.val_bind, Traced.val_ite]
  split
  · rename_i null
    exact fun sound => sound.present null
  · exact filled_unsound given apart _ rfl

end Filled

end New

end Ne.Kernel
