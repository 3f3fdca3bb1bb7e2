import NeKernel.Lib.Terminated
import NeKernel.Lib.TracedLoop
import NeKernel.Machine
import Mathlib.Logic.Function.Basic

/-!
# Reading JSON

The reader collects every key of its input in one buffer and every value in another, and both lengths
only grow. The buffers are the ranges of `kNeJsonMaxLen` characters at which the object's data point, though
the constructor of the object copies the strings by value and has released both ranges when it returns.
The input is apart from them. A character is judged by its position in its own buffer.
-/

namespace Ne.Kernel.BasicJsonStreamReader
open ByteMem Loops

def kNeJsonMaxLen : ℕ := 8196

/-- A character of the input that is read, or one of a buffer that is written. -/
inductive JsonAccess
  | input (i : ℕ)
  | key (i : ℕ)
  | value (i : ℕ)
  deriving DecidableEq

/-- `JsonObject`, with the characters at which its two strings point. -/
structure JsonObject where
  fUndefined : Bool
  fKey : ℕ → Byte
  fValue : ℕ → Byte

/-- The variables of the loop. -/
structure Reader where
  type : JsonObject
  i : ℕ
  keyLen : ℕ
  valueLen : ℕ
  probeValue : Bool

def Reader.putKey (s : Reader) (c : Byte) : Traced JsonAccess Reader :=
  .emit (.key s.keyLen) { s with type := { s.type with fKey := Function.update s.type.fKey s.keyLen c } }

def Reader.putValue (s : Reader) (c : Byte) : Traced JsonAccess Reader :=
  .emit (.value s.valueLen) { s with type := { s.type with fValue := Function.update s.type.fValue s.valueLen c } }

def fullArrayAt (m : Memory) (fullArray : UIntPtr) (i : ℕ) : Traced JsonAccess Byte :=
  .emit (.input i) (m (fullArray + BitVec.ofNat 64 i))

/-- `rt_string_len`, which reads up to the terminator. -/
def fullArrayLen (m : Memory) (fullArray : UIntPtr) : Traced JsonAccess ℕ :=
  .emit (.input (strLen m fullArray)) (strLen m fullArray)

/-- The loop behind a colon. It would go round the address space for ever. -/
def skipBlanks (m : Memory) (fullArray : UIntPtr) : ℕ → ℕ → Traced JsonAccess (Option ℕ)
  | 0, _ => pure none
  | fuel + 1, i => do
      let c ← fullArrayAt m fullArray i
      if c = 0x20 ∨ c = 0x09 then skipBlanks m fullArray fuel (i + 1) else pure (some i)

/-- What the loop does with its `i`th character. -/
def roundOn (m : Memory) (fullArray : UIntPtr) (startVal endVal c : Byte) (s : Reader) :
    Traced JsonAccess (Turn Reader Reader) :=
  if c = 0x0D ∨ c = 0x0A then pure (.again { s with i := s.i + 1 })
  else if s.probeValue then
    if c = endVal ∨ c = 0x2C then
      pure (.again { s with i := s.i + 1, valueLen := s.valueLen + 1, probeValue := false })
    else if c = 0x27 then do
      let s ← s.putValue 0
      pure (.done s)
    else do
      let s ← s.putValue c
      pure (.again { s with i := s.i + 1, valueLen := s.valueLen + 1 })
  else if startVal = 0x5B then pure (.again { s with i := s.i + 1 })
  else if c = 0x3A then do
    let s ← s.putKey 0
    let found ← skipBlanks m fullArray addressCount (s.i + 1)
    match found with
    -- the `for` steps over the character that ends the blanks
    | some i => pure (.again { s with i := i + 1, keyLen := s.keyLen + 1, probeValue := true })
    | none => pure (.again s)
  else do
    let s ← s.putKey c
    pure (.again { s with i := s.i + 1, keyLen := s.keyLen + 1 })

def round (m : Memory) (fullArray : UIntPtr) (startVal endVal : Byte) (len : ℕ) (s : Reader) :
    Traced JsonAccess (Turn Reader Reader) :=
  if len ≤ s.i then pure (.done s)
  else do
    let c ← fullArrayAt m fullArray s.i
    roundOn m fullArray startVal endVal c s

def Reader.start (probeValue : Bool) : Reader := ⟨⟨false, fun _ => 0, fun _ => 0⟩, 1, 0, 0, probeValue⟩

/-- The rest of `In`, once the first character is known. -/
def readFrom (m : Memory) (fullArray : UIntPtr) (startVal endVal : Byte) (probeValue : Bool) (fuel : ℕ) :
    Traced JsonAccess (Option JsonObject) := do
  let len ← fullArrayLen m fullArray
  let last ← Traced.loop (round m fullArray startVal endVal len) fuel (.start probeValue)
  match last with
  | none => pure none
  | some s => do
      let s ← s.putValue 0
      pure (some s.type)

/-- `BasicJsonStreamReader::ReadOnce`, which is `In`. Another first character asks for an object without
characters, and the check in the constructor of its strings stops the kernel. -/
def readOnce (m : Memory) (fullArray : UIntPtr) (fuel : ℕ) : Traced JsonAccess (Option JsonObject) := do
  let first ← fullArrayAt m fullArray 0
  if first ≠ 0x7B then
    if first ≠ 0x5B then pure none else readFrom m fullArray 0x5B 0x5D true fuel
  else readFrom m fullArray 0x7B 0x7D false fuel

/-! ## What becomes of the characters -/

/-- What the reader looks for at a character. -/
inductive Mode
  | key
  | blanks
  | value

/-- What a character is added to. A colon counts for the key, and the character that ends a value for the value. -/
inductive Part
  | key
  | value
  deriving DecidableEq

/-- The characters that are added to one of the two, in order. -/
def parts (startVal endVal : Byte) : Mode → List Byte → List Part
  | _, [] => []
  | .key, c :: rest =>
      if c = 0x0D ∨ c = 0x0A then parts startVal endVal .key rest
      else if startVal = 0x5B then parts startVal endVal .key rest
      else if c = 0x3A then .key :: parts startVal endVal .blanks rest
      else .key :: parts startVal endVal .key rest
  | .blanks, c :: rest =>
      if c = 0x20 ∨ c = 0x09 then parts startVal endVal .blanks rest
      else parts startVal endVal .value rest
  | .value, c :: rest =>
      if c = 0x0D ∨ c = 0x0A then parts startVal endVal .value rest
      else if c = endVal ∨ c = 0x2C then .value :: parts startVal endVal .key rest
      else if c = 0x27 then []
      else .value :: parts startVal endVal .value rest

/-- The room in a buffer that `new` answered with `data`. -/
def roomOf (data : UIntPtr) : ℕ := if data = 0 then 0 else kNeJsonMaxLen

/-- The keys and the values of a text find room, with a terminator behind the values. -/
def Fits (keyRoom valueRoom : ℕ) (text : List Part) : Prop :=
  text.count .key ≤ keyRoom ∧ text.count .value < valueRoom

/-- The text opens an object or an array whose keys and values find room. -/
def Readable (keyRoom valueRoom : ℕ) : List Byte → Prop
  | [] => False
  | c :: rest => (c = 0x7B ∧ Fits keyRoom valueRoom (parts 0x7B 0x7D .key rest)) ∨
      (c = 0x5B ∧ Fits keyRoom valueRoom (parts 0x5B 0x5D .value rest))

/-- An access to a character up to the terminator, or to one of its buffer. -/
def JsonAccess.Inside (len keyRoom valueRoom : ℕ) : JsonAccess → Prop
  | .input i => i ≤ len
  | .key i => i < keyRoom
  | .value i => i < valueRoom

/-- The reader returns, and until then every access is inside. -/
def ReadsSafely (m : Memory) (fullArray : UIntPtr) (text : List Byte) (keyRoom valueRoom : ℕ) : Prop :=
  (∀ fuel, Traced.Only (JsonAccess.Inside text.length keyRoom valueRoom) (readOnce m fullArray fuel)) ∧
    ∃ fuel object, (readOnce m fullArray fuel).val = some object

section Safety
variable {m : Memory} {fullArray : UIntPtr} {text : List Byte} {startVal endVal : Byte} {s s' : Reader}
  {P : JsonAccess → Prop} {c : Byte} {i fuel keyRoom valueRoom : ℕ}

@[simp] theorem inside_input {len : ℕ} :
    JsonAccess.Inside len keyRoom valueRoom (.input i) ↔ i ≤ len := Iff.rfl

@[simp] theorem inside_key {len : ℕ} :
    JsonAccess.Inside len keyRoom valueRoom (.key i) ↔ i < keyRoom := Iff.rfl

@[simp] theorem inside_value {len : ℕ} :
    JsonAccess.Inside len keyRoom valueRoom (.value i) ↔ i < valueRoom := Iff.rfl

@[simp] theorem only_putKey : Traced.Only P (s.putKey c) ↔ P (.key s.keyLen) := Traced.only_emit

@[simp] theorem only_putValue : Traced.Only P (s.putValue c) ↔ P (.value s.valueLen) := Traced.only_emit

@[simp] theorem only_fullArrayAt : Traced.Only P (fullArrayAt m fullArray i) ↔ P (.input i) := Traced.only_emit

@[simp] theorem only_fullArrayLen : Traced.Only P (fullArrayLen m fullArray) ↔ P (.input (strLen m fullArray)) :=
  Traced.only_emit

@[simp] theorem fullArrayLen_val : (fullArrayLen m fullArray).val = strLen m fullArray := Traced.val_emit

@[simp] theorem putKey_val : (s.putKey c).val =
    { s with type := { s.type with fKey := Function.update s.type.fKey s.keyLen c } } := Traced.val_emit

@[simp] theorem putValue_val : (s.putValue c).val =
    { s with type := { s.type with fValue := Function.update s.type.fValue s.valueLen c } } := Traced.val_emit

@[simp] theorem fullArrayAt_val : (fullArrayAt m fullArray i).val = m (fullArray + BitVec.ofNat 64 i) :=
  Traced.val_emit

/-- The parts of what is left of a text from the `i`th character on. -/
def partsFrom (startVal endVal : Byte) (text : List Byte) (mode : Mode) (i : ℕ) : List Part :=
  parts startVal endVal mode (text.drop i)

theorem partsFrom_end {mode : Mode} (behind : text.length ≤ i) : partsFrom startVal endVal text mode i = [] := by
  rw [partsFrom, List.drop_eq_nil_of_le behind]
  cases mode <;> rw [parts]

theorem partsFrom_at {mode : Mode} (below : i < text.length) :
    partsFrom startVal endVal text mode i = parts startVal endVal mode (text[i] :: text.drop (i + 1)) := by
  rw [partsFrom, List.drop_eq_getElem_cons below]

/-- The blanks behind a colon end inside the text, and one character more is passed. -/
theorem skipBlanks_ends (here : Text m fullArray text) (inside : i ≤ text.length) (long : text.length < fuel + i) :
    ∃ j, i ≤ j ∧ (skipBlanks m fullArray fuel i).val = some j ∧
      (∀ keyRoom valueRoom, Traced.Only (JsonAccess.Inside text.length keyRoom valueRoom)
        (skipBlanks m fullArray fuel i)) ∧
      partsFrom startVal endVal text .blanks i = partsFrom startVal endVal text .value (j + 1) := by
  induction fuel generalizing i with
  | zero => omega
  | succ fuel ih =>
      simp only [skipBlanks, Traced.val_bind, Traced.only_bind, only_fullArrayAt, fullArrayAt_val]
      by_cases blank : m (fullArray + BitVec.ofNat 64 i) = 0x20 ∨ m (fullArray + BitVec.ofNat 64 i) = 0x09
      · have below : i < text.length := by
          refine inside.lt_of_ne fun ends => ?_
          rw [ends, here.terminator] at blank
          exact absurd blank (by decide)
        obtain ⟨j, low, found, reads, same⟩ := ih below (by omega)
        simp only [if_pos blank]
        refine ⟨j, by omega, found, fun _ _ => ⟨inside, reads _ _⟩, ?_⟩
        rw [here.at below] at blank
        rw [← same, partsFrom_at below, parts, if_pos blank, partsFrom]
      · simp only [if_neg blank]
        refine ⟨i, le_rfl, Traced.val_pure, fun _ _ => ⟨inside, Traced.only_pure⟩, ?_⟩
        rcases Nat.eq_or_lt_of_le inside with ends | below
        · rw [partsFrom_end ends.ge, partsFrom_end (by omega)]
        · rw [here.at below] at blank
          rw [partsFrom_at below, parts, if_neg blank, partsFrom]

/-! ## Rounds of the loop -/

def Reader.mode (s : Reader) : Mode := if s.probeValue then .value else .key

def Reader.left (startVal endVal : Byte) (text : List Byte) (s : Reader) : List Part :=
  partsFrom startVal endVal text s.mode s.i

/-- A round that goes on takes the parts in `new` from those that are left, and it is inside if its key is. -/
structure Goes (m : Memory) (fullArray : UIntPtr) (startVal endVal : Byte) (text : List Byte) (s s' : Reader)
    (new : List Part) : Prop where
  turn : (round m fullArray startVal endVal text.length s).val = .again s'
  further : s.i < s'.i
  left : s.left startVal endVal text = new ++ s'.left startVal endVal text
  keys : s'.keyLen = s.keyLen + new.count .key
  values : s'.valueLen = s.valueLen + new.count .value
  inside : ∀ keyRoom valueRoom, s.keyLen ≤ keyRoom → s'.valueLen ≤ valueRoom →
    (Traced.Only (JsonAccess.Inside text.length keyRoom valueRoom) (round m fullArray startVal endVal text.length s) ↔
      s'.keyLen ≤ keyRoom)

/-- The round that ends the loop, behind the last character or at a quote. -/
structure Ends (m : Memory) (fullArray : UIntPtr) (startVal endVal : Byte) (text : List Byte) (s s' : Reader) :
    Prop where
  turn : (round m fullArray startVal endVal text.length s).val = .done s'
  left : s.left startVal endVal text = []
  values : s'.valueLen = s.valueLen
  inside : ∀ keyRoom valueRoom, s.valueLen < valueRoom →
    Traced.Only (JsonAccess.Inside text.length keyRoom valueRoom) (round m fullArray startVal endVal text.length s)

def Steps (m : Memory) (fullArray : UIntPtr) (startVal endVal : Byte) (text : List Byte) (s : Reader) : Prop :=
  (∃ s' new, Goes m fullArray startVal endVal text s s' new) ∨ ∃ s', Ends m fullArray startVal endVal text s s'

/-- The round that reads the character `c`, with `rest` behind it. -/
structure Reads (m : Memory) (fullArray : UIntPtr) (startVal endVal : Byte) (text : List Byte) (s : Reader)
    (c : Byte) (rest : List Byte) : Prop where
  value : (round m fullArray startVal endVal text.length s).val = (roundOn m fullArray startVal endVal c s).val
  only : ∀ keyRoom valueRoom,
    Traced.Only (JsonAccess.Inside text.length keyRoom valueRoom) (round m fullArray startVal endVal text.length s) ↔
      Traced.Only (JsonAccess.Inside text.length keyRoom valueRoom) (roundOn m fullArray startVal endVal c s)
  left : s.left startVal endVal text = parts startVal endVal s.mode (c :: rest)
  behind : text.drop (s.i + 1) = rest

theorem round_reads (here : Text m fullArray text) (startVal endVal : Byte) (below : s.i < text.length) :
    Reads m fullArray startVal endVal text s text[s.i] (text.drop (s.i + 1)) := by
  refine ⟨?_, fun keyRoom valueRoom => ?_, partsFrom_at below, rfl⟩
  · rw [round, if_neg (Nat.not_le_of_lt below), Traced.val_bind, fullArrayAt_val, here.at below]
  · rw [round, if_neg (Nat.not_le_of_lt below), Traced.only_bind, fullArrayAt_val, here.at below, only_fullArrayAt]
    exact and_iff_right below.le

theorem newline_steps {rest : List Byte} (reads : Reads m fullArray startVal endVal text s c rest)
    (newline : c = 0x0D ∨ c = 0x0A) : Steps m fullArray startVal endVal text s := by
  have ⟨value, only, left, behind⟩ := reads
  simp only [roundOn, if_pos newline] at value only
  refine .inl ⟨_, [], value.trans Traced.val_pure, Nat.lt_succ_self _, ?_, rfl, rfl,
    fun _ _ key _ => (only _ _).trans (iff_of_true Traced.only_pure key)⟩
  have skipped : parts startVal endVal s.mode (c :: rest) = parts startVal endVal s.mode rest := by
    rw [Reader.mode]
    split <;> rw [parts, if_pos newline]
  rw [left, skipped, ← behind]
  rfl

theorem value_steps {rest : List Byte} (reads : Reads m fullArray startVal endVal text s c rest)
    (newline : ¬ (c = 0x0D ∨ c = 0x0A)) (probe : s.probeValue = true) : Steps m fullArray startVal endVal text s := by
  have ⟨value, only, left, behind⟩ := reads
  simp only [Reader.mode, probe, if_true, parts, if_neg newline] at left
  simp only [roundOn, if_neg newline, probe, if_true] at value only
  by_cases closes : c = endVal ∨ c = 0x2C
  · rw [if_pos closes, ← behind] at left
    simp only [if_pos closes] at value only
    exact .inl ⟨_, [.value], value.trans Traced.val_pure, Nat.lt_succ_self _, left, rfl, rfl,
      fun _ _ key _ => (only _ _).trans (iff_of_true Traced.only_pure key)⟩
  rw [if_neg closes] at left
  simp only [if_neg closes] at value only
  by_cases quote : c = 0x27
  · rw [if_pos quote] at left
    simp only [if_pos quote, Traced.val_bind, Traced.only_bind, putValue_val, only_putValue] at value only
    exact .inr ⟨_, value.trans Traced.val_pure, left, rfl, fun _ _ room => (only _ _).mpr ⟨room, Traced.only_pure⟩⟩
  · rw [if_neg quote, ← behind] at left
    simp only [if_neg quote, Traced.val_bind, Traced.only_bind, putValue_val, only_putValue] at value only
    refine .inl ⟨_, [.value], value.trans Traced.val_pure, Nat.lt_succ_self _, ?_, rfl, rfl,
      fun _ _ key room => (only _ _).trans (iff_of_true ⟨room, Traced.only_pure⟩ key)⟩
    rw [left, Reader.left, Reader.mode, probe]
    rfl

theorem key_steps {rest : List Byte} (here : Text m fullArray text) (below : s.i < text.length)
    (reads : Reads m fullArray startVal endVal text s c rest) (newline : ¬ (c = 0x0D ∨ c = 0x0A))
    (probe : s.probeValue = false) : Steps m fullArray startVal endVal text s := by
  have ⟨value, only, left, behind⟩ := reads
  simp only [Reader.mode, probe, Bool.false_eq_true, if_false, parts, if_neg newline] at left
  simp only [roundOn, if_neg newline, probe, Bool.false_eq_true, if_false] at value only
  by_cases array : startVal = 0x5B
  · rw [if_pos array, ← behind] at left
    simp only [if_pos array] at value only
    exact .inl ⟨_, [], value.trans Traced.val_pure, Nat.lt_succ_self _, left, rfl, rfl,
      fun _ _ key _ => (only _ _).trans (iff_of_true Traced.only_pure key)⟩
  rw [if_neg array] at left
  simp only [if_neg array] at value only
  by_cases colon : c = 0x3A
  · have long : text.length < addressCount + (s.i + 1) := by
      have fits := here.fits
      unfold addressCount
      omega
    obtain ⟨j, low, found, blanks, same⟩ := skipBlanks_ends here (Nat.succ_le_of_lt below) long
    rw [if_pos colon, ← behind] at left
    simp only [if_pos colon, Traced.val_bind, Traced.only_bind, putKey_val, only_putKey, found] at value only
    exact .inl ⟨_, [.key], value.trans Traced.val_pure, Nat.lt_succ_of_lt low, left.trans (congrArg _ same), rfl, rfl,
      fun _ _ _ _ => (only _ _).trans (and_iff_left ⟨blanks _ _, Traced.only_pure⟩)⟩
  · rw [if_neg colon, ← behind] at left
    simp only [if_neg colon, Traced.val_bind, Traced.only_bind, putKey_val, only_putKey] at value only
    refine .inl ⟨_, [.key], value.trans Traced.val_pure, Nat.lt_succ_self _, ?_, rfl, rfl,
      fun _ _ _ _ => (only _ _).trans (and_iff_left Traced.only_pure)⟩
    rw [left, Reader.left, Reader.mode, probe]
    rfl

theorem round_steps (here : Text m fullArray text) (startVal endVal : Byte) (s : Reader) :
    Steps m fullArray startVal endVal text s := by
  by_cases behind : text.length ≤ s.i
  · refine .inr ⟨s, ?_, partsFrom_end behind, rfl, fun keyRoom valueRoom _ => ?_⟩
    · rw [round, if_pos behind, Traced.val_pure]
    · rw [round, if_pos behind]
      exact Traced.only_pure
  have below : s.i < text.length := Nat.lt_of_not_le behind
  have reads := round_reads here startVal endVal below
  by_cases newline : text[s.i] = 0x0D ∨ text[s.i] = 0x0A
  · exact newline_steps reads newline
  cases probe : s.probeValue with
  | true => exact value_steps reads newline probe
  | false => exact key_steps here below reads newline probe

/-! ## Runs of the loop -/

/-- The characters of keys, those that are in the buffer and those to come. -/
def Reader.keyTotal (startVal endVal : Byte) (text : List Byte) (s : Reader) : ℕ :=
  s.keyLen + (s.left startVal endVal text).count .key

def Reader.valueTotal (startVal endVal : Byte) (text : List Byte) (s : Reader) : ℕ :=
  s.valueLen + (s.left startVal endVal text).count .value

section Totals
variable {new : List Part} (goes : Goes m fullArray startVal endVal text s s' new)
include goes

theorem Goes.keyTotal_eq : s'.keyTotal startVal endVal text = s.keyTotal startVal endVal text := by
  rw [Reader.keyTotal, Reader.keyTotal, goes.keys, goes.left, List.count_append, Nat.add_assoc]

theorem Goes.valueTotal_eq : s'.valueTotal startVal endVal text = s.valueTotal startVal endVal text := by
  rw [Reader.valueTotal, Reader.valueTotal, goes.values, goes.left, List.count_append, Nat.add_assoc]

theorem Goes.below : s.i < text.length := by
  by_contra behind
  have turn := goes.turn
  rw [round, if_pos (Nat.le_of_not_lt behind), Traced.val_pure] at turn
  cases turn

end Totals

theorem Ends.keyTotal_eq (ends : Ends m fullArray startVal endVal text s s') :
    s.keyTotal startVal endVal text = s.keyLen := by
  rw [Reader.keyTotal, ends.left, List.count_nil, Nat.add_zero]

theorem Ends.valueTotal_eq (ends : Ends m fullArray startVal endVal text s s') :
    s.valueTotal startVal endVal text = s.valueLen := by
  rw [Reader.valueTotal, ends.left, List.count_nil, Nat.add_zero]

/-- The loop ends, with the lengths that its text gives. -/
theorem loop_returns (here : Text m fullArray text) (startVal endVal : Byte) (s : Reader) : ∃ fuel s',
    (Traced.loop (round m fullArray startVal endVal text.length) fuel s).val = some s' ∧
      s'.valueLen = s.valueTotal startVal endVal text := by
  induction more : text.length - s.i using Nat.strong_induction_on generalizing s with
  | _ n ih =>
      rcases round_steps here startVal endVal s with ⟨s', new, goes⟩ | ⟨s', ends⟩
      · have further := goes.further
        have below := goes.below
        obtain ⟨fuel, r, returned, length⟩ := ih (text.length - s'.i) (by omega) s' rfl
        exact ⟨fuel + 1, r, (Traced.loop_val_next goes.turn).trans returned, length.trans goes.valueTotal_eq⟩
      · exact ⟨1, s', Traced.loop_val_last ends.turn, ends.values.trans ends.valueTotal_eq.symm⟩

/-- As long as the values find room, the loop stays inside exactly if the keys do. -/
theorem loop_inside (here : Text m fullArray text) (s : Reader) (key : s.keyLen ≤ keyRoom)
    (value : s.valueTotal startVal endVal text < valueRoom) :
    (∀ fuel, Traced.Only (JsonAccess.Inside text.length keyRoom valueRoom)
      (Traced.loop (round m fullArray startVal endVal text.length) fuel s)) ↔
      s.keyTotal startVal endVal text ≤ keyRoom := by
  -- a round moves parts from the text to the buffers, so both totals stay what they are
  induction more : text.length - s.i using Nat.strong_induction_on generalizing s with
  | _ n ih =>
      rcases round_steps here startVal endVal s with ⟨s', new, goes⟩ | ⟨s', ends⟩
      · have further := goes.further
        have below := goes.below
        have later := goes.valueTotal_eq.trans_lt value
        have room : s'.valueLen ≤ valueRoom := (Nat.le_add_right _ _).trans later.le
        rw [Traced.only_loop_next goes.turn, goes.inside keyRoom valueRoom key room, ← goes.keyTotal_eq]
        constructor
        · rintro ⟨here', rounds⟩
          exact (ih (text.length - s'.i) (by omega) s' here' later rfl).mp rounds
        · intro total
          have here' : s'.keyLen ≤ keyRoom := (Nat.le_add_right _ _).trans total
          exact ⟨here', (ih (text.length - s'.i) (by omega) s' here' later rfl).mpr total⟩
      · rw [Traced.only_loop_last ends.turn, ends.keyTotal_eq]
        exact iff_of_true (ends.inside keyRoom valueRoom (ends.valueTotal_eq ▸ value)) key

section Opened
variable {probeValue : Bool} (here : Text m fullArray text)
include here

theorem readFrom_val : (readFrom m fullArray startVal endVal probeValue fuel).val =
    (Traced.loop (round m fullArray startVal endVal text.length) fuel (.start probeValue)).val.map
      fun s => { s.type with fValue := Function.update s.type.fValue s.valueLen 0 } := by
  simp only [readFrom, Traced.val_bind, fullArrayLen_val, here.strLen_eq]
  cases (Traced.loop _ fuel (Reader.start probeValue)).val with
  | none => exact Traced.val_pure
  | some s => simp only [Traced.val_bind, putValue_val, Traced.val_pure, Option.map_some]

theorem only_readFrom :
    Traced.Only (JsonAccess.Inside text.length keyRoom valueRoom)
      (readFrom m fullArray startVal endVal probeValue fuel) ↔
    Traced.Only (JsonAccess.Inside text.length keyRoom valueRoom)
        (Traced.loop (round m fullArray startVal endVal text.length) fuel (.start probeValue)) ∧
      ∀ s, (Traced.loop (round m fullArray startVal endVal text.length) fuel (.start probeValue)).val = some s →
        s.valueLen < valueRoom := by
  simp only [readFrom, Traced.only_bind, fullArrayLen_val, only_fullArrayLen, here.strLen_eq, inside_input, le_refl,
    true_and]
  refine and_congr_right fun _ => ?_
  cases (Traced.loop _ fuel (Reader.start probeValue)).val with
  | none => simp
  | some s => simp

theorem readFrom_returns (startVal endVal : Byte) (probeValue : Bool) :
    ∃ fuel object, (readFrom m fullArray startVal endVal probeValue fuel).val = some object := by
  obtain ⟨fuel, s, returned, -⟩ := loop_returns here startVal endVal (.start probeValue)
  exact ⟨fuel, _, (readFrom_val here).trans (by rw [returned, Option.map_some])⟩

theorem readFrom_inside : (∀ fuel, Traced.Only (JsonAccess.Inside text.length keyRoom valueRoom)
      (readFrom m fullArray startVal endVal probeValue fuel)) ↔
    Fits keyRoom valueRoom (Reader.left startVal endVal text (.start probeValue)) := by
  obtain ⟨enough, s, returned, length⟩ := loop_returns here startVal endVal (.start probeValue)
  have keys : (Reader.start probeValue).keyTotal startVal endVal text =
      (Reader.left startVal endVal text (.start probeValue)).count .key := Nat.zero_add _
  have values : (Reader.start probeValue).valueTotal startVal endVal text =
      (Reader.left startVal endVal text (.start probeValue)).count .value := Nat.zero_add _
  have inside (room : Reader.valueTotal startVal endVal text (.start probeValue) < valueRoom) :=
    loop_inside here (.start probeValue) (Nat.zero_le keyRoom) room
  rw [Fits, ← keys, ← values]
  constructor
  · intro only
    have rounds (fuel : ℕ) := (only_readFrom here).mp (only fuel)
    have room := length ▸ (rounds enough).2 s returned
    exact ⟨(inside room).mp fun fuel => (rounds fuel).1, room⟩
  · rintro ⟨key, room⟩ fuel
    refine (only_readFrom here).mpr ⟨(inside room).mpr key fuel, fun s' returned' => ?_⟩
    rw [Traced.loop_val] at returned returned'
    rw [(loop_steady _ _).unique returned' returned, length]
    exact room

end Opened

theorem readOnce_stopped (object : m (fullArray + BitVec.ofNat 64 0) ≠ 0x7B)
    (array : m (fullArray + BitVec.ofNat 64 0) ≠ 0x5B) : (readOnce m fullArray fuel).val = none := by
  rw [readOnce, Traced.val_bind, fullArrayAt_val, if_pos object, if_pos array, Traced.val_pure]

theorem readsSafely_iff (here : Text m fullArray text) :
    ReadsSafely m fullArray text keyRoom valueRoom ↔ Readable keyRoom valueRoom text := by
  have first := here.character (Nat.zero_le text.length)
  cases text with
  | nil =>
      refine iff_of_false ?_ not_false
      rintro ⟨-, fuel, object, returned⟩
      rw [readOnce_stopped (by rw [first]; decide) (by rw [first]; decide)] at returned
      cases returned
  | cons c rest =>
      rw [List.getElem?_cons_zero, Option.getD_some] at first
      by_cases object : c = 0x7B
      · subst object
        simp only [ReadsSafely, Readable, readOnce, Traced.only_bind, Traced.val_bind, fullArrayAt_val,
          only_fullArrayAt, first, ne_eq, not_true_eq_false, if_false, inside_input, Nat.zero_le, true_and,
          readFrom_inside here, readFrom_returns here, and_true]
        have other : (0x7B : Byte) ≠ 0x5B := by decide
        exact (or_iff_left fun array => other array.1).symm
      by_cases array : c = 0x5B
      · subst array
        simp only [ReadsSafely, Readable, readOnce, Traced.only_bind, Traced.val_bind, fullArrayAt_val,
          only_fullArrayAt, first, ne_eq, object, not_true_eq_false, not_false_eq_true, if_false, if_true, inside_input,
          Nat.zero_le, true_and, readFrom_inside here, readFrom_returns here, and_true, false_and, false_or]
        exact Iff.rfl
      · refine iff_of_false ?_ (not_or.mpr ⟨fun opened => object opened.1, fun opened => array opened.1⟩)
        rintro ⟨-, fuel, result, returned⟩
        rw [readOnce_stopped (by rwa [first]) (by rwa [first])] at returned
        cases returned

/-- The reader is safe exactly if its text opens an object or an array, and what it collects finds room: keys with
their colons, and values with the characters that end them and a terminator. -/
theorem readOnce_safe_iff (m : Memory) (fullArray : UIntPtr) (text : List Byte) (keyData valueData : UIntPtr)
    (here : Text m fullArray text) :
    ReadsSafely m fullArray text (roomOf keyData) (roomOf valueData) ↔
      Readable (roomOf keyData) (roomOf valueData) text :=
  readsSafely_iff here

theorem parts_key (n : ℕ) : (parts 0x7B 0x7D .key (List.replicate n 0x61)).count .key = n := by
  induction n with
  | zero => rfl
  | succ n ih =>
      rw [List.replicate_succ, parts, if_neg (by decide), if_neg (by decide), if_neg (by decide),
        List.count_cons_self, ih]

/-- A brace and one character more than a buffer holds. -/
def longKey : List Byte := 0x7B :: List.replicate (kNeJsonMaxLen + 1) 0x61

theorem readOnce_unsafe :
    ¬ ReadsSafely (write (fun _ => 0) 0x1000 (longKey ++ [0])) 0x1000 longKey (roomOf 0x10000) (roomOf 0x20000) := by
  have here : Text (write (fun _ => 0) 0x1000 (longKey ++ [0])) 0x1000 longKey := by
    refine .written (by decide) ?_ ?_
    · rw [longKey, List.length_cons, List.length_replicate]
      decide
    · rw [longKey, List.mem_cons, not_or]
      exact ⟨by decide, fun zero => absurd (List.eq_of_mem_replicate zero) (by decide)⟩
  rw [readsSafely_iff here]
  rintro (⟨-, keys, -⟩ | ⟨array, -⟩)
  · rw [parts_key] at keys
    exact absurd keys (by decide)
  · exact absurd array (by decide)

theorem readOnce_safe_iff_empty :
    ReadsSafely (write (fun _ => 0) 0x1000 [0x7B, 0x7D]) 0x1000 [0x7B, 0x7D] (roomOf 0x10000) (roomOf 0x20000) ↔
      Readable (roomOf 0x10000) (roomOf 0x20000) [0x7B, 0x7D] :=
  readOnce_safe_iff _ 0x1000 _ 0x10000 0x20000 ⟨by decide, by decide, by decide, by decide +kernel⟩

end Safety

end Ne.Kernel.BasicJsonStreamReader
