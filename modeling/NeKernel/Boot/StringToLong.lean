import NeKernel.Lib.Numerals

/-!
# The number parser of the boot loader

`StringToLong` over the characters from `nptr` to the terminator. A pointer into the string is what
lies behind it, so a read past the terminator gives nothing.
-/

namespace Ne.Kernel.Boot
open ByteMem Numerals

/-- `w` is the width of `long`. -/
def kLongMax (w : ℕ) : ℤ := 2 ^ (w - 1) - 1
def kLongMin (w : ℕ) : ℤ := -2 ^ (w - 1)

/-! ## The source -/

def isSpace (c : Byte) : Bool := c = 0x20

def skipSpaces : List Byte → Option (List Byte)
  | [] => none
  | c :: p => if isSpace c then skipSpaces p else some (c :: p)

def readSign : List Byte → Option (Bool × List Byte)
  | [] => none
  | c :: p => some (if c = 0x2B then (false, p) else if c = 0x2D then (true, p) else (false, c :: p))

/-- The base, where the number ends so far, and where its digits begin. -/
def readBase (base : ℤ) (nptr : List Byte) : List Byte → Option (ℤ × List Byte × List Byte)
  | [] => none
  | c :: p =>
      if c = 0x30 then
        if base = 16 then
          p.head?.map fun x => if x = 0x58 ∨ x = 0x78 then (16, p, p.tail) else (16, p, p)
        else if base = 2 then
          p.head?.map fun x => if x = 0x42 ∨ x = 0x62 then (2, p, p.tail) else (2, p, p)
        else if base = 0 then
          p.head?.map fun x =>
            if x = 0x58 ∨ x = 0x78 then (16, p, p.tail)
            else if x = 0x42 ∨ x = 0x62 then (2, p, p.tail)
            else (8, p, p)
        else some (base, p, p)
      else some (if base = 0 then 10 else base, nptr, c :: p)

/-- What a character stands for, nothing between the digits and the letters. `char` is signed. -/
def digitCode (char : Byte) : Option ℤ :=
  let p := char.signExtend 32
  if BitVec.sle 0x41 p then some (((p - 0x41) &&& ~~~(0x61 ^^^ 0x41)) + 10).toInt
  else if p.sle 0x39 then some (p - 0x30).toInt
  else none

/-- The loop over the digits: where the number ends, `n` and `overflow`. -/
def readDigits {w : ℕ} (endptr : Bool) (base : ℤ) (cutoff : BitVec w) (cutlim : ℤ) :
    List Byte → List Byte → BitVec w → Bool → Option (List Byte × BitVec w × Bool)
  | [], _, _, _ => none
  | char :: p, endp, n, overflow =>
      match digitCode char with
      | none => some (endp, n, overflow)
      | some c =>
          if c < 0 ∨ base ≤ c then some (endp, n, overflow)
          else if overflow then
            if endptr then readDigits endptr base cutoff cutlim p p n true else some (p, n, true)
          else if cutoff < n ∨ n = cutoff ∧ cutlim < c then readDigits endptr base cutoff cutlim p p n true
          else readDigits endptr base cutoff cutlim p p (n * BitVec.ofInt w base + BitVec.ofInt w c) false

/-- What is left once the base is known. -/
def convert (w : ℕ) (endptr isNeg : Bool) (base : ℤ) (endp p : List Byte) : Option (ℤ × Option (List Byte)) := do
  let cutoff := if isNeg then -(kLongMin w).tdiv base else (kLongMax w).tdiv base
  let cutlim := if isNeg then -(kLongMin w).tmod base else (kLongMax w).tmod base
  let (endp, n, overflow) ← readDigits endptr base (BitVec.ofInt w cutoff) cutlim p endp 0 false
  let value := if overflow then (if isNeg then kLongMin w else kLongMax w) else (if isNeg then -n else n).toInt
  pure (value, if endptr then some endp else none)

/-- `StringToLong`: the value, and what is stored for `endptr` where it is not null. -/
def stringToLong (w : ℕ) (endptr : Bool) (nptr : List Byte) (base : ℤ) : Option (ℤ × Option (List Byte)) :=
  if base < 0 ∨ base = 1 ∨ base > 36 then some (0, none)
  else do
    let p ← skipSpaces nptr
    let (isNeg, p) ← readSign p
    let (base, endp, p) ← readBase base nptr p
    convert w endptr isNeg base endp p

/-! ## What `strtol` specifies -/

/-- The letter behind a zero that announces digits in base `b`. -/
def Marked (base : ℕ) (x : Byte) (b : ℕ) : Prop :=
  (base = 0 ∨ base = 16) ∧ (x = 0x58 ∨ x = 0x78) ∧ b = 16 ∨ (base = 0 ∨ base = 2) ∧ (x = 0x42 ∨ x = 0x62) ∧ b = 2

/-- The expected forms of a number without its sign. Base zero leaves the base to the form. -/
inductive Form (base : ℕ) : List Byte → ℕ → Prop
  | plain {ds : List Byte} {n : ℕ} (wide : 2 ≤ base) (some : ds ≠ []) (reads : value base ds = .some n) : Form base ds n
  | marked {x : Byte} {b : ℕ} {ds : List Byte} {n : ℕ} (mark : Marked base x b) (some : ds ≠ [])
      (reads : value b ds = .some n) : Form base (0x30 :: x :: ds) n
  | octal {ds : List Byte} {n : ℕ} (unknown : base = 0) (reads : value 8 (0x30 :: ds) = .some n) :
      Form base (0x30 :: ds) n
  | decimal {c : Byte} {ds : List Byte} {n : ℕ} (unknown : base = 0) (nonzero : c ≠ 0x30)
      (reads : value 10 (c :: ds) = .some n) : Form base (c :: ds) n

inductive Subject (base : ℕ) : List Byte → Bool → ℕ → Prop
  | bare {s : List Byte} {n : ℕ} : Form base s n → Subject base s false n
  | plus {s : List Byte} {n : ℕ} : Form base s n → Subject base (0x2B :: s) false n
  | minus {s : List Byte} {n : ℕ} : Form base s n → Subject base (0x2D :: s) true n

/-- The number, or the limit of `long` that it is beyond. -/
def saturated (w : ℕ) (isNeg : Bool) (n : ℕ) : ℤ := if isNeg then max (-n) (kLongMin w) else min n (kLongMax w)

/-- The value and the rest of the text: behind the longest part of the expected form, and the whole text when there
is none. -/
inductive Strtol (w base : ℕ) (text : List Byte) : ℤ → List Byte → Prop
  | converted {s rest : List Byte} {isNeg : Bool} {n : ℕ} (split : text.dropWhile isSpace = s ++ rest)
      (subject : Subject base s isNeg n)
      (longest : ∀ s' isNeg' n', s' <+: text.dropWhile isSpace → Subject base s' isNeg' n' → s'.length ≤ s.length) :
      Strtol w base text (saturated w isNeg n) rest
  | nothing (none : ∀ s isNeg n, s <+: text.dropWhile isSpace → ¬ Subject base s isNeg n) : Strtol w base text 0 text

section Unique
variable {w base b n n' : ℕ} {isNeg isNeg' : Bool} {x c : Byte} {text s rest rest' : List Byte} {r r' : ℤ}

theorem Marked.unique {b' : ℕ} (mark : Marked base x b) (mark' : Marked base x b') : b = b' := by
  rcases mark with ⟨-, hex, rfl⟩ | ⟨-, bin, rfl⟩ <;> rcases mark' with ⟨-, hex', rfl⟩ | ⟨-, bin', rfl⟩
  · rfl
  · rcases hex with rfl | rfl <;> rcases bin' with no | no <;> exact absurd no (by decide)
  · rcases hex' with rfl | rfl <;> rcases bin with no | no <;> exact absurd no (by decide)
  · rfl

/-- The letter is no digit of a base that it may follow a zero in. -/
theorem Marked.no_digit (mark : Marked base x b) : digitIn 8 x = none ∧ (base ≠ 0 → digitIn base x = none) := by
  rcases mark with ⟨known, rfl | rfl, -⟩ | ⟨known, rfl | rfl, -⟩ <;> refine ⟨by decide, fun nonzero => ?_⟩ <;>
    rw [known.resolve_left nonzero] <;> decide

theorem Form.nonempty (form : Form base s n) : 0 < s.length := by
  cases form with
  | plain wide some reads => exact List.length_pos_iff.mpr some
  | _ => exact Nat.succ_pos _

/-- A number begins with a digit, so its sign is not part of it. -/
theorem Form.first (form : Form base (c :: s) n) : c ≠ 0x2B ∧ c ≠ 0x2D := by
  have digit (b : ℕ) (number : value b (c :: s) = some n) : c ≠ 0x2B ∧ c ≠ 0x2D := by
    obtain ⟨d, known⟩ := valueFrom_digits number _ List.mem_cons_self
    constructor <;> rintro rfl <;> cases known
  cases form with
  | plain wide some number => exact digit base number
  | marked mark some number => decide
  | octal unknown number => decide
  | decimal unknown nonzero number => exact digit 10 number

/-- No digits go on behind the letter, so the letter decides the base. -/
theorem Marked.no_value {ds : List Byte} (mark : Marked base x b) :
    value 8 (0x30 :: x :: ds) ≠ some n ∧ (base ≠ 0 → value base (0x30 :: x :: ds) ≠ some n) := by
  have stops {k : ℕ} (other : digitIn k x = none) : value k (0x30 :: x :: ds) ≠ some n := by
    intro number
    rw [value, valueFrom_cons] at number
    obtain ⟨d, -, number⟩ := Option.bind_eq_some_iff.mp number
    obtain ⟨e, digit⟩ := valueFrom_digits number _ List.mem_cons_self
    cases digit.symm.trans other
  exact ⟨stops mark.no_digit.1, fun known => stops (mark.no_digit.2 known)⟩

theorem Form.unique (form : Form base s n) (form' : Form base s n') : n = n' := by
  cases form with
  | plain wide some number =>
      cases form' with
      | plain _ _ number' => exact Option.some.inj (number.symm.trans number')
      | marked mark => exact absurd number (mark.no_value.2 (by omega))
      | octal unknown => omega
      | decimal unknown => omega
  | marked mark some number =>
      cases form' with
      | plain wide _ number' => exact absurd number' (mark.no_value.2 (by omega))
      | marked mark' _ number' =>
          obtain rfl := mark.unique mark'
          exact Option.some.inj (number.symm.trans number')
      | octal _ number' => exact absurd number' mark.no_value.1
      | decimal _ nonzero => exact absurd rfl nonzero
  | octal unknown number =>
      cases form' with
      | plain wide => omega
      | marked mark => exact absurd number mark.no_value.1
      | octal _ number' => exact Option.some.inj (number.symm.trans number')
      | decimal _ nonzero => exact absurd rfl nonzero
  | decimal unknown nonzero number =>
      cases form' with
      | plain wide => omega
      | marked => exact absurd rfl nonzero
      | octal => exact absurd rfl nonzero
      | decimal _ _ number' => exact Option.some.inj (number.symm.trans number')

theorem Subject.unique (subject : Subject base s isNeg n) (subject' : Subject base s isNeg' n') :
    isNeg = isNeg' ∧ n = n' := by
  cases subject with
  | bare form =>
      cases subject' with
      | bare form' => exact ⟨rfl, form.unique form'⟩
      | plus => exact absurd rfl form.first.1
      | minus => exact absurd rfl form.first.2
  | plus form =>
      cases subject' with
      | bare form' => exact absurd rfl form'.first.1
      | plus form' => exact ⟨rfl, form.unique form'⟩
  | minus form =>
      cases subject' with
      | bare form' => exact absurd rfl form'.first.2
      | minus form' => exact ⟨rfl, form.unique form'⟩

/-- The specification leaves nothing open. -/
theorem Strtol.unique (spec : Strtol w base text r rest) (spec' : Strtol w base text r' rest') :
    r = r' ∧ rest = rest' := by
  cases spec with
  | converted split subject longest =>
      cases spec' with
      | converted split' subject' longest' =>
          have shorter := longest' _ _ _ ⟨_, split.symm⟩ subject
          have longer := longest _ _ _ ⟨_, split'.symm⟩ subject'
          obtain ⟨rfl, rfl⟩ := List.append_inj (split.symm.trans split') (Nat.le_antisymm shorter longer)
          obtain ⟨rfl, rfl⟩ := subject.unique subject'
          exact ⟨rfl, rfl⟩
      | nothing never => exact absurd subject (never _ _ _ ⟨_, split.symm⟩)
  | nothing never =>
      cases spec' with
      | converted split subject => exact absurd subject (never _ _ _ ⟨_, split.symm⟩)
      | nothing => exact ⟨rfl, rfl⟩

end Unique

/-! ## Digits -/

section Digits
variable {w b d L v : ℕ} {endptr : Bool} {c : Byte} {text endp : List Byte} {n : BitVec w}

theorem digitCode_value : ∀ c : Byte,
    (digitCode c).bind (fun code => if 0 ≤ code ∧ code < 36 then some code.toNat else none) = digitValue c := by
  decide +kernel

theorem terminator_ends (b : ℕ) : digitIn b 0 = none := rfl

/-- The tests of the loop take a character for a digit exactly if it is one of the base. -/
theorem digitCode_some (digit : digitIn b c = some d) :
    ∃ code : ℤ, digitCode c = some code ∧ ¬ (code < 0 ∨ (b : ℤ) ≤ code) ∧ code = d := by
  obtain ⟨value, below⟩ := Option.filter_eq_some_iff.mp digit
  have below : d < b := by simpa using below
  rw [← digitCode_value] at value
  obtain ⟨code, known, same⟩ := Option.bind_eq_some_iff.mp value
  split at same
  · have same : code.toNat = d := Option.some.inj same
    exact ⟨code, known, by omega, by omega⟩
  · cases same

theorem digitCode_none (narrow : b ≤ 36) (other : digitIn b c = none) :
    digitCode c = none ∨ ∃ code : ℤ, digitCode c = some code ∧ (code < 0 ∨ (b : ℤ) ≤ code) := by
  cases known : digitCode c with
  | none => exact .inl rfl
  | some code =>
      refine .inr ⟨code, rfl, ?_⟩
      by_contra inside
      have value := digitCode_value c
      rw [known, Option.bind_some, if_pos (by omega)] at value
      rw [digitIn, ← value, Option.filter_some, if_pos (by simp; omega)] at other
      cases other

theorem readDigits_digit (digit : digitIn b c = some d) (cutoff : BitVec w) (cutlim : ℤ)
    (overflow : Bool) : readDigits endptr b cutoff cutlim (c :: text) endp n overflow =
      if overflow then if endptr then readDigits endptr b cutoff cutlim text text n true else some (text, n, true)
      else if cutoff < n ∨ n = cutoff ∧ cutlim < d then readDigits endptr b cutoff cutlim text text n true
      else readDigits endptr b cutoff cutlim text text (n * BitVec.ofInt w b + BitVec.ofInt w d) false := by
  obtain ⟨code, known, inside, rfl⟩ := digitCode_some digit
  rw [readDigits, known]
  dsimp only
  rw [if_neg inside]

theorem readDigits_stop (narrow : b ≤ 36) (other : digitIn b c = none) (cutoff : BitVec w) (cutlim : ℤ)
    (overflow : Bool) : readDigits endptr b cutoff cutlim (c :: text) endp n overflow = some (endp, n, overflow) := by
  rw [readDigits]
  rcases digitCode_none narrow other with known | ⟨code, known, outside⟩
  · rw [known]
  · rw [known]
    exact if_pos outside

/-- Where the loop leaves the end of the number. -/
def numberEnd (b : ℕ) (text endp : List Byte) : List Byte := if leading b text = [] then endp else behind b text ++ [0]

theorem numberEnd_cons (digit : digitIn b c = some d) :
    numberEnd b (c :: text) endp = numberEnd b text (text ++ [0]) := by
  rw [numberEnd, leading_cons digit, behind_cons digit, if_neg (List.cons_ne_nil _ _), numberEnd]
  split
  · next none =>
      have whole := leading_behind b text
      rw [none, List.nil_append] at whole
      rw [whole]
  · rfl

theorem readDigits_overflowed (narrow : b ≤ 36) (cutoff : BitVec w) (cutlim : ℤ) :
    ∃ e, readDigits endptr b cutoff cutlim (text ++ [0]) endp n true = some (e, n, true) ∧
      (endptr = true → e = numberEnd b text endp) := by
  induction text generalizing endp with
  | nil => exact ⟨endp, readDigits_stop narrow (terminator_ends b) cutoff cutlim true, fun _ => rfl⟩
  | cons c text ih =>
      cases digit : digitIn b c with
      | none =>
          refine ⟨endp, readDigits_stop narrow digit cutoff cutlim true, fun _ => ?_⟩
          rw [numberEnd, leading_stop digit, if_pos rfl]
      | some d =>
          rw [List.cons_append, readDigits_digit digit, if_pos rfl, numberEnd_cons digit]
          cases endptr with
          | true => exact ih
          | false => exact ⟨_, rfl, nofun⟩

/-- What the loop compares says whether another digit goes beyond the limit. -/
theorem cutoff_iff (room : L < 2 ^ w) (below : d < b) :
    (BitVec.ofNat w (L / b) < n ∨ n = BitVec.ofNat w (L / b) ∧ ((L % b : ℕ) : ℤ) < d) ↔ L < n.toNat * b + d := by
  have quotient : (BitVec.ofNat w (L / b)).toNat = L / b := by
    rw [BitVec.toNat_ofNat, Nat.mod_eq_of_lt (Nat.lt_of_le_of_lt (Nat.div_le_self L b) room)]
  have divided := Nat.div_add_mod L b
  have rest := Nat.mod_lt L (Nat.zero_lt_of_lt below)
  rw [Nat.mul_comm] at divided
  rw [BitVec.lt_def, ← BitVec.toNat_inj, quotient, Nat.cast_lt]
  rcases Nat.lt_trichotomy n.toNat (L / b) with less | equal | above
  · have scaled : (n.toNat + 1) * b ≤ L / b * b := Nat.mul_le_mul_right b less
    rw [Nat.succ_mul] at scaled
    omega
  · rw [equal]
    omega
  · have scaled : (L / b + 1) * b ≤ n.toNat * b := Nat.mul_le_mul_right b above
    rw [Nat.succ_mul] at scaled
    omega

theorem digit_next (room : L < 2 ^ w) (inside : n.toNat * b + d ≤ L) :
    (n * BitVec.ofInt w b + BitVec.ofInt w d).toNat = n.toNat * b + d := by
  rw [BitVec.ofInt_natCast, BitVec.ofInt_natCast, BitVec.toNat_add, BitVec.toNat_mul, BitVec.toNat_ofNat,
    BitVec.toNat_ofNat, Nat.mul_mod_mod, Nat.add_mod_mod, Nat.mod_add_mod, Nat.mod_eq_of_lt (by omega)]

/-- The loop reads the number that the digits write, as long as it is within the limit. -/
theorem readDigits_reads (wide : 2 ≤ b) (narrow : b ≤ 36) (room : L < 2 ^ w) (small : n.toNat ≤ L)
    (reads : valueFrom b n.toNat (leading b text) = some v) :
    ∃ e n' overflow, readDigits endptr b (BitVec.ofNat w (L / b)) (L % b : ℕ) (text ++ [0]) endp n false =
        some (e, n', overflow) ∧ (endptr = true ∨ overflow = false → e = numberEnd b text endp) ∧
      (overflow = true ↔ L < v) ∧ (overflow = false → n'.toNat = v) := by
  induction text generalizing endp n with
  | nil =>
      rw [leading] at reads
      obtain rfl : n.toNat = v := Option.some.inj reads
      exact ⟨endp, n, false, readDigits_stop narrow (terminator_ends b) _ _ false, fun _ => rfl, by simpa using small,
        fun _ => rfl⟩
  | cons c text ih =>
      cases digit : digitIn b c with
      | none =>
          rw [leading_stop digit] at reads
          obtain rfl : n.toNat = v := Option.some.inj reads
          refine ⟨endp, n, false, readDigits_stop narrow digit _ _ false, fun _ => ?_, by simpa using small,
            fun _ => rfl⟩
          rw [numberEnd, leading_stop digit, if_pos rfl]
      | some d =>
          have below : d < b := by simpa using (Option.filter_eq_some_iff.mp digit).2
          rw [leading_cons digit, valueFrom_cons, digit, Option.bind_some] at reads
          have grows := valueFrom_le (by omega) reads
          rw [List.cons_append, readDigits_digit digit, if_neg Bool.false_ne_true, numberEnd_cons digit]
          simp only [cutoff_iff room below]
          by_cases beyond : L < n.toNat * b + d
          · obtain ⟨e, ends, here⟩ := @readDigits_overflowed w b endptr text (text ++ [0]) n narrow
              (BitVec.ofNat w (L / b)) (L % b : ℕ)
            rw [if_pos beyond]
            have differs : true ≠ false := by decide
            exact ⟨e, n, true, ends, fun wanted => here (wanted.resolve_right differs), iff_of_true rfl (by omega),
              fun same => absurd same differs⟩
          · have inside := Nat.le_of_not_lt beyond
            have next := digit_next room inside
            rw [if_neg beyond]
            exact ih (by rwa [next]) (by rwa [next])

end Digits

/-! ## The base -/

/-- What is read of an unsigned text: the longest part of the expected form, or nothing. -/
inductive Read (base : ℕ) (text nptr e : List Byte) (v : ℕ) : Prop
  | found {s rest : List Byte} (split : text = s ++ rest) (form : Form base s v)
      (longest : ∀ s' n, s' <+: text → Form base s' n → s'.length ≤ s.length) (ends : e = rest ++ [0])
  | absent (never : ∀ s n, s <+: text → ¬ Form base s n) (zero : v = 0) (ends : e = nptr)

section Base
variable {base b n v : ℕ} {x : Byte} {s q text nptr e : List Byte}

theorem Marked.bounds (mark : Marked base x b) : 2 ≤ b ∧ b ≤ 36 := by
  rcases mark with ⟨-, -, rfl⟩ | ⟨-, -, rfl⟩ <;> decide

/-- The letters are looked for behind a zero, where the terminator stands at the latest. -/
theorem readBase_unmarked {rest : List Byte} (plain : ∀ b, ¬ Marked base x b) :
    readBase base nptr (0x30 :: x :: rest) =
      some (((if base = 0 then 8 else base : ℕ) : ℤ), x :: rest, x :: rest) := by
  have hex (known : base = 0 ∨ base = 16) : ¬ (x = 0x58 ∨ x = 0x78) := fun letter =>
    plain 16 (.inl ⟨known, letter, rfl⟩)
  have bin (known : base = 0 ∨ base = 2) : ¬ (x = 0x42 ∨ x = 0x62) := fun letter =>
    plain 2 (.inr ⟨known, letter, rfl⟩)
  by_cases unknown : base = 0
  · subst unknown
    exact congrArg some ((if_neg (hex (.inl rfl))).trans (if_neg (bin (.inl rfl))))
  · rw [if_neg unknown]
    by_cases sixteen : base = 16
    · subst sixteen
      exact congrArg some (if_neg (hex (.inr rfl)))
    · by_cases two : base = 2
      · subst two
        exact congrArg some (if_neg (bin (.inr rfl)))
      · rw [readBase, if_pos rfl, if_neg (by omega), if_neg (by omega), if_neg (by omega)]

/-- The ways that the base is found. -/
theorem readBase_cases (base : ℕ) (nptr text : List Byte) :
    (text.head? ≠ some 0x30 ∧ readBase base nptr (text ++ [0]) =
      some (((if base = 0 then 10 else base : ℕ) : ℤ), nptr, text ++ [0])) ∨
    (∃ q, text = 0x30 :: q ∧ (∀ x b, q.head? = some x → ¬ Marked base x b) ∧ readBase base nptr (text ++ [0]) =
      some (((if base = 0 then 8 else base : ℕ) : ℤ), q ++ [0], q ++ [0])) ∨
    ∃ x q b, text = 0x30 :: x :: q ∧ Marked base x b ∧ readBase base nptr (text ++ [0]) =
      some ((b : ℤ), x :: q ++ [0], q ++ [0]) := by
  by_cases zero : text.head? = some 0x30
  · obtain ⟨q, rfl⟩ : ∃ q, text = 0x30 :: q := List.head?_eq_some_iff.mp zero
    right
    by_cases letter : ∃ x b, q.head? = some x ∧ Marked base x b
    · obtain ⟨x, b, first, mark⟩ := letter
      obtain ⟨r, rfl⟩ := List.head?_eq_some_iff.mp first
      refine .inr ⟨x, r, b, rfl, mark, ?_⟩
      rcases mark with ⟨rfl | rfl, rfl | rfl, rfl⟩ | ⟨rfl | rfl, rfl | rfl, rfl⟩ <;> rfl
    · have plain (x : Byte) (b : ℕ) (first : q.head? = some x) : ¬ Marked base x b := fun mark =>
        letter ⟨x, b, first, mark⟩
      refine .inl ⟨q, rfl, plain, ?_⟩
      cases q with
      | nil => exact readBase_unmarked fun b mark => by rcases mark with ⟨-, no | no, -⟩ | ⟨-, no | no, -⟩ <;> cases no
      | cons x r => exact readBase_unmarked fun b => plain x b rfl
  · refine .inl ⟨zero, ?_⟩
    have decimal : (if (base : ℤ) = 0 then (10 : ℤ) else base) = ((if base = 0 then 10 else base : ℕ) : ℤ) := by
      split_ifs <;> first | rfl | omega
    rw [← decimal]
    cases text with
    | nil => rfl
    | cons c q =>
        have other : c ≠ 0x30 := fun same => zero (congrArg some same)
        exact if_neg other

theorem zero_digit (positive : 0 < b) : digitIn b 0x30 = some 0 := by
  have value : digitValue 0x30 = some 0 := rfl
  rw [digitIn, value, Option.filter_some, if_pos (decide_eq_true positive)]

/-- Where every form is a number of the one base, the longest one is made of the leading digits. -/
theorem read_uniform (only : ∀ s n, s <+: text → Form base s n → value b s = some n)
    (forms : ∀ s n, s <+: text → s ≠ [] → value b s = some n → Form base s n)
    (reads : valueFrom b 0 (leading b text) = some v) : Read base text nptr (numberEnd b text nptr) v := by
  have whole := leading_behind b text
  unfold numberEnd
  split
  · next none =>
      refine .absent (fun s n starts form => ?_) ?_ rfl
      · have short := leading_longest starts (only s n starts form)
        rw [none] at short
        exact absurd form.nonempty (Nat.not_lt.mpr short)
      · rw [none] at reads
        exact (Option.some.inj reads).symm
  · next some =>
      refine .found whole.symm (forms _ v ⟨_, whole⟩ some reads) (fun s' n starts form => ?_) rfl
      exact leading_longest starts (only s' n starts form)

/-- Digits that begin at a zero end before a letter that is none of them. -/
theorem zero_alone {k : ℕ} (stops : digitIn k x = none) (starts : s <+: 0x30 :: x :: q) (number : value k s = some n) :
    s.length ≤ 1 := by
  have longest := leading_longest starts number
  cases digit : digitIn k 0x30 with
  | none =>
      rw [leading_stop digit] at longest
      exact longest.trans (Nat.zero_le 1)
  | some d => rwa [leading_cons digit, leading_stop stops] at longest

/-- A form that does not use a marking letter is the zero before it. -/
theorem unmarked_alone (mark : Marked base x b) (starts : s <+: 0x30 :: x :: q) (form : Form base s n)
    (unmarked : ∀ ds, ds <+: q → ds ≠ [] → ∀ n, value b ds = some n → s ≠ 0x30 :: x :: ds) : s.length ≤ 1 := by
  cases form with
  | plain wide some number => exact zero_alone (mark.no_digit.2 (by omega)) starts number
  | octal unknown number => exact zero_alone mark.no_digit.1 starts number
  | decimal unknown nonzero number => exact absurd (List.cons_prefix_cons.mp starts).1 nonzero
  | marked mark' some number =>
      obtain ⟨same, inside⟩ := List.cons_prefix_cons.mp (List.cons_prefix_cons.mp starts).2
      subst same
      obtain rfl := mark.unique mark'
      exact absurd rfl (unmarked _ inside some _ number)

/-- Behind a marking letter there are digits of its base, or the number is the zero before it. -/
theorem read_marked (valid : base = 0 ∨ 2 ≤ base) (mark : Marked base x b)
    (reads : valueFrom b 0 (leading b q) = some v) :
    Read base (0x30 :: x :: q) nptr (numberEnd b q (x :: q ++ [0])) v := by
  have whole := leading_behind b q
  unfold numberEnd
  split
  · next none =>
      rw [none] at reads
      obtain rfl : 0 = v := Option.some.inj reads
      refine .found (s := [0x30]) rfl ?_
        (fun s' n starts form => unmarked_alone mark starts form fun ds inside some n number => ?_) rfl
      · rcases valid with rfl | wide
        · exact .octal rfl rfl
        · refine .plain wide (List.cons_ne_nil _ _) ?_
          rw [value, valueFrom_cons, zero_digit (by omega), Option.bind_some, valueFrom_nil, Nat.zero_mul]
      · have longest := leading_longest inside number
        rw [none] at longest
        exact absurd (List.length_pos_iff.mpr some) (Nat.not_lt.mpr longest)
  · next some =>
      refine .found (s := 0x30 :: x :: leading b q) (by rw [List.cons_append, List.cons_append, whole])
        (.marked mark some reads) (fun s' n starts form => ?_) rfl
      by_contra longer
      rw [not_le, List.length_cons, List.length_cons] at longer
      have short := unmarked_alone mark starts form fun ds inside _ n number same => ?_
      · omega
      · have longest := leading_longest inside number
        rw [same, List.length_cons, List.length_cons] at longer
        omega

/-- Without a zero in front, the digits are those of the base, or decimal. -/
theorem read_decimal (valid : base = 0 ∨ 2 ≤ base) (other : text.head? ≠ some 0x30)
    (reads : valueFrom (if base = 0 then 10 else base) 0 (leading (if base = 0 then 10 else base) text) = some v) :
    Read base text nptr (numberEnd (if base = 0 then 10 else base) text nptr) v := by
  have nonzero (s : List Byte) : ¬ 0x30 :: s <+: text := by
    rintro ⟨rest, rfl⟩
    exact other rfl
  refine read_uniform ?_ ?_ reads
  · intro s n starts form
    cases form with
    | plain wide some number => rwa [if_neg (by omega)]
    | marked mark some number => exact absurd starts (nonzero _)
    | octal unknown number => exact absurd starts (nonzero _)
    | decimal unknown other number => rwa [if_pos unknown]
  · intro s n starts some number
    rcases valid with unknown | wide
    · rw [if_pos unknown] at number
      cases s with
      | nil => exact absurd rfl some
      | cons c s =>
          refine .decimal unknown ?_ number
          rintro rfl
          exact nonzero s starts
    · rw [if_neg (by omega)] at number
      exact .plain wide some number

/-- Behind a zero without a letter, the digits are those of the base, or octal. The zero is one of them. -/
theorem read_octal (valid : base = 0 ∨ 2 ≤ base) (unmarked : ∀ x b, q.head? = some x → ¬ Marked base x b)
    (reads : valueFrom (if base = 0 then 8 else base) 0 (leading (if base = 0 then 8 else base) q) = some v) :
    Read base (0x30 :: q) nptr (numberEnd (if base = 0 then 8 else base) q (q ++ [0])) v := by
  have digit : digitIn (if base = 0 then 8 else base) 0x30 = some 0 := zero_digit (by split_ifs <;> omega)
  rw [← @numberEnd_cons _ _ _ _ nptr digit]
  refine read_uniform ?_ ?_ ?_
  · intro s n starts form
    cases form with
    | plain wide some number => rwa [if_neg (by omega)]
    | marked mark some number =>
        obtain ⟨rest, same⟩ := (List.cons_prefix_cons.mp starts).2
        rw [← same] at unmarked
        exact absurd mark (unmarked _ _ rfl)
    | octal unknown number => rwa [if_pos unknown]
    | decimal unknown other number => exact absurd (List.cons_prefix_cons.mp starts).1 other
  · intro s n starts some number
    rcases valid with unknown | wide
    · rw [if_pos unknown] at number
      cases s with
      | nil => exact absurd rfl some
      | cons c s =>
          obtain rfl := (List.cons_prefix_cons.mp starts).1
          exact .octal unknown number
    · rw [if_neg (by omega)] at number
      exact .plain wide some number
  · rwa [leading_cons digit, valueFrom_cons, digit, Option.bind_some, Nat.zero_mul]

/-- The number that is read behind the base and the letter that were found. -/
theorem readBase_reads (valid : base = 0 ∨ 2 ≤ base ∧ base ≤ 36) (nptr text : List Byte) :
    ∃ (b : ℕ) (endp q : List Byte), readBase base nptr (text ++ [0]) = some ((b : ℤ), endp, q ++ [0]) ∧
      2 ≤ b ∧ b ≤ 36 ∧ ∀ v, valueFrom b 0 (leading b q) = some v → Read base text nptr (numberEnd b q endp) v := by
  have known := valid.imp_right And.left
  rcases readBase_cases base nptr text with ⟨other, found⟩ | ⟨q, rfl, unmarked, found⟩ | ⟨x, q, b, rfl, mark, found⟩
  · exact ⟨_, nptr, text, found, by split_ifs <;> omega, by split_ifs <;> omega, fun v => read_decimal known other⟩
  · exact ⟨_, _, q, found, by split_ifs <;> omega, by split_ifs <;> omega, fun v => read_octal known unmarked⟩
  · exact ⟨b, _, q, found, mark.bounds.1, mark.bounds.2, fun v => read_marked known mark⟩

end Base

/-! ## The value -/

section Value
variable {w b v base : ℕ} {endptr isNeg : Bool} {endp q : List Byte} {n : BitVec w}

/-- What the digits may write, the sign apart. -/
def limit (w : ℕ) (isNeg : Bool) : ℕ := if isNeg then 2 ^ (w - 1) else 2 ^ (w - 1) - 1

theorem limit_lt (long : 0 < w) (isNeg : Bool) : limit w isNeg < 2 ^ w := by
  have half : 2 ^ (w - 1) * 2 = 2 ^ w := Nat.two_pow_pred_mul_two long
  have positive := Nat.two_pow_pos (w - 1)
  unfold limit
  split <;> omega

theorem kLongMin_eq (w : ℕ) : kLongMin w = -(limit w true : ℤ) := by
  rw [kLongMin, limit, if_pos rfl, Nat.cast_pow, Nat.cast_two]

theorem kLongMax_eq (w : ℕ) : kLongMax w = (limit w false : ℤ) := by
  rw [kLongMax, limit, if_neg Bool.false_ne_true, Nat.cast_sub (Nat.two_pow_pos _), Nat.cast_pow, Nat.cast_two,
    Nat.cast_one]

theorem cutoff_eq (w b : ℕ) (isNeg : Bool) :
    (if isNeg then -(kLongMin w).tdiv b else (kLongMax w).tdiv b) = ((limit w isNeg / b : ℕ) : ℤ) := by
  cases isNeg with
  | false => rw [if_neg Bool.false_ne_true, kLongMax_eq, Int.ofNat_tdiv]
  | true => rw [if_pos rfl, kLongMin_eq, Int.neg_tdiv, neg_neg, Int.ofNat_tdiv]

theorem cutlim_eq (w b : ℕ) (isNeg : Bool) :
    (if isNeg then -(kLongMin w).tmod b else (kLongMax w).tmod b) = ((limit w isNeg % b : ℕ) : ℤ) := by
  cases isNeg with
  | false => rw [if_neg Bool.false_ne_true, kLongMax_eq, Int.ofNat_tmod]
  | true => rw [if_pos rfl, kLongMin_eq, Int.neg_tmod, neg_neg, Int.ofNat_tmod]

theorem saturated_beyond (beyond : limit w isNeg < v) :
    (if isNeg then kLongMin w else kLongMax w) = saturated w isNeg v := by
  cases isNeg with
  | false =>
      rw [if_neg Bool.false_ne_true, saturated, if_neg Bool.false_ne_true, kLongMax_eq]
      omega
  | true =>
      rw [if_pos rfl, saturated, if_pos rfl, kLongMin_eq]
      omega

theorem saturated_within (long : 0 < w) (number : n.toNat = v) (within : v ≤ limit w isNeg) :
    (if isNeg then -n else n).toInt = saturated w isNeg v := by
  have half : 2 ^ (w - 1) * 2 = 2 ^ w := Nat.two_pow_pred_mul_two long
  have positive := Nat.two_pow_pos (w - 1)
  have whole : n = BitVec.ofInt w v := by
    rw [BitVec.ofInt_natCast, ← number, BitVec.ofNat_toNat, BitVec.setWidth_eq]
  cases isNeg with
  | false =>
      rw [limit, if_neg Bool.false_ne_true] at within
      rw [if_neg Bool.false_ne_true, whole, BitVec.toInt_ofInt, Int.bmod_eq_of_le_mul_two (by omega) (by omega),
        saturated, if_neg Bool.false_ne_true, kLongMax_eq, limit, if_neg Bool.false_ne_true]
      omega
  | true =>
      rw [limit, if_pos rfl] at within
      rw [if_pos rfl, whole, ← BitVec.ofInt_neg, BitVec.toInt_ofInt, Int.bmod_eq_of_le_mul_two (by omega) (by omega),
        saturated, if_pos rfl, kLongMin_eq, limit, if_pos rfl]
      omega

theorem convert_reads (long : 0 < w) (wide : 2 ≤ b) (narrow : b ≤ 36) (endptr isNeg : Bool) (endp q : List Byte) :
    ∃ v, valueFrom b 0 (leading b q) = some v ∧ convert w endptr isNeg b endp (q ++ [0]) =
      some (saturated w isNeg v, if endptr then some (numberEnd b q endp) else none) := by
  obtain ⟨v, reads⟩ := leading_value b 0 q
  refine ⟨v, reads, ?_⟩
  obtain ⟨e, n, overflow, runs, ends, beyond, number⟩ := @readDigits_reads w b (limit w isNeg) v endptr q endp 0 wide
    narrow (limit_lt long isNeg) (by simp) (by simpa using reads)
  have cutoff : BitVec.ofInt w (if isNeg then -(kLongMin w).tdiv b else (kLongMax w).tdiv b) =
      BitVec.ofNat w (limit w isNeg / b) := by
    rw [cutoff_eq, BitVec.ofInt_natCast]
  have stored : (if endptr then some e else none) = if endptr then some (numberEnd b q endp) else none := by
    cases endptr with
    | false => rfl
    | true => rw [ends (.inl rfl)]
  unfold convert
  dsimp only
  rw [cutoff, cutlim_eq, runs]
  change some (_, _) = some (_, _)
  rw [stored]
  congr 2
  cases overflow with
  | true => exact saturated_beyond (beyond.mp rfl)
  | false =>
      refine saturated_within long (number rfl) (Nat.le_of_not_lt fun more => ?_)
      cases beyond.mpr more

end Value

/-! ## The whole text -/

section Whole
variable {w base v n : ℕ} {isNeg : Bool} {text p s e nptr : List Byte} {c : Byte}

theorem skipSpaces_eq (text : List Byte) : skipSpaces (text ++ [0]) = some (text.dropWhile isSpace ++ [0]) := by
  induction text with
  | nil => rfl
  | cons c text ih =>
      rw [List.cons_append, skipSpaces, ih]
      cases space : isSpace c with
      | true => rw [if_pos rfl, List.dropWhile_cons_of_pos space]
      | false => rw [if_neg Bool.false_ne_true, List.dropWhile_cons_of_neg (by rw [space]; exact Bool.false_ne_true),
          List.cons_append]

/-- The sign that is read is the sign of every number that the text begins with. -/
theorem readSign_splits (base : ℕ) (p : List Byte) : ∃ isNeg front q,
    readSign (p ++ [0]) = some (isNeg, q ++ [0]) ∧ p = front ++ q ∧
    (∀ s isNeg' n, s <+: p → Subject base s isNeg' n → ∃ s', s = front ++ s' ∧ isNeg' = isNeg ∧ Form base s' n) ∧
    ∀ s n, Form base s n → Subject base (front ++ s) isNeg n := by
  -- No number without its sign begins as the text does when that is a sign.
  have unsigned {c : Byte} {q s : List Byte} {n : ℕ} (sign : c = 0x2B ∨ c = 0x2D) (starts : s <+: c :: q) :
      ¬ Form base s n := by
    intro form
    cases s with
    | nil => exact absurd form.nonempty (Nat.lt_irrefl 0)
    | cons a s =>
        obtain rfl := (List.cons_prefix_cons.mp starts).1
        exact sign.elim form.first.1 form.first.2
  cases p with
  | nil =>
      refine ⟨false, [], [], rfl, rfl, fun s isNeg' n starts subject => ?_, fun s n form => .bare form⟩
      cases List.prefix_nil.mp starts
      cases subject with
      | bare form => exact ⟨[], rfl, rfl, form⟩
  | cons c q =>
      by_cases plus : c = 0x2B
      · subst plus
        refine ⟨false, [0x2B], q, rfl, rfl, fun s isNeg' n starts subject => ?_, fun s n form => .plus form⟩
        cases subject with
        | bare form => exact absurd form (unsigned (.inl rfl) starts)
        | plus form => exact ⟨_, rfl, rfl, form⟩
        | minus form => cases (List.cons_prefix_cons.mp starts).1
      · by_cases minus : c = 0x2D
        · subst minus
          refine ⟨true, [0x2D], q, rfl, rfl, fun s isNeg' n starts subject => ?_, fun s n form => .minus form⟩
          cases subject with
          | bare form => exact absurd form (unsigned (.inr rfl) starts)
          | plus form => cases (List.cons_prefix_cons.mp starts).1
          | minus form => exact ⟨_, rfl, rfl, form⟩
        · refine ⟨false, [], c :: q, ?_, rfl, fun s isNeg' n starts subject => ?_, fun s n form => .bare form⟩
          · rw [List.cons_append, readSign, if_neg plus, if_neg minus]
          · cases subject with
            | bare form => exact ⟨_, rfl, rfl, form⟩
            | plus form => exact absurd (List.cons_prefix_cons.mp starts).1.symm plus
            | minus form => exact absurd (List.cons_prefix_cons.mp starts).1.symm minus

/-- In every text and every base, zero among them, the number parser returns the value that `strtol` specifies,
saturated at the limits of `long`, and the end of the number; it never reads past the terminator. -/
theorem stringToLong_strtol (long : 0 < w) (endptr : Bool) (base : ℕ) (valid : base = 0 ∨ 2 ≤ base ∧ base ≤ 36)
    (text : List Byte) : ∃ value rest,
      stringToLong w endptr (text ++ [0]) base = some (value, if endptr then some (rest ++ [0]) else none) ∧
      Strtol w base text value rest := by
  obtain ⟨isNeg, front, p, sign, split, only, signed⟩ := readSign_splits base (text.dropWhile isSpace)
  obtain ⟨b, endp, q, found, wide, narrow, reads⟩ := readBase_reads valid (text ++ [0]) p
  obtain ⟨v, number, converts⟩ := convert_reads long wide narrow endptr isNeg endp q
  have runs : stringToLong w endptr (text ++ [0]) base =
      some (saturated w isNeg v, if endptr then some (numberEnd b q endp) else none) := by
    rw [stringToLong, if_neg (by omega), skipSpaces_eq, Option.bind_eq_bind, Option.bind_some, sign,
      Option.bind_eq_bind, Option.bind_some]
    dsimp only
    rw [found, Option.bind_eq_bind, Option.bind_some]
    exact converts
  rw [runs]
  cases reads v number with
  | found whole form longest ends =>
      rename_i s rest
      refine ⟨_, rest, by rw [ends], .converted (s := front ++ s) ?_ (signed s v form) ?_⟩
      · rw [split, whole, List.append_assoc]
      · intro s' isNeg' n' starts subject
        obtain ⟨s'', rfl, rfl, form'⟩ := only s' isNeg' n' starts subject
        rw [split, List.prefix_append_right_inj] at starts
        rw [List.length_append, List.length_append]
        exact Nat.add_le_add_left (longest s'' n' starts form') _
  | absent never zero ends =>
      refine ⟨0, text, ?_, .nothing fun s isNeg' n' starts subject => ?_⟩
      · have nothing : saturated w isNeg 0 = 0 := by
          have positive := Nat.two_pow_pos (w - 1)
          unfold saturated
          rw [kLongMin_eq, kLongMax_eq]
          split <;> omega
        rw [ends, zero, nothing]
      · obtain ⟨s', rfl, rfl, form⟩ := only s isNeg' n' starts subject
        rw [split, List.prefix_append_right_inj] at starts
        exact never s' n' starts form

/-- The number `-0x1f` before a letter that is no digit. -/
theorem stringToLong_strtol_hex :
    stringToLong 64 true ([0x20, 0x2D, 0x30, 0x78, 0x31, 0x66, 0x67] ++ [0]) 0 = some (-31, some [0x67, 0]) ∧
    ∃ value rest, stringToLong 64 true ([0x20, 0x2D, 0x30, 0x78, 0x31, 0x66, 0x67] ++ [0]) (0 : ℕ) =
        some (value, if true then some (rest ++ [0]) else none) ∧
      Strtol 64 0 [0x20, 0x2D, 0x30, 0x78, 0x31, 0x66, 0x67] value rest :=
  ⟨by decide +kernel, stringToLong_strtol (by decide) true 0 (.inl rfl) _⟩

end Whole

end Ne.Kernel.Boot
