import NeKernel.Lib.Loop
import NeKernel.Lib.Numerals
import NeKernel.Lib.Reversal
import NeKernel.Machine

/-!
# Numbers as text

`rt_to_string` stores the digits of a number from the least significant one on, and turns them round
where they are.
-/

namespace Ne.Kernel
open ByteMem Loops

def kDigits : List Byte :=
  [0x30, 0x31, 0x32, 0x33, 0x34, 0x35, 0x36, 0x37, 0x38, 0x39, 0x41, 0x42, 0x43, 0x44, 0x45, 0x46]

def rtToChar (value : BitVec 64) (base : BitVec 32) : Byte := kDigits.getD (value % base.signExtend 64).toNat 0

/-- A round of the loop: `i`, `value` and the memory. -/
def digitRound (str : UIntPtr) (base : BitVec 32) (s : ℕ × BitVec 64 × Memory) :
    Turn (ℕ × BitVec 64 × Memory) (ℕ × Memory) :=
  let m := write s.2.2 (str + BitVec.ofNat 64 s.1) [rtToChar s.2.1 base]
  let value := s.2.1 / base.signExtend 64
  if value ≠ 0 then .again (s.1 + 1, value, m) else .done (s.1 + 1, m)

/-- `rt_to_string`. Fuel counts the digits. -/
def rtToString (fuel : ℕ) (str : UIntPtr) (value : BitVec 64) (base : BitVec 32) (m : Memory) :
    Option (Bool × Memory) :=
  if str = 0 ∨ base.slt 2 ∨ BitVec.slt 16 base then some (false, m)
  else (loop (digitRound str base) fuel (0, value, m)).map fun (i, m) =>
    (true, swapFrom str i (i / 2) 0 (write m (str + BitVec.ofNat 64 i) [0]))

def digitChar (d : ℕ) : Byte := kDigits.getD d 0

/-- The text writes the number in the base, with no zero in front unless it is zero. -/
structure WritesNumber (text : List Byte) (base n : ℕ) : Prop where
  reads : Numerals.value base text = some n
  characters : text ≠ []
  plain : text.head? = some 0x30 → text = [0x30]

section Digits
variable {str : UIntPtr} {value : BitVec 64} {base : BitVec 32} {m : Memory} {b d i n fuel : ℕ}

theorem digitChar_read (below : d < b) (hex : b ≤ 16) : Numerals.digitIn b (digitChar d) = some d := by
  have values : ∀ d < 16, Numerals.digitValue (digitChar d) = some d := by decide +kernel
  rw [Numerals.digitIn, values d (by omega), Option.filter_some, if_pos (by simpa using below)]

theorem digitChar_zero (small : d < 16) (zero : digitChar d = 0x30) : d = 0 := by
  have only : ∀ d < 16, digitChar d = 0x30 → d = 0 := by decide +kernel
  exact only d small zero

theorem digitChar_nonnull (small : d < 16) : digitChar d ≠ 0 := by
  have all : ∀ d < 16, digitChar d ≠ 0 := by decide +kernel
  exact all d small

theorem writesNumber_lowFirst (wide : 2 ≤ b) (hex : b ≤ 16) (n : ℕ) :
    WritesNumber ((Numerals.lowFirst b n).reverse.map digitChar) b n := by
  constructor
  · have value := @Numerals.value_reverse b digitChar (Numerals.lowFirst b n) fun d member =>
      digitChar_read (Numerals.lowFirst_lt wide member) hex
    rwa [Numerals.ofDigits_lowFirst] at value
  · simpa using Numerals.lowFirst_ne_nil b n
  · intro zero
    rw [List.head?_map, List.head?_reverse] at zero
    obtain ⟨d, last, char⟩ := Option.map_eq_some_iff.mp zero
    have small := Numerals.lowFirst_lt wide (List.mem_of_getLast? last)
    rw [digitChar_zero (by omega) char] at last
    rw [Numerals.lowFirst_leads last]
    rfl

theorem base_toNat (two : 2 ≤ base.toInt) : (base.signExtend 64).toNat = base.toNat := by
  have high : base.msb = false := by
    rw [BitVec.msb_eq_false_iff_two_mul_lt]
    rw [BitVec.toInt_eq_toNat_cond] at two
    split at two
    · assumption
    · have bound := base.isLt
      omega
  rw [BitVec.signExtend_eq_setWidth_of_msb_false high, BitVec.toNat_setWidth]
  have bound := base.isLt
  omega

theorem base_bounds (two : 2 ≤ base.toInt) (hex : base.toInt ≤ 16) : 2 ≤ base.toNat ∧ base.toNat ≤ 16 := by
  have bound := base.isLt
  rw [BitVec.toInt_eq_toNat_cond] at two hex
  split at two <;> omega

theorem rtToChar_eq (two : 2 ≤ base.toInt) : rtToChar value base = digitChar (value.toNat % base.toNat) := by
  rw [rtToChar, BitVec.toNat_umod, base_toNat two, digitChar]

theorem quotient_toNat (two : 2 ≤ base.toInt) :
    (value / base.signExtend 64).toNat = value.toNat / base.toNat := by
  rw [BitVec.toNat_udiv, base_toNat two]

/-- The loop writes the digits of the number that is left. -/
theorem digits_written (two : 2 ≤ base.toInt) (wide : 2 ≤ base.toNat) (some : 0 < fuel)
    (small : value.toNat < base.toNat ^ fuel) (room : i + fuel ≤ 2 ^ 64) :
    loop (digitRound str base) fuel (i, value, m) =
      Option.some (i + (Numerals.lowFirst base.toNat value.toNat).length,
        write m (str + BitVec.ofNat 64 i) ((Numerals.lowFirst base.toNat value.toNat).map digitChar)) := by
  induction fuel generalizing i value m with
  | zero => exact absurd some (Nat.lt_irrefl 0)
  | succ fuel ih =>
      by_cases last : value / base.signExtend 64 = 0
      · have ends : value.toNat / base.toNat = 0 := by
          rw [← quotient_toNat two, last]
          rfl
        rw [Numerals.lowFirst_last ends wide, List.map_singleton, ← rtToChar_eq two]
        exact loop_done (if_neg (not_not.mpr last))
      · have more : value.toNat / base.toNat ≠ 0 := by
          rw [← quotient_toNat two]
          exact fun zero => last (BitVec.eq_of_toNat_eq zero)
        have less : value.toNat / base.toNat < base.toNat ^ fuel := by
          rw [pow_succ] at small
          exact Nat.div_lt_of_lt_mul (by rwa [Nat.mul_comm])
        have left : 0 < fuel := by
          rcases Nat.eq_zero_or_pos fuel with rfl | left
          · exact absurd (Nat.lt_one_iff.mp less) more
          · exact left
        have length := Numerals.lowFirst_length wide left less
        have next : str + BitVec.ofNat 64 i + BitVec.ofNat 64 1 = str + BitVec.ofNat 64 (i + 1) := by
          rw [BitVec.add_assoc, ← BitVec.ofNat_add]
        have joined := @write_add 64 m (str + BitVec.ofNat 64 i) [rtToChar value base]
          ((Numerals.lowFirst base.toNat (value.toNat / base.toNat)).map digitChar)
          (by rw [List.length_map, List.length_singleton]; omega)
        have step : digitRound str base (i, value, m) = .again (i + 1, value / base.signExtend 64,
            write m (str + BitVec.ofNat 64 i) [rtToChar value base]) := if_pos last
        rw [List.length_singleton, next] at joined
        rw [loop_again step, ih left (by rwa [quotient_toNat two]) (by omega), quotient_toNat two, joined,
          Numerals.lowFirst_next more wide, List.map_cons, List.length_cons, rtToChar_eq two, List.singleton_append,
          Nat.add_right_comm, Nat.add_assoc i]

theorem rtToString_val (live : str ≠ 0) (two : 2 ≤ base.toInt) (hex : base.toInt ≤ 16) (enough : 64 ≤ fuel)
    (size : n = (Numerals.lowFirst base.toNat value.toNat).length) : rtToString fuel str value base m = some (true,
      swapFrom str n (n / 2) 0
        (write m str ((Numerals.lowFirst base.toNat value.toNat).map digitChar ++ [0]))) := by
  obtain ⟨wide, -⟩ := base_bounds two hex
  have small : value.toNat < base.toNat ^ 64 := Nat.lt_of_lt_of_le value.isLt (Nat.pow_le_pow_left wide 64)
  have length := Numerals.lowFirst_length wide (by decide) small
  have runs : loop (digitRound str base) 64 (0, value, m) =
      some (0 + (Numerals.lowFirst base.toNat value.toNat).length,
        write m (str + BitVec.ofNat 64 0) ((Numerals.lowFirst base.toNat value.toNat).map digitChar)) :=
    digits_written two wide (by decide) small (by decide)
  have ends := (loop_steady (digitRound str base) (0, value, m)).mono runs enough
  have inside : ¬ (str = 0 ∨ base.slt 2 ∨ BitVec.slt 16 base) := by
    rw [BitVec.slt_iff_toInt_lt, BitVec.slt_iff_toInt_lt]
    rintro (null | low | high)
    · exact live null
    · exact absurd low (Int.not_lt.mpr two)
    · exact absurd high (Int.not_lt.mpr hex)
  have joined := @write_add 64 m str ((Numerals.lowFirst base.toNat value.toNat).map digitChar) [0]
    (by rw [List.length_map, List.length_singleton]; omega)
  rw [List.length_map, ← size] at joined
  rw [Nat.zero_add, ← size, BitVec.add_zero] at ends
  rw [rtToString, if_neg inside, ends, Option.map_some]
  dsimp only
  rw [joined]

end Digits

/-- The digits that are written read back as the number. -/
theorem rtToString_writes (str : UIntPtr) (live : str ≠ 0) (value : BitVec 64) (base : BitVec 32)
    (two : 2 ≤ base.toInt) (hex : base.toInt ≤ 16) (m : Memory) : ∃ n m',
    (∀ fuel, 64 ≤ fuel → rtToString fuel str value base m = some (true, m')) ∧
    WritesNumber (read m' str n) base.toNat value.toNat ∧
    0 ∉ read m' str n ∧ m' (str + BitVec.ofNat 64 n) = 0 ∧ SameOutside str (n + 1) m m' := by
  obtain ⟨wide, narrow⟩ := base_bounds two hex
  have small : value.toNat < base.toNat ^ 64 := Nat.lt_of_lt_of_le value.isLt (Nat.pow_le_pow_left wide 64)
  have short := Numerals.lowFirst_length wide (by decide) small
  generalize length : (Numerals.lowFirst base.toNat value.toNat).length = n at short
  refine ⟨n, _, fun fuel enough => rtToString_val live two hex enough length.symm, ?_⟩
  generalize stored : write m str ((Numerals.lowFirst base.toNat value.toNat).map digitChar ++ [0]) = m₁
  have text : read (swapFrom str n (n / 2) 0 m₁) str n =
      (Numerals.lowFirst base.toNat value.toNat).reverse.map digitChar := by
    have before : read m₁ str (n + 1) = (Numerals.lowFirst base.toNat value.toNat).map digitChar ++ [0] := by
      have whole := @read_write_same 64 m str ((Numerals.lowFirst base.toNat value.toNat).map digitChar ++ [0])
      rw [stored, List.length_append, List.length_map, List.length_singleton, length] at whole
      exact whole (by omega)
    rw [read_add] at before
    have front := (List.append_inj before (by rw [read_length, List.length_map, length])).1
    rw [swapFrom_reverses (by omega), front, List.map_reverse]
  refine ⟨?_, ?_, ?_, ?_⟩
  · rw [text]
    exact writesNumber_lowFirst wide narrow value.toNat
  · rw [text]
    intro null
    obtain ⟨d, member, char⟩ := List.mem_map.mp null
    have below := Numerals.lowFirst_lt wide (List.mem_reverse.mp member)
    exact digitChar_nonnull (by omega) char
  · rw [swapFrom_same (by omega), ← stored]
    · rw [write_inside n (by omega) (by simp [length])]
      simp [length]
    · rw [Within, BitVec.add_comm, BitVec.add_sub_cancel, BitVec.toNat_ofNat, Nat.mod_eq_of_lt (by omega)]
      exact Nat.lt_irrefl n
  · intro x outside
    rw [swapFrom_same (by omega) x fun inside => outside (inside.mono (Nat.le_succ n)), ← stored]
    exact write_outside fun inside => outside (by simpa [length] using inside)

theorem rtToString_writes_hex : ∃ n m',
    (∀ fuel, 64 ≤ fuel → rtToString fuel 0x1000 0xBEEF 16 (fun _ => 0) = some (true, m')) ∧
    WritesNumber (read m' 0x1000 n) 16 0xBEEF ∧
    0 ∉ read m' 0x1000 n ∧ m' (0x1000 + BitVec.ofNat 64 n) = 0 ∧ SameOutside 0x1000 (n + 1) (fun _ => 0) m' :=
  rtToString_writes 0x1000 (by decide) 0xBEEF 16 (by decide) (by decide) fun _ => 0

end Ne.Kernel
