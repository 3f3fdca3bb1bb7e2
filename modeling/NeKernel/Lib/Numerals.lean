import Mathlib.Data.Nat.Digits.Defs
import Mathlib.Data.Nat.Digits.Lemmas
import NeKernel.Lib.ByteMem

/-!
# Numbers written in a base

The digits of a text, the most significant one first. Letters are digits from ten on, whatever their
case.
-/

namespace Numerals
open ByteMem

def digitValue (c : Byte) : Option ℕ :=
  if 0x30 ≤ c ∧ c ≤ 0x39 then some (c.toNat - 0x30)
  else if 0x41 ≤ c ∧ c ≤ 0x5A then some (c.toNat - 0x41 + 10)
  else if 0x61 ≤ c ∧ c ≤ 0x7A then some (c.toNat - 0x61 + 10)
  else none

def digitIn (base : ℕ) (c : Byte) : Option ℕ := (digitValue c).filter (· < base)

/-- The number that the digits write behind the ones that make up `n`. -/
def valueFrom (base n : ℕ) (text : List Byte) : Option ℕ :=
  text.foldlM (fun n c => (digitIn base c).map (n * base + ·)) n

/-- The number that a text writes, nothing when some character is no digit of the base. -/
def value (base : ℕ) (text : List Byte) : Option ℕ := valueFrom base 0 text

section Values
variable {base n : ℕ} {c : Byte} {text rest : List Byte}

@[simp] theorem valueFrom_nil : valueFrom base n [] = some n := rfl

theorem valueFrom_cons : valueFrom base n (c :: text) =
    (digitIn base c).bind fun d => valueFrom base (n * base + d) text := by
  unfold valueFrom
  rw [List.foldlM_cons]
  cases digitIn base c <;> rfl

theorem valueFrom_append : valueFrom base n (text ++ rest) =
    (valueFrom base n text).bind fun k => valueFrom base k rest := by
  unfold valueFrom
  exact List.foldlM_append

theorem valueFrom_digits {k : ℕ} (reads : valueFrom base n text = some k) :
    ∀ c ∈ text, ∃ d, digitIn base c = some d := by
  induction text generalizing n with
  | nil => exact fun _ member => absurd member List.not_mem_nil
  | cons c text ih =>
      rw [valueFrom_cons] at reads
      obtain ⟨d, digit, later⟩ := Option.bind_eq_some_iff.mp reads
      exact List.forall_mem_cons.mpr ⟨⟨d, digit⟩, ih later⟩

theorem valueFrom_of_digits (n : ℕ) (digits : ∀ c ∈ text, ∃ d, digitIn base c = some d) :
    ∃ k, valueFrom base n text = some k := by
  induction text generalizing n with
  | nil => exact ⟨n, rfl⟩
  | cons c text ih =>
      obtain ⟨⟨d, digit⟩, later⟩ := List.forall_mem_cons.mp digits
      obtain ⟨k, reads⟩ := ih (n * base + d) later
      exact ⟨k, by rw [valueFrom_cons, digit, Option.bind_some, reads]⟩

theorem valueFrom_le {k : ℕ} (positive : 0 < base) (reads : valueFrom base n text = some k) : n ≤ k := by
  induction text generalizing n with
  | nil => exact (Option.some.inj reads).le
  | cons c text ih =>
      rw [valueFrom_cons] at reads
      obtain ⟨d, -, later⟩ := Option.bind_eq_some_iff.mp reads
      have more := ih later
      have scaled : n ≤ n * base := Nat.le_mul_of_pos_right n positive
      omega

end Values

/-- The digits that a text begins with. -/
def leading (base : ℕ) (text : List Byte) : List Byte := text.takeWhile fun c => (digitIn base c).isSome

def behind (base : ℕ) (text : List Byte) : List Byte := text.dropWhile fun c => (digitIn base c).isSome

section Leading
variable {base n d k : ℕ} {c : Byte} {text front : List Byte}

theorem leading_behind (base : ℕ) (text : List Byte) : leading base text ++ behind base text = text :=
  List.takeWhile_append_dropWhile

theorem leading_cons (digit : digitIn base c = some d) : leading base (c :: text) = c :: leading base text := by
  simp [leading, digit]

theorem behind_cons (digit : digitIn base c = some d) : behind base (c :: text) = behind base text := by
  simp [behind, digit]

theorem leading_stop (other : digitIn base c = none) : leading base (c :: text) = [] := by
  simp [leading, other]

theorem leading_value (base n : ℕ) (text : List Byte) : ∃ k, valueFrom base n (leading base text) = some k := by
  induction text generalizing n with
  | nil => exact ⟨n, rfl⟩
  | cons c text ih =>
      cases digit : digitIn base c with
      | none => exact ⟨n, by rw [leading_stop digit, valueFrom_nil]⟩
      | some d =>
          obtain ⟨k, reads⟩ := ih (n * base + d)
          exact ⟨k, by rw [leading_cons digit, valueFrom_cons, digit, Option.bind_some, reads]⟩

theorem leading_longest (starts : front <+: text) (reads : valueFrom base n front = some k) :
    front.length ≤ (leading base text).length := by
  induction front generalizing n text with
  | nil => exact Nat.zero_le _
  | cons c front ih =>
      obtain ⟨rest, rfl⟩ := starts
      rw [valueFrom_cons] at reads
      obtain ⟨d, digit, later⟩ := Option.bind_eq_some_iff.mp reads
      rw [List.cons_append, leading_cons digit, List.length_cons, List.length_cons]
      exact Nat.succ_le_succ (ih (List.prefix_append front rest) later)

end Leading

/-! ## Digits, the least significant one first -/

/-- The digits of `n`, a single zero when it is zero. -/
def lowFirst (base n : ℕ) : List ℕ := if n = 0 then [0] else Nat.digits base n

section Digits
variable {base n d : ℕ} {char : ℕ → Byte}

theorem lowFirst_last (small : n / base = 0) (wide : 2 ≤ base) : lowFirst base n = [n % base] := by
  unfold lowFirst
  split
  · next zero => rw [zero, Nat.zero_mod]
  · next positive =>
      rw [Nat.digits_def' wide (Nat.pos_of_ne_zero positive), small, Nat.digits_zero]

theorem lowFirst_next (more : n / base ≠ 0) (wide : 2 ≤ base) :
    lowFirst base n = n % base :: lowFirst base (n / base) := by
  have positive : n ≠ 0 := by
    rintro rfl
    exact more (Nat.zero_div base)
  rw [lowFirst, if_neg positive, Nat.digits_def' wide (Nat.pos_of_ne_zero positive), lowFirst, if_neg more]

theorem lowFirst_lt (wide : 2 ≤ base) (member : d ∈ lowFirst base n) : d < base := by
  unfold lowFirst at member
  split at member
  · rw [List.mem_singleton.mp member]
    omega
  · exact Nat.digits_lt_base wide member

theorem ofDigits_lowFirst (base n : ℕ) : Nat.ofDigits base (lowFirst base n) = n := by
  unfold lowFirst
  split
  · next zero => rw [zero, Nat.ofDigits_singleton]
  · exact Nat.ofDigits_digits base n

theorem lowFirst_ne_nil (base n : ℕ) : lowFirst base n ≠ [] := by
  unfold lowFirst
  split
  · exact List.cons_ne_nil _ _
  · next positive => exact Nat.digits_ne_nil_iff_ne_zero.mpr positive

/-- The most significant digit is zero only in a single zero. -/
theorem lowFirst_leads (leads : (lowFirst base n).getLast? = some 0) : lowFirst base n = [0] := by
  unfold lowFirst at leads ⊢
  split
  · rfl
  · next positive =>
      rw [if_neg positive, List.getLast?_eq_some_getLast (Nat.digits_ne_nil_iff_ne_zero.mpr positive)] at leads
      exact absurd (Option.some.inj leads) (Nat.getLast_digit_ne_zero base positive)

theorem lowFirst_length (wide : 2 ≤ base) {k : ℕ} (positive : 0 < k) (small : n < base ^ k) :
    (lowFirst base n).length ≤ k := by
  unfold lowFirst
  split
  · exact positive
  · exact (Nat.digits_length_le_iff wide n).mpr small

theorem value_reverse {ds : List ℕ} (read : ∀ d ∈ ds, digitIn base (char d) = some d) :
    value base (ds.reverse.map char) = some (Nat.ofDigits base ds) := by
  induction ds with
  | nil => rfl
  | cons d ds ih =>
      have front := ih fun e member => read e (List.mem_cons_of_mem d member)
      unfold value at front ⊢
      rw [List.reverse_cons, List.map_append, valueFrom_append, front, Option.bind_some, List.map_singleton,
        valueFrom_cons, read d List.mem_cons_self, Option.bind_some, valueFrom_nil, Nat.ofDigits_cons]
      congr 1
      ring

end Digits

end Numerals
