import NeKernel.Lib.Numerals
import NeKernel.Lib.Terminated
import NeKernel.Machine

/-!
# Checking the text of an address

`IpCheckVersion4` counts dots, and characters since the last dot. It never compares the number of a part
with 255, and takes the digits up to 5 only.
-/

namespace Ne.Kernel
open ByteMem Numerals

def rtIsAlnum (ch : BitVec 32) : Bool :=
  ((0x61#32).sle ch && ch.sle 0x7A#32) || ((0x41#32).sle ch && ch.sle 0x5A#32) || ((0x30#32).sle ch && ch.sle 0x39#32)

def kIP4DotCharacter : Byte := 0x2E

/-- The loop of `IpCheckVersion4` with `left` rounds left. Its bound, asked for in each round, stays the same. -/
def ipScan (m : Memory) (ip : UIntPtr) : Nat → Nat → BitVec 32 → BitVec 32 → Bool
  | 0, _, _, dotCnter => dotCnter = 3
  | left + 1, base, cnter, dotCnter =>
      let c := m (ip + BitVec.ofNat 64 base)
      if c = kIP4DotCharacter then ipScan m ip left (base + 1) 0 (dotCnter + 1)
      else if (0x35#8).slt c || c.slt 0x30#8 then false
      else if !rtIsAlnum (c.signExtend 32) then false
      else if (3#32).slt cnter then false
      else ipScan m ip left (base + 1) (cnter + 1) dotCnter

def ipCheckVersion4 (m : Memory) (ip : UIntPtr) : Bool := if ip = 0 then false else ipScan m ip (strLen m ip) 0 0 0

/-- A number up to 255 in one to three decimal digits. -/
def Octet (part : List Byte) : Prop :=
  (1 ≤ part.length ∧ part.length ≤ 3) ∧ ∃ n, value 10 part = some n ∧ n ≤ 255

/-- Four octets with single dots between them. -/
def IsAddress (text : List Byte) : Prop :=
  ∃ a b c d, (Octet a ∧ Octet b ∧ Octet c ∧ Octet d) ∧
    text = a ++ kIP4DotCharacter :: (b ++ kIP4DotCharacter :: (c ++ kIP4DotCharacter :: d))

def parts (text : List Byte) : List (List Byte) := text.splitOn kIP4DotCharacter

/-- A digit from 0 to 5. -/
def Low (c : Byte) : Prop := 0x30 ≤ c ∧ c ≤ 0x35

instance (c : Byte) : Decidable (Low c) := inferInstanceAs (Decidable (_ ∧ _))

/-- At most four digits, and those from 0 to 5. -/
def Short (part : List Byte) : Prop := part.length ≤ 4 ∧ ∀ c ∈ part, Low c

/-- The parts are short, of the first one `n` characters being behind. -/
def ShortFrom (n : Nat) : List (List Byte) → Prop
  | [] => True
  | part :: rest => (n + part.length ≤ 4 ∧ ∀ c ∈ part, Low c) ∧ ∀ part ∈ rest, Short part

/-- An address with a digit from 6 on. -/
def HighDigit (text : List Byte) : Prop := IsAddress text ∧ ∃ c ∈ text, 0x36 ≤ c

/-- Short parts between dots as three would give them, of which one is empty, has four digits or is above
255. The count of the dots wraps around, so there may be more than three of them. -/
def Misshapen (text : List Byte) : Prop :=
  ((∀ part ∈ parts text, Short part) ∧ text.count kIP4DotCharacter % 2 ^ 32 = 3) ∧
    (text.count kIP4DotCharacter ≠ 3 ∨
      ∃ part ∈ parts text, part = [] ∨ part.length = 4 ∨ ∃ n, value 10 part = some n ∧ 255 < n)

section Scan
variable {m : Memory} {ip : UIntPtr} {text part : List Byte} {c : Byte} {n left base : Nat} {dots : BitVec 32}

theorem parts_nonempty : parts text ≠ [] := List.splitOn_ne_nil _ _

theorem parts_dot : parts (kIP4DotCharacter :: text) = [] :: parts text := by
  rw [parts, List.splitOn_cons_eq_if_modifyHead, if_pos (by simp), parts]

theorem parts_cons (other : c ≠ kIP4DotCharacter) : parts (c :: text) = (parts text).modifyHead (List.cons c) := by
  rw [parts, List.splitOn_cons_eq_if_modifyHead, if_neg (by simpa using other), parts]

theorem parts_length : (parts text).length = text.count kIP4DotCharacter + 1 := by
  induction text with
  | nil => rfl
  | cons c text ih =>
      by_cases dot : c = kIP4DotCharacter
      · rw [dot, parts_dot, List.length_cons, ih, List.count_cons_self]
      · rw [parts_cons dot, List.length_modifyHead, ih, List.count_cons_of_ne dot]

theorem shortFrom_dot : ShortFrom n (parts (kIP4DotCharacter :: text)) ↔ n ≤ 4 ∧ ShortFrom 0 (parts text) := by
  rw [parts_dot, ShortFrom]
  cases split : parts text with
  | nil => simp [ShortFrom]
  | cons part rest => simp [ShortFrom, Short]

theorem shortFrom_cons (other : c ≠ kIP4DotCharacter) :
    ShortFrom n (parts (c :: text)) ↔ Low c ∧ ShortFrom (n + 1) (parts text) := by
  rw [parts_cons other]
  cases split : parts text with
  | nil => exact absurd split parts_nonempty
  | cons part rest =>
      rw [List.modifyHead_cons, ShortFrom, ShortFrom, List.length_cons, List.forall_mem_cons,
        show n + (part.length + 1) = n + 1 + part.length by omega]
      constructor
      · rintro ⟨⟨short, low, lows⟩, later⟩
        exact ⟨low, ⟨short, lows⟩, later⟩
      · rintro ⟨low, ⟨short, lows⟩, later⟩
        exact ⟨⟨short, low, lows⟩, later⟩

theorem shortFrom_zero : ShortFrom 0 (parts text) ↔ ∀ part ∈ parts text, Short part := by
  cases split : parts text with
  | nil => simp [ShortFrom]
  | cons part rest => simp [ShortFrom, Short]

theorem ShortFrom.bound (short : ShortFrom n (parts text)) : n ≤ 4 := by
  cases split : parts text with
  | nil => exact absurd split parts_nonempty
  | cons part rest =>
      rw [split, ShortFrom] at short
      omega

theorem low_iff : ∀ c : Byte, ((0x35#8).slt c || c.slt 0x30#8) = false ↔ Low c := by
  decide +kernel

theorem low_alnum : ∀ c : Byte, Low c → rtIsAlnum (c.signExtend 32) = true := by
  decide +kernel

theorem full_iff : ∀ n ≤ 4, (3#32).slt (BitVec.ofNat 32 n) = true ↔ n = 4 := by
  decide

theorem ipScan_iff (here : Text m ip text) (bounded : n ≤ 4) (all : base + left = text.length) :
    ipScan m ip left base (BitVec.ofNat 32 n) dots = true ↔
      ShortFrom n (parts (text.drop base)) ∧ dots + BitVec.ofNat 32 ((text.drop base).count kIP4DotCharacter) = 3 := by
  -- `n` characters of the part at hand are behind, and `dots` separators
  induction left generalizing base n dots with
  | zero =>
      rw [List.drop_eq_nil_of_le (by omega), ipScan, decide_eq_true_iff]
      simp [parts, ShortFrom, bounded]
  | succ left ih =>
      have inside : base < text.length := by omega
      rw [ipScan, here.at inside, List.drop_eq_getElem_cons inside]
      generalize text[base] = c
      by_cases dot : c = kIP4DotCharacter
      · rw [if_pos dot, dot, shortFrom_dot, List.count_cons_self, show (0 : BitVec 32) = BitVec.ofNat 32 0 from rfl,
          ih (Nat.zero_le _) (by omega), BitVec.ofNat_add, BitVec.add_assoc, BitVec.add_comm 1]
        exact and_congr_left fun _ => (and_iff_right bounded).symm
      rw [if_neg dot, shortFrom_cons dot, List.count_cons_of_ne dot]
      by_cases low : Low c
      · rw [(low_iff c).mpr low, low_alnum c low]
        by_cases full : n = 4
        · have beyond : ¬ ShortFrom (n + 1) (parts (text.drop (base + 1))) := fun short => absurd short.bound (by omega)
          simp only [Bool.false_eq_true, Bool.not_true, if_false, if_pos ((full_iff n bounded).mpr full), false_iff]
          exact not_and.mpr fun short => absurd short.2 beyond
        · have more : BitVec.ofNat 32 n + 1 = BitVec.ofNat 32 (n + 1) := (BitVec.ofNat_add ..).symm
          have room : (3#32).slt (BitVec.ofNat 32 n) = false := by
            rw [← Bool.not_eq_true, full_iff n bounded]
            exact full
          rw [room, more]
          simp only [Bool.false_eq_true, Bool.not_true, if_false, low, true_and]
          exact ih (by omega) (by omega)
      · have foreign : ((0x35#8).slt c || c.slt 0x30#8) = true := by
          rw [← Bool.not_eq_false, low_iff]
          exact low
        rw [if_pos foreign]
        simp [low]

/-- The exact language that the check accepts. -/
theorem ipCheckVersion4_iff (here : Text m ip text) :
    ipCheckVersion4 m ip = true ↔ (∀ part ∈ parts text, Short part) ∧ text.count kIP4DotCharacter % 2 ^ 32 = 3 := by
  rw [ipCheckVersion4, if_neg here.nonnull, here.strLen_eq, show (0 : BitVec 32) = BitVec.ofNat 32 0 from rfl,
    ipScan_iff here (Nat.zero_le _) (Nat.zero_add _), List.drop_zero, shortFrom_zero]
  refine and_congr_right fun _ => ?_
  rw [← BitVec.toNat_inj, BitVec.toNat_add, BitVec.toNat_ofNat, BitVec.toNat_ofNat]
  rw [Nat.zero_mod, Nat.zero_add, Nat.mod_mod]
  rfl

/-! ## The addresses -/

theorem low_digit : ∀ c : Byte, Low c → (digitIn 10 c).isSome := by
  decide +kernel

theorem digit_low : ∀ c : Byte, (digitIn 10 c).isSome → (Low c ↔ ¬ 0x36 ≤ c) := by
  decide +kernel

theorem Octet.no_dot (octet : Octet part) : kIP4DotCharacter ∉ part := by
  obtain ⟨-, v, reads, -⟩ := octet
  intro member
  obtain ⟨d, digit⟩ := valueFrom_digits reads _ member
  cases digit

theorem isAddress_iff : IsAddress text ↔ text.count kIP4DotCharacter = 3 ∧ ∀ part ∈ parts text, Octet part := by
  constructor
  · rintro ⟨a, b, c, d, ⟨first, second, third, fourth⟩, rfl⟩
    have split : parts (a ++ kIP4DotCharacter :: (b ++ kIP4DotCharacter :: (c ++ kIP4DotCharacter :: d))) =
        [a, b, c, d] := by
      rw [parts, List.splitOn_append_cons_self_of_not_mem first.no_dot,
        List.splitOn_append_cons_self_of_not_mem second.no_dot, List.splitOn_append_cons_self_of_not_mem third.no_dot,
        List.splitOn_eq_singleton fourth.no_dot]
    have four := @parts_length (a ++ kIP4DotCharacter :: (b ++ kIP4DotCharacter :: (c ++ kIP4DotCharacter :: d)))
    rw [split] at four ⊢
    refine ⟨(Nat.succ.inj four).symm, ?_⟩
    simp only [List.forall_mem_cons, List.not_mem_nil, false_implies, implies_true, and_true]
    exact ⟨first, second, third, fourth⟩
  · rintro ⟨three, octets⟩
    have four : (parts text).length = 4 := by rw [parts_length, three]
    have joined : [kIP4DotCharacter].intercalate (parts text) = text := List.intercalate_splitOn _
    obtain ⟨a, b, c, d, split⟩ := List.length_eq_four.mp four
    rw [split] at joined octets
    simp only [List.forall_mem_cons, List.not_mem_nil, false_implies, implies_true, and_true] at octets
    refine ⟨a, b, c, d, octets, ?_⟩
    rw [← joined]
    simp [List.intercalate]

theorem Short.octet_iff (short : Short part) :
    Octet part ↔ ¬ (part = [] ∨ part.length = 4 ∨ ∃ n, value 10 part = some n ∧ 255 < n) := by
  obtain ⟨v, reads⟩ := valueFrom_of_digits 0 fun c member =>
    Option.isSome_iff_exists.mp (low_digit c (short.2 c member))
  have reads : value 10 part = some v := reads
  have bound := short.1
  have filled : part = [] ↔ part.length = 0 := List.length_eq_zero_iff.symm
  rw [filled]
  constructor
  · rintro ⟨lengths, n, reads', small⟩ wrong
    rcases wrong with empty | long | ⟨k, large, beyond⟩
    · omega
    · omega
    · rw [reads'] at large
      have same := Option.some.inj large
      omega
  · intro none
    obtain ⟨empty, rest⟩ := not_or.mp none
    obtain ⟨long, beyond⟩ := not_or.mp rest
    refine ⟨by omega, v, reads, ?_⟩
    by_contra large
    exact beyond ⟨v, reads, by omega⟩

theorem Octet.short_iff (octet : Octet part) : Short part ↔ ∀ c ∈ part, ¬ 0x36 ≤ c := by
  obtain ⟨lengths, v, reads, -⟩ := octet
  have digits (c : Byte) (member : c ∈ part) : Low c ↔ ¬ 0x36 ≤ c := by
    obtain ⟨d, digit⟩ := valueFrom_digits reads c member
    exact digit_low c (by rw [digit]; rfl)
  constructor
  · intro short c member
    exact (digits c member).mp (short.2 c member)
  · intro small
    exact ⟨by omega, fun c member => (digits c member).mpr (small c member)⟩

theorem forall_parts {P : Byte → Prop} :
    (∀ part ∈ parts text, ∀ c ∈ part, P c) ↔ ∀ c ∈ text, c ≠ kIP4DotCharacter → P c := by
  induction text with
  | nil => simp [parts]
  | cons c text ih =>
      by_cases dot : c = kIP4DotCharacter
      · rw [dot, parts_dot, List.forall_mem_cons, List.forall_mem_cons, ih]
        simp
      · rw [parts_cons dot, List.forall_mem_cons, ← ih]
        cases split : parts text with
        | nil => exact absurd split parts_nonempty
        | cons part rest => simp [dot, and_assoc]

theorem IsAddress.accepted_iff (address : IsAddress text) :
    ((∀ part ∈ parts text, Short part) ∧ text.count kIP4DotCharacter % 2 ^ 32 = 3) ↔ ¬ ∃ c ∈ text, 0x36 ≤ c := by
  obtain ⟨three, octets⟩ := isAddress_iff.mp address
  have small : (∀ part ∈ parts text, Short part) ↔ ∀ part ∈ parts text, ∀ c ∈ part, ¬ 0x36 ≤ c :=
    forall₂_congr fun part member => (octets part member).short_iff
  rw [small, forall_parts, three]
  constructor
  · rintro ⟨low, -⟩ ⟨c, member, high⟩
    refine low c member (fun dot => ?_) high
    rw [dot] at high
    exact absurd high (by decide)
  · intro none
    exact ⟨fun c member _ high => none ⟨c, member, high⟩, rfl⟩

theorem address_iff_shape (accepted : (∀ part ∈ parts text, Short part) ∧ text.count kIP4DotCharacter % 2 ^ 32 = 3) :
    IsAddress text ↔ ¬ (text.count kIP4DotCharacter ≠ 3 ∨
      ∃ part ∈ parts text, part = [] ∨ part.length = 4 ∨ ∃ n, value 10 part = some n ∧ 255 < n) := by
  have octets : (∀ part ∈ parts text, Octet part) ↔
      ∀ part ∈ parts text, ¬ (part = [] ∨ part.length = 4 ∨ ∃ n, value 10 part = some n ∧ 255 < n) :=
    forall₂_congr fun part member => (accepted.1 part member).octet_iff
  rw [isAddress_iff, octets, not_or, not_not]
  refine and_congr_right fun _ => ?_
  simp only [not_exists, not_and]

/-- The check tells addresses from other texts exactly where neither of its two mistakes applies. -/
theorem ipCheckVersion4_decides_iff (here : Text m ip text) :
    (ipCheckVersion4 m ip = true ↔ IsAddress text) ↔ ¬ HighDigit text ∧ ¬ Misshapen text := by
  rw [ipCheckVersion4_iff here]
  constructor
  · intro decides
    constructor
    · rintro ⟨address, high⟩
      exact address.accepted_iff.mp (decides.mpr address) high
    · rintro ⟨accepted, wrong⟩
      exact (address_iff_shape accepted).mp (decides.mp accepted) wrong
  · rintro ⟨noHigh, noShape⟩
    constructor
    · intro accepted
      exact (address_iff_shape accepted).mpr fun wrong => noShape ⟨accepted, wrong⟩
    · intro address
      exact address.accepted_iff.mpr fun high => noHigh ⟨address, high⟩

theorem ipCheckVersion4_decides_address :
    (ipCheckVersion4 (write (fun _ => 0) 0x1000 [0x31, 0x2E, 0x32, 0x2E, 0x33, 0x2E, 0x34]) 0x1000 = true ↔
      IsAddress [0x31, 0x2E, 0x32, 0x2E, 0x33, 0x2E, 0x34]) ↔
    ¬ HighDigit [0x31, 0x2E, 0x32, 0x2E, 0x33, 0x2E, 0x34] ∧ ¬ Misshapen [0x31, 0x2E, 0x32, 0x2E, 0x33, 0x2E, 0x34] :=
  ipCheckVersion4_decides_iff ⟨by decide, by decide, by decide, by decide +kernel⟩

theorem ipCheckVersion4_refuses_six :
    Text (write (fun _ => 0) 0x1000 [0x31, 0x30, 0x2E, 0x30, 0x2E, 0x30, 0x2E, 0x36]) 0x1000
      [0x31, 0x30, 0x2E, 0x30, 0x2E, 0x30, 0x2E, 0x36] ∧
    ¬ (ipCheckVersion4 (write (fun _ => 0) 0x1000 [0x31, 0x30, 0x2E, 0x30, 0x2E, 0x30, 0x2E, 0x36]) 0x1000 = true ↔
      IsAddress [0x31, 0x30, 0x2E, 0x30, 0x2E, 0x30, 0x2E, 0x36]) := by
  have here : Text (write (fun _ => 0) 0x1000 [0x31, 0x30, 0x2E, 0x30, 0x2E, 0x30, 0x2E, 0x36]) 0x1000
      [0x31, 0x30, 0x2E, 0x30, 0x2E, 0x30, 0x2E, 0x36] :=
    ⟨by decide, by decide, by decide, by decide +kernel⟩
  have address : IsAddress [0x31, 0x30, 0x2E, 0x30, 0x2E, 0x30, 0x2E, 0x36] :=
    ⟨[0x31, 0x30], [0x30], [0x30], [0x36],
      ⟨⟨by decide, 10, rfl, by decide⟩, ⟨by decide, 0, rfl, by decide⟩, ⟨by decide, 0, rfl, by decide⟩,
        ⟨by decide, 6, rfl, by decide⟩⟩, rfl⟩
  refine ⟨here, fun decides => ?_⟩
  have accepted := (ipCheckVersion4_iff here).mp (decides.mpr address)
  exact address.accepted_iff.mp accepted ⟨0x36, by decide, by decide⟩

end Scan

end Ne.Kernel
