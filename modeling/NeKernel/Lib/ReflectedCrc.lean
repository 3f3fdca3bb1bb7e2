import Mathlib.Logic.Function.Iterate
import Mathlib.Data.Nat.Notation

/-!
# Reflected cyclic redundancy checks

The register moves down one bit at a time, and takes the polynomial in when a one falls out. Both are
linear, so the low bits of a register and its high bits can be moved apart: a table of what the low
bits become replaces the steps.
-/

namespace ReflectedCrc

variable {w : ℕ}

def bitStep (poly c : BitVec w) : BitVec w := if c.getLsbD 0 then (c >>> 1) ^^^ poly else c >>> 1

def byteStep (poly c : BitVec w) (byte : BitVec 8) : BitVec w := (bitStep poly)^[8] (c ^^^ byte.setWidth w)

/-- The check of a byte string, bit by bit. -/
def check (poly init out : BitVec w) (bytes : List (BitVec 8)) : BitVec w :=
  bytes.foldl (byteStep poly) init ^^^ out

section Steps
variable {poly c d : BitVec w} {n : ℕ}

theorem bitStep_xor (poly c d : BitVec w) : bitStep poly (c ^^^ d) = bitStep poly c ^^^ bitStep poly d := by
  have cancel (a b : BitVec w) : a ^^^ poly ^^^ (b ^^^ poly) = a ^^^ b := by
    rw [BitVec.xor_assoc, ← BitVec.xor_assoc poly, BitVec.xor_comm poly b, BitVec.xor_assoc b, BitVec.xor_self,
      BitVec.xor_zero]
  unfold bitStep
  rw [BitVec.getLsbD_xor, BitVec.ushiftRight_xor_distrib]
  cases c.getLsbD 0 <;> cases d.getLsbD 0
  · rfl
  · exact BitVec.xor_assoc _ _ _
  · show c >>> 1 ^^^ d >>> 1 ^^^ poly = c >>> 1 ^^^ poly ^^^ d >>> 1
    rw [BitVec.xor_assoc, BitVec.xor_comm _ poly, BitVec.xor_assoc]
  · exact (cancel _ _).symm

theorem iterate_xor (poly c d : BitVec w) (n : ℕ) :
    (bitStep poly)^[n] (c ^^^ d) = (bitStep poly)^[n] c ^^^ (bitStep poly)^[n] d := by
  induction n with
  | zero => rfl
  | succ n ih => rw [Function.iterate_succ_apply', Function.iterate_succ_apply', Function.iterate_succ_apply', ih,
      bitStep_xor]

/-- A register whose low bits are clear only moves down. -/
theorem iterate_clear (clear : ∀ i < n, c.getLsbD i = false) : (bitStep poly)^[n] c = c >>> n := by
  induction n with
  | zero => rw [BitVec.ushiftRight_zero]; rfl
  | succ n ih =>
      have low : (c >>> n).getLsbD 0 = false := by
        rw [BitVec.getLsbD_ushiftRight]
        exact clear n (Nat.lt_succ_self n)
      rw [Function.iterate_succ_apply', ih fun i below => clear i (Nat.lt_succ_of_lt below), bitStep, low,
        if_neg Bool.false_ne_true, BitVec.shiftRight_add]

/-- The low bits take the steps, the others move down behind them. -/
theorem iterate_split (poly c : BitVec w) {mask : BitVec w}
    (low : ∀ i < w, mask.getLsbD i = decide (i < n)) :
    (bitStep poly)^[n] c = (bitStep poly)^[n] (c &&& mask) ^^^ (c >>> n) := by
  have parts : c = (c &&& mask) ^^^ (c &&& ~~~mask) := by
    apply BitVec.eq_of_getLsbD_eq
    intro i below
    rw [BitVec.getLsbD_xor, BitVec.getLsbD_and, BitVec.getLsbD_and, BitVec.getLsbD_not]
    cases c.getLsbD i <;> cases mask.getLsbD i <;> simp [below]
  have clear : ∀ i < n, (c &&& ~~~mask).getLsbD i = false := by
    intro i below
    rw [BitVec.getLsbD_and, BitVec.getLsbD_not]
    by_cases inside : i < w
    · simp [low i inside, below]
    · simp [inside]
  have moved : (c &&& ~~~mask) >>> n = c >>> n := by
    apply BitVec.eq_of_getLsbD_eq
    intro i _
    rw [BitVec.getLsbD_ushiftRight, BitVec.getLsbD_ushiftRight, BitVec.getLsbD_and, BitVec.getLsbD_not]
    by_cases inside : n + i < w
    · rw [low _ inside]
      simp [inside]
    · simp [BitVec.getLsbD_of_ge c (n + i) (by omega)]
  calc (bitStep poly)^[n] c = (bitStep poly)^[n] ((c &&& mask) ^^^ (c &&& ~~~mask)) := by rw [← parts]
    _ = _ := by rw [iterate_xor, iterate_clear clear, moved]

end Steps

/-- A table of what the 256 low bytes become. -/
def Tabulates (poly : BitVec w) (table : BitVec w → BitVec w) : Prop :=
  ∀ i : BitVec w, i.toNat < 256 → table i = (bitStep poly)^[8] i

/-- A step with the table. -/
def tableStep (table : BitVec w → BitVec w) (c : BitVec w) (byte : BitVec 8) : BitVec w :=
  (c >>> 8) ^^^ table ((c ^^^ byte.setWidth w) &&& BitVec.ofNat w 0xFF)

section Tables
variable {poly : BitVec w} {table : BitVec w → BitVec w}

theorem lowByte_getLsbD (i : ℕ) (below : i < w) : (BitVec.ofNat w 0xFF).getLsbD i = decide (i < 8) := by
  rw [BitVec.getLsbD_ofNat, show (0xFF : ℕ) = 2 ^ 8 - 1 from rfl, Nat.testBit_two_pow_sub_one]
  simp [below]

theorem tableStep_eq (wide : 8 ≤ w) (tabulates : Tabulates poly table) (c : BitVec w) (byte : BitVec 8) :
    tableStep table c byte = byteStep poly c byte := by
  have small : ((c ^^^ byte.setWidth w) &&& BitVec.ofNat w 0xFF).toNat < 256 := by
    have bound : 2 ^ 8 ≤ 2 ^ w := Nat.pow_le_pow_right (by decide) wide
    have masked : ((c ^^^ byte.setWidth w) &&& BitVec.ofNat w 0xFF).toNat ≤ 0xFF := by
      rw [BitVec.toNat_and, BitVec.toNat_ofNat, Nat.mod_eq_of_lt (by omega : 0xFF < 2 ^ w)]
      exact Nat.and_le_right
    omega
  have gone : byte.setWidth w >>> 8 = 0#w := by
    apply BitVec.eq_of_getLsbD_eq
    intro i _
    rw [BitVec.getLsbD_ushiftRight, BitVec.getLsbD_setWidth, BitVec.getLsbD_of_ge byte (8 + i) (by omega)]
    simp
  rw [tableStep, tabulates _ small, byteStep, iterate_split poly (c ^^^ byte.setWidth w) lowByte_getLsbD,
    BitVec.ushiftRight_xor_distrib, gone, BitVec.xor_zero, BitVec.xor_comm]

theorem tableFold_eq (wide : 8 ≤ w) (tabulates : Tabulates poly table) (c : BitVec w) (bytes : List (BitVec 8)) :
    bytes.foldl (tableStep table) c = bytes.foldl (byteStep poly) c := by
  induction bytes generalizing c with
  | nil => rfl
  | cons byte rest ih => rw [List.foldl_cons, List.foldl_cons, tableStep_eq wide tabulates, ih]

end Tables

end ReflectedCrc
