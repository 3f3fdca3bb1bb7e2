import Mathlib.Data.Nat.Basic
import Mathlib.Tactic.Linarith

/-!
# Chunks under a moving bound

A bump allocator keeps its chunks one behind the other. The last one is given back first, and the gap that
an alignment left in front of it may stay.
-/

namespace BumpStack

structure Chunk where
  addr : Nat
  size : Nat

def Chunk.stop (c : Chunk) : Nat := c.addr + c.size

def Chunk.Disjoint (c d : Chunk) : Prop := c.stop ≤ d.addr ∨ d.stop ≤ c.addr

/-- The chunks lie between `lo` and `hi`, each behind the ones after it in the list. -/
def Stacked (lo : Nat) : Nat → List Chunk → Prop
  | hi, [] => lo ≤ hi
  | hi, c :: rest => c.stop ≤ hi ∧ Stacked lo c.addr rest

section Rules
variable {lo hi hi' : Nat} {c d : Chunk} {chunks : List Chunk}

theorem Stacked.le (stacked : Stacked lo hi chunks) : lo ≤ hi := by
  induction chunks generalizing hi with
  | nil => exact stacked
  | cons c chunks ih => exact (ih stacked.2).trans ((Nat.le_add_right _ _).trans stacked.1)

theorem Stacked.mono (stacked : Stacked lo hi chunks) (le : hi ≤ hi') : Stacked lo hi' chunks := by
  cases chunks with
  | nil => exact Nat.le_trans stacked le
  | cons c chunks => exact ⟨stacked.1.trans le, stacked.2⟩

theorem Stacked.push (stacked : Stacked lo hi chunks) (above : hi ≤ c.addr) : Stacked lo c.stop (c :: chunks) :=
  ⟨le_rfl, stacked.mono above⟩

theorem Stacked.inside (stacked : Stacked lo hi chunks) (member : c ∈ chunks) : lo ≤ c.addr ∧ c.stop ≤ hi := by
  induction chunks generalizing hi with
  | nil => cases member
  | cons d chunks ih =>
      rcases List.mem_cons.mp member with rfl | later
      · exact ⟨stacked.2.le, stacked.1⟩
      · obtain ⟨low, high⟩ := ih stacked.2 later
        exact ⟨low, high.trans ((Nat.le_add_right _ _).trans stacked.1)⟩

theorem Stacked.disjoint (stacked : Stacked lo hi chunks) (above : hi ≤ d.addr) (member : c ∈ chunks) :
    d.Disjoint c :=
  .inr ((stacked.inside member).2.trans above)

end Rules

/-! ## Rounding to an alignment -/

def alignUp (align x : Nat) : Nat := (x + (align - 1)) / align * align

section Alignment
variable {align x k : Nat} {v : BitVec 64}

theorem le_alignUp (positive : 0 < align) : x ≤ alignUp align x := by
  have whole := Nat.div_add_mod (x + (align - 1)) align
  have rest := Nat.mod_lt (x + (align - 1)) positive
  rw [alignUp, Nat.mul_comm]
  omega

theorem dvd_alignUp : align ∣ alignUp align x := Nat.dvd_mul_left _ _

theorem alignUp_of_dvd (positive : 0 < align) (multiple : align ∣ x) : alignUp align x = x := by
  obtain ⟨q, rfl⟩ := multiple
  rw [alignUp, Nat.mul_add_div positive, Nat.div_eq_of_lt (by omega), Nat.add_zero, Nat.mul_comm]

theorem alignUp_mono {y : Nat} (le : x ≤ y) : alignUp align x ≤ alignUp align y :=
  Nat.mul_le_mul_right _ (Nat.div_le_div_right (Nat.add_le_add_right le _))

theorem alignUp_between {y : Nat} (positive : 0 < align) (low : x ≤ y) (high : y ≤ alignUp align x) :
    alignUp align y = alignUp align x := by
  have upper := @alignUp_mono align _ _ high
  rw [alignUp_of_dvd positive dvd_alignUp] at upper
  exact Nat.le_antisymm upper (alignUp_mono low)

theorem and_not_le (v m : BitVec 64) : (v &&& ~~~m).toNat ≤ v.toNat := by
  rw [BitVec.toNat_and]
  exact Nat.and_le_left

theorem le_add_and_not (v m : BitVec 64) : v.toNat ≤ m.toNat + (v &&& ~~~m).toNat := by
  have apart : (v &&& m) &&& (v &&& ~~~m) = 0#64 := by
    apply BitVec.eq_of_getLsbD_eq
    intro j bound
    simp only [BitVec.getLsbD_and, BitVec.getLsbD_not, BitVec.getLsbD_zero]
    cases v.getLsbD j <;> cases m.getLsbD j <;> simp
  have whole : (v &&& m) ||| (v &&& ~~~m) = v := by
    apply BitVec.eq_of_getLsbD_eq
    intro j bound
    simp only [BitVec.getLsbD_or, BitVec.getLsbD_and, BitVec.getLsbD_not]
    cases v.getLsbD j <;> cases m.getLsbD j <;> simp [bound]
  have sum : (v &&& m) + (v &&& ~~~m) = v := by
    rw [BitVec.add_eq_or_of_and_eq_zero _ _ apart, whole]
  have part : (v &&& m).toNat ≤ m.toNat := by
    rw [BitVec.toNat_and]
    exact Nat.and_le_right
  calc v.toNat = ((v &&& m).toNat + (v &&& ~~~m).toNat) % 2 ^ 64 := by rw [← BitVec.toNat_add, sum]
    _ ≤ (v &&& m).toNat + (v &&& ~~~m).toNat := Nat.mod_le _ _
    _ ≤ m.toNat + (v &&& ~~~m).toNat := Nat.add_le_add_right part _

theorem lowMask_toNat (small : k < 64) : (BitVec.ofNat 64 (2 ^ k) - 1).toNat = 2 ^ k - 1 := by
  have power : 2 ^ k < 2 ^ 64 := Nat.pow_lt_pow_right (by omega) small
  have positive : 0 < 2 ^ k := Nat.two_pow_pos k
  rw [BitVec.toNat_sub, BitVec.toNat_ofNat, Nat.mod_eq_of_lt power]
  show (2 ^ 64 - 1 + 2 ^ k) % 2 ^ 64 = 2 ^ k - 1
  omega

theorem and_notMask_toNat (small : k < 64) :
    (v &&& ~~~(BitVec.ofNat 64 (2 ^ k) - 1)).toNat = v.toNat / 2 ^ k * 2 ^ k := by
  have shifted : v &&& ~~~(BitVec.ofNat 64 (2 ^ k) - 1) = (v >>> k) <<< k := by
    apply BitVec.eq_of_getLsbD_eq
    intro j bound
    have bit : (BitVec.ofNat 64 (2 ^ k) - 1).getLsbD j = decide (j < k) := by
      rw [BitVec.getLsbD, lowMask_toNat small, Nat.testBit_two_pow_sub_one]
    rw [BitVec.getLsbD_and, BitVec.getLsbD_not, BitVec.getLsbD_shiftLeft, BitVec.getLsbD_ushiftRight, bit]
    by_cases low : j < k
    · simp [low, bound]
    · simp [low, bound, Nat.add_sub_cancel' (Nat.not_lt.mp low)]
  have le : v.toNat / 2 ^ k * 2 ^ k ≤ v.toNat := Nat.div_mul_le_self _ _
  have bound := v.isLt
  rw [shifted, BitVec.toNat_shiftLeft, BitVec.toNat_ushiftRight, Nat.shiftRight_eq_div_pow, Nat.shiftLeft_eq,
    Nat.mod_eq_of_lt (by omega)]

theorem roundUp_toNat (small : k < 64) (fits : v.toNat + (2 ^ k - 1) < 2 ^ 64) :
    ((v + (BitVec.ofNat 64 (2 ^ k) - 1)) &&& ~~~(BitVec.ofNat 64 (2 ^ k) - 1)).toNat = alignUp (2 ^ k) v.toNat := by
  rw [and_notMask_toNat small, BitVec.toNat_add, lowMask_toNat small, Nat.mod_eq_of_lt fits]
  rfl

end Alignment

end BumpStack
