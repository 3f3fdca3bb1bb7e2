import NeKernel.Hal.PageTree
import Mathlib.Data.Nat.Bitwise

/-!
# Splitting a large leaf

The 512 entries written for a 1 GiB or 2 MiB leaf, bit by bit: the upper bits of the leaf, the nine
bits of the page's own address below them, and the leaf's attributes.
-/

namespace Ne.Kernel.HAL
open ByteMem

section Bits
variable {n j shift : Nat} {a e i : UIntPtr}

theorem lowMask_getLsbD (small : n < 64) : (1#64 <<< n - 1#64).getLsbD j = decide (j < n) := by
  have power : 2 ^ n < 2 ^ 64 := Nat.pow_lt_pow_right (by omega) small
  have positive : 0 < 2 ^ n := Nat.two_pow_pos n
  have number : (1#64 <<< n - 1#64).toNat = 2 ^ n - 1 := by
    have one : (1#64 <<< n).toNat = 2 ^ n := by
      rw [BitVec.toNat_shiftLeft, Nat.shiftLeft_eq]
      simpa using power
    bv_omega
  rw [BitVec.getLsbD, number, Nat.testBit_two_pow_sub_one]

theorem notMask_getLsbD (small : n < 64) (bound : j < 64) :
    (~~~(1#64 <<< n - 1#64)).getLsbD j = decide (n ≤ j) := by
  rw [BitVec.getLsbD_not, lowMask_getLsbD small]
  by_cases low : j < n
  · simp [bound, low]
  · simp [bound, low, Nat.not_lt.mp low]

theorem kAddrMask_getLsbD (bound : j < 64) : kAddrMask.getLsbD j = decide (12 ≤ j ∧ j < 52) := by
  have parts : kAddrMask = (1#64 <<< 52 - 1#64) &&& ~~~(1#64 <<< 12 - 1#64) := by decide
  rw [parts, BitVec.getLsbD_and, lowMask_getLsbD (by omega), notMask_getLsbD (by omega) bound,
    ← Bool.decide_and]
  simp [and_comm]

theorem notPageMask_getLsbD (bound : j < 64) : (~~~kPageMask).getLsbD j = decide (12 ≤ j) := by
  rw [show kPageMask = 1#64 <<< 12 - 1#64 by decide, notMask_getLsbD (by omega) bound]

theorem pageIndex_getLsbD :
    (pageIndex a shift).getLsbD j = (decide (j < 9) && a.getLsbD (shift + j)) := by
  unfold pageIndex
  rw [BitVec.getLsbD_and, BitVec.getLsbD_ushiftRight, show kMask9 = 1#64 <<< 9 - 1#64 by decide,
    lowMask_getLsbD (by omega), Bool.and_comm]

theorem twoPow_getLsbD (small : n < 64) : (1#64 <<< n).getLsbD j = decide (j = n) := by
  rw [← BitVec.twoPow_eq, BitVec.getLsbD_twoPow]
  by_cases same : n = j
  · simp [same, same ▸ small]
  · simp [same, Ne.symm same]

theorem pageIndex_mul (range : 9 ≤ shift ∧ shift < 64) :
    pageIndex a (shift - 9) * ((1#64 <<< shift) >>> 9) = pageIndex a (shift - 9) <<< (shift - 9) := by
  have step : (1#64 <<< shift) >>> 9 = BitVec.twoPow 64 (shift - 9) := by
    apply BitVec.eq_of_getLsbD_eq
    intro j bound
    rw [BitVec.getLsbD_ushiftRight, twoPow_getLsbD range.2, BitVec.getLsbD_twoPow]
    by_cases here : 9 + j = shift
    · have place : shift - 9 = j := by omega
      simp [here, place, bound]
    · have place : shift - 9 ≠ j := by omega
      simp [here, place]
  rw [step, BitVec.mul_twoPow_eq_shiftLeft]

theorem pageIndex_place_getLsbD (range : 9 ≤ shift ∧ shift < 64) (bound : j < 64) :
    (pageIndex a (shift - 9) <<< (shift - 9)).getLsbD j =
      (decide (shift - 9 ≤ j ∧ j < shift) && a.getLsbD j) := by
  rw [BitVec.getLsbD_shiftLeft, pageIndex_getLsbD]
  by_cases low : j < shift - 9
  · simp [low, Nat.not_le.mpr low]
  · have place : shift - 9 + (j - (shift - 9)) = j := by omega
    have inside : j - (shift - 9) < 9 ↔ shift - 9 ≤ j ∧ j < shift := by omega
    simp [bound, low, place, inside]

theorem splitEntry_getLsbD (range : 9 ≤ shift ∧ shift < 64) (bound : j < 64) :
    (splitEntry e shift (pageIndex a (shift - 9))).getLsbD j =
      ((decide (shift ≤ j) && e.getLsbD j) || (decide (shift - 9 ≤ j ∧ j < shift) && a.getLsbD j) ||
        (decide (j < 5 ∨ j = 8 ∨ j = 63) && e.getLsbD j) || (decide (21 < shift) && decide (j = 7))) := by
  have disjoint : (e &&& ~~~(1#64 <<< shift - 1#64)) &&&
      (pageIndex a (shift - 9) <<< (shift - 9)) = 0#64 := by
    apply BitVec.eq_of_getLsbD_eq
    intro k small
    rw [BitVec.getLsbD_and, BitVec.getLsbD_and, notMask_getLsbD range.2 small,
      pageIndex_place_getLsbD range small]
    by_cases low : k < shift
    · simp [Nat.not_le.mpr low]
    · simp [low]
  have page : (if shift > 21 then kPageSizeBit else 0).getLsbD j =
      (decide (21 < shift) && decide (j = 7)) := by
    split
    · rename_i large
      rw [show kPageSizeBit = 1#64 <<< 7 by decide, twoPow_getLsbD (by omega)]
      simp [large]
    · rename_i small
      simp [small]
  unfold splitEntry
  dsimp only
  rw [pageIndex_mul range, BitVec.add_eq_or_of_and_eq_zero _ _ disjoint]
  simp only [BitVec.getLsbD_or, BitVec.getLsbD_and]
  rw [page, notMask_getLsbD range.2 bound, pageIndex_place_getLsbD range bound,
    show (0x1F#64) = 1#64 <<< 5 - 1#64 by decide, lowMask_getLsbD (by omega),
    show (0x100#64) = 1#64 <<< 8 by decide, twoPow_getLsbD (by omega), twoPow_getLsbD (by omega)]
  cases e.getLsbD j <;> simp [Bool.decide_or, Bool.or_assoc]

theorem and_one_ne_zero : e &&& 1 ≠ 0 ↔ e.getLsbD 0 = true := by
  have bit : BitVec.twoPow 64 0 ≠ 0#64 := by decide
  rw [show (1 : UIntPtr) = BitVec.twoPow 64 0 by decide, BitVec.and_twoPow]
  split <;> simp_all

theorem and_page_ne_zero : e &&& kPageSizeBit ≠ 0 ↔ e.getLsbD 7 = true := by
  have bit : BitVec.twoPow 64 7 ≠ 0#64 := by decide
  rw [show kPageSizeBit = BitVec.twoPow 64 7 by decide, BitVec.and_twoPow]
  split <;> simp_all

end Bits

section Split
variable {a e : UIntPtr} {d : Nat}

/-- The entry of a split leaf that a page's own address selects. -/
def splitAt (d : Nat) (e a : UIntPtr) : UIntPtr :=
  splitEntry e (39 - 9 * d) (walkShape.index (d + 1) a)

theorem splitAt_getLsbD {j : Nat} (level : 0 < d ∧ d < 3) (bound : j < 64) :
    (splitAt d e a).getLsbD j = ((decide (39 - 9 * d ≤ j) && e.getLsbD j) ||
      (decide (39 - 9 * d - 9 ≤ j ∧ j < 39 - 9 * d) && a.getLsbD j) ||
      (decide (j < 5 ∨ j = 8 ∨ j = 63) && e.getLsbD j) || (decide (d < 2) && decide (j = 7))) := by
  have index : walkShape.index (d + 1) a = pageIndex a (39 - 9 * d - 9) :=
    congrArg (pageIndex a) (by omega)
  have large : (21 < 39 - 9 * d) ↔ d < 2 := by omega
  unfold splitAt
  rw [index, splitEntry_getLsbD (by omega) bound, decide_eq_decide.mpr large]

theorem splitAt_attribute {j : Nat} (level : 0 < d ∧ d < 3) (low : j < 5 ∨ j = 63) :
    (splitAt d e a).getLsbD j = e.getLsbD j := by
  have inside : ¬ (39 - 9 * d - 9 ≤ j ∧ j < 39 - 9 * d) := by omega
  have kept : j < 5 ∨ j = 8 ∨ j = 63 := by omega
  have seven : ¬ j = 7 := by omega
  rw [splitAt_getLsbD level (by omega)]
  simp only [inside, kept, seven, decide_false, decide_true, Bool.false_and, Bool.true_and,
    Bool.and_false, Bool.or_false]
  cases e.getLsbD j <;> simp

theorem splitAt_leaf (level : 0 < d ∧ d < 3) (leaf : isLeaf d e) : isLeaf (d + 1) (splitAt d e a) := by
  refine ⟨?_, ?_⟩
  · rw [and_one_ne_zero, splitAt_attribute level (by omega), ← and_one_ne_zero]
    exact leaf.1
  · by_cases last : d = 2
    · exact .inl (by omega)
    · have less : d < 2 := by omega
      refine .inr ?_
      rw [and_page_ne_zero, splitAt_getLsbD level (by omega)]
      simp [less]

/-- A leaf has its PAT bit where its size puts it. -/
def patBit (d : Nat) : Nat := if d = 3 then 7 else 12

theorem splitAt_pat (level : 0 < d ∧ d < 3) : (splitAt d e a).getLsbD (patBit (d + 1)) = false := by
  have place : patBit (d + 1) = 7 ∧ d = 2 ∨ patBit (d + 1) = 12 ∧ d = 1 := by
    unfold patBit
    split <;> omega
  rcases place with ⟨seven, rfl⟩ | ⟨twelve, rfl⟩
  · rw [seven, splitAt_getLsbD level (by omega)]
    simp
  · rw [twelve, splitAt_getLsbD level (by omega)]
    simp

theorem leafFrame_getLsbD {j : Nat} (level : 0 < d ∧ d ≤ 3) (bound : j < 64) :
    (leafFrame d e a).getLsbD j =
      ((decide (39 - 9 * d ≤ j ∧ 12 ≤ j ∧ j < 52) && e.getLsbD j) ||
        (decide (12 ≤ j ∧ j < 39 - 9 * d) && a.getLsbD j)) := by
  unfold leafFrame
  dsimp only
  rw [BitVec.getLsbD_or, BitVec.getLsbD_and, BitVec.getLsbD_and, BitVec.getLsbD_and, BitVec.getLsbD_and,
    kAddrMask_getLsbD bound, notMask_getLsbD (by omega) bound, lowMask_getLsbD (by omega),
    notPageMask_getLsbD bound]
  cases e.getLsbD j <;> cases a.getLsbD j <;> simp [Bool.decide_and, Bool.and_comm,
    Bool.and_left_comm]

theorem splitAt_frame (level : 0 < d ∧ d < 3) :
    leafFrame (d + 1) (splitAt d e a) a = leafFrame d e a := by
  apply BitVec.eq_of_getLsbD_eq
  intro j bound
  rw [leafFrame_getLsbD (by omega) bound, leafFrame_getLsbD (by omega) bound, splitAt_getLsbD level bound]
  by_cases address : 12 ≤ j ∧ j < 52
  · have plain : ¬ (j < 5 ∨ j = 8 ∨ j = 63) := by omega
    have seven : ¬ j = 7 := by omega
    simp only [address, plain, seven, decide_false, Bool.false_and, Bool.and_false, Bool.or_false,
      true_and, and_true]
    by_cases above : 39 - 9 * d ≤ j
    · have far : 39 - 9 * (d + 1) ≤ j ∧ ¬ j < 39 - 9 * (d + 1) ∧ ¬ j < 39 - 9 * d := by omega
      simp [above, far]
    · by_cases middle : 39 - 9 * d - 9 ≤ j
      · have near : 39 - 9 * (d + 1) ≤ j ∧ ¬ j < 39 - 9 * (d + 1) ∧ j < 39 - 9 * d := by omega
        simp [above, middle, near]
      · have near : ¬ 39 - 9 * (d + 1) ≤ j ∧ j < 39 - 9 * (d + 1) ∧ j < 39 - 9 * d := by omega
        simp [above, middle, near]
  · have outside (k : Nat) : ¬ (39 - 9 * k ≤ j ∧ 12 ≤ j ∧ j < 52) := fun inside => address inside.2
    have low (k : Nat) (hk : 0 < k) : ¬ (12 ≤ j ∧ j < 39 - 9 * k) := by omega
    simp only [outside, low (d + 1) (by omega), low d level.1, decide_false, Bool.false_and,
      Bool.or_false]

theorem splitAt_leafView (level : 0 < d ∧ d < 3) (pat : e.getLsbD 12 = false) :
    leafView a (d + 1) (splitAt d e a) = leafView a d e := by
  have newPat := splitAt_pat (a := a) (e := e) level
  have big : d ≠ 3 := by omega
  unfold leafView
  rw [splitAt_frame level, splitAt_attribute level (by omega), splitAt_attribute level (by omega),
    splitAt_attribute level (by omega), splitAt_attribute level (by omega),
    splitAt_attribute level (by omega), if_neg big, pat]
  unfold patBit at newPat
  split <;> simp_all

end Split

end Ne.Kernel.HAL
