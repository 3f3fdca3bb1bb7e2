import NeKernel.Lib.ByteMem

/-!
# Reversing a range in place

The bytes of a range change places in pairs, from both ends to the middle.
-/

namespace ByteMem

/-- `left` pairs of the `n` bytes from `a` change places, the `j`th one first. -/
def swapFrom {w : Nat} (a : BitVec w) (n : Nat) : Nat → Nat → Mem w → Mem w
  | 0, _, m => m
  | left + 1, j, m =>
      let tmp := m (a + BitVec.ofNat w j)
      let m := write m (a + BitVec.ofNat w j) [m (a + BitVec.ofNat w (n - j - 1))]
      swapFrom a n left (j + 1) (write m (a + BitVec.ofNat w (n - j - 1)) [tmp])

section Reversal
variable {w : Nat} {m : Mem w} {a x : BitVec w} {v : Byte} {n j k left : Nat}

theorem write_single : write m a [v] x = if x = a then v else m x := by
  split
  · next same => rw [same, write, BitVec.sub_self]; rfl
  · next other =>
      refine write_outside fun inside => other ?_
      have zero : x - a = 0 := BitVec.eq_of_toNat_eq (by simpa [Within] using inside)
      rw [← BitVec.sub_add_cancel x a, zero]
      exact BitVec.zero_add a

theorem offset_inj (small : n ≤ 2 ^ w) (hj : j < n) (hk : k < n) :
    a + BitVec.ofNat w j = a + BitVec.ofNat w k ↔ j = k := by
  constructor
  · intro same
    have offsets := congrArg BitVec.toNat ((BitVec.add_right_inj a).mp same)
    rwa [BitVec.toNat_ofNat, BitVec.toNat_ofNat, Nat.mod_eq_of_lt (by omega), Nat.mod_eq_of_lt (by omega)] at offsets
  · rintro rfl
    rfl

/-- The pairs from the `j`th on have changed places, and nothing else. -/
theorem swapFrom_at (small : n ≤ 2 ^ w) (half : j + left ≤ n / 2) (below : k < n) :
    swapFrom a n left j m (a + BitVec.ofNat w k) =
      if (j ≤ k ∧ k < j + left) ∨ (j < n - k ∧ n - k ≤ j + left) then m (a + BitVec.ofNat w (n - k - 1))
      else m (a + BitVec.ofNat w k) := by
  induction left generalizing j m with
  | zero => rw [swapFrom, if_neg (by omega)]
  | succ left ih =>
      have other : n - j - 1 < n := by omega
      rw [swapFrom, ih (by omega)]
      simp only [write_single, offset_inj small below other, offset_inj small below (by omega : j < n),
        offset_inj small (by omega : n - k - 1 < n) other,
        offset_inj small (by omega : n - k - 1 < n) (by omega : j < n)]
      by_cases front : k = j
      · subst front
        rw [if_neg (by omega), if_neg (by omega), if_pos rfl, if_pos (by omega)]
      by_cases back : k = n - j - 1
      · have mirror : n - k - 1 = j := by omega
        rw [if_neg (by omega), if_pos back, if_pos (by omega), mirror]
      by_cases inner : (j + 1 ≤ k ∧ k < j + 1 + left) ∨ (j + 1 < n - k ∧ n - k ≤ j + 1 + left)
      · rw [if_pos inner, if_neg (by omega), if_neg (by omega), if_pos (by omega)]
      · rw [if_neg inner, if_neg back, if_neg front, if_neg (by omega)]

theorem swapFrom_same (half : j + left ≤ n / 2) : SameOutside a n m (swapFrom a n left j m) := by
  induction left generalizing j m with
  | zero => exact SameOutside.refl
  | succ left ih =>
      have one (m : Mem w) (v : Byte) {i : Nat} (inside : i < n) :
          SameOutside a n m (write m (a + BitVec.ofNat w i) [v]) :=
        write_offset_sameOutside i (by rw [List.length_singleton]; omega)
      rw [swapFrom]
      exact ((one _ _ (by omega)).trans (one _ _ (by omega))).trans (ih (by omega))

/-- The middle byte of an odd range stays where it is. -/
theorem swapFrom_reverses (small : n ≤ 2 ^ w) : read (swapFrom a n (n / 2) 0 m) a n = (read m a n).reverse := by
  apply List.ext_getElem
  · rw [List.length_reverse, read_length, read_length]
  · intro k here there
    rw [read_length] at here
    rw [List.getElem_reverse]
    simp only [ByteMem.read, List.getElem_map, List.getElem_range, List.length_map, List.length_range]
    rw [swapFrom_at small (by omega) here]
    split
    · rw [Nat.sub_right_comm]
    · have middle : n - 1 - k = k := by omega
      rw [middle]

end Reversal

end ByteMem
