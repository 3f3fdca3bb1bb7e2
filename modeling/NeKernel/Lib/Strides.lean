import Mathlib.Algebra.Group.Nat.Defs
import Mathlib.Data.List.Basic

/-!
# Scans in fixed strides

A scan visits a first address and steps over it until the next one is past its end.
-/

namespace Strides

variable {w : Nat}

def scan (stride : BitVec w) (past : BitVec w → Bool) : Nat → BitVec w → List (BitVec w)
  | 0, _ => []
  | n + 1, start => start :: if past (start + stride) then [] else scan stride past n (start + stride)

section Bounds
variable {stride start : BitVec w} {past : BitVec w → Bool} {n hi : Nat}

theorem next_toNat (room : hi + stride.toNat < 2 ^ w) (first : start.toNat ≤ hi) :
    (start + stride).toNat = start.toNat + stride.toNat := by
  rw [BitVec.toNat_add, Nat.mod_eq_of_lt (by omega)]

/-- A scan comes to an address that lies past no end, and neither do the ones before it. -/
theorem mem_scan {k : Nat} (rounds : k < n)
    (going : ∀ j, 0 < j → j ≤ k → past (start + BitVec.ofNat w j * stride) = false) :
    start + BitVec.ofNat w k * stride ∈ scan stride past n start := by
  induction n generalizing start k with
  | zero => exact absurd rounds (Nat.not_lt_zero k)
  | succ n ih =>
      cases k with
      | zero => simp [scan]
      | succ k =>
          have next (j : Nat) : start + stride + BitVec.ofNat w j * stride =
              start + BitVec.ofNat w (j + 1) * stride := by
            rw [BitVec.ofNat_add, BitVec.add_mul, BitVec.one_mul, BitVec.add_assoc, BitVec.add_comm stride]
          have here := going 1 (by decide) (by omega)
          rw [← next 0] at here
          have later : start + stride + BitVec.ofNat w k * stride ∈ scan stride past n (start + stride) := by
            refine ih (by omega) fun j _ bound => ?_
            rw [next]
            exact going (j + 1) (by omega) (by omega)
          rw [next] at later
          simp only [BitVec.zero_mul, BitVec.add_zero] at here
          rw [scan, here, if_neg Bool.false_ne_true]
          exact List.mem_cons_of_mem _ later

variable (stays : ∀ x, past x = false → x.toNat ≤ hi) (room : hi + stride.toNat < 2 ^ w)
include stays room

/-- Without a wrap, a scan rises from its first address and stays below its last. -/
theorem scan_bounds (first : start.toNat ≤ hi) {x : BitVec w} (visited : x ∈ scan stride past n start) :
    start.toNat ≤ x.toNat ∧ x.toNat ≤ hi := by
  induction n generalizing start with
  | zero => cases visited
  | succ n ih =>
      rcases List.mem_cons.mp visited with rfl | later
      · exact ⟨Nat.le_refl _, first⟩
      · split at later
        · cases later
        · rename_i going
          have inside := stays _ (Bool.eq_false_iff.mpr going)
          obtain ⟨low, high⟩ := ih inside later
          rw [next_toNat room first] at low
          exact ⟨by omega, high⟩

theorem scan_aligned (first : start.toNat ≤ hi) {x : BitVec w} (visited : x ∈ scan stride past n start) :
    ∃ k, x.toNat = start.toNat + k * stride.toNat := by
  induction n generalizing start with
  | zero => cases visited
  | succ n ih =>
      rcases List.mem_cons.mp visited with rfl | later
      · exact ⟨0, by simp⟩
      · split at later
        · cases later
        · rename_i going
          obtain ⟨k, position⟩ := ih (stays _ (Bool.eq_false_iff.mpr going)) later
          rw [next_toNat room first] at position
          exact ⟨k + 1, by rw [position, Nat.succ_mul]; omega⟩

theorem scan_rises (first : start.toNat ≤ hi) :
    (scan stride past n start).Pairwise fun x y => x.toNat + stride.toNat ≤ y.toNat := by
  induction n generalizing start with
  | zero => exact .nil
  | succ n ih =>
      unfold scan
      split
      · simp
      · rename_i going
        have inside := stays _ (Bool.eq_false_iff.mpr going)
        refine List.pairwise_cons.mpr ⟨fun y later => ?_, ih inside⟩
        rw [← next_toNat room first]
        exact (scan_bounds stays room inside later).1

end Bounds

/-! ## Cursors that only rise -/

/-- The addresses issued so far: each `stride` past the one before, and all of them behind the cursor. -/
def Issued (stride : Nat) (cursor : BitVec w) (issued : List (BitVec w)) : Prop :=
  (issued.Pairwise fun x y => x.toNat + stride ≤ y.toNat) ∧ ∀ x ∈ issued, x.toNat + stride ≤ cursor.toNat

namespace Issued
variable {stride : Nat} {cursor next : BitVec w} {issued : List (BitVec w)}

theorem nil : Issued stride cursor [] := ⟨.nil, by simp⟩

theorem issue (sound : Issued stride cursor issued) (step : next.toNat = cursor.toNat + stride) :
    Issued stride next (issued ++ [cursor]) := by
  obtain ⟨rises, behind⟩ := sound
  constructor
  · refine List.pairwise_append.mpr ⟨rises, List.pairwise_singleton _ _, fun x old y new => ?_⟩
    rw [List.mem_singleton.mp new]
    exact behind x old
  · intro x member
    rcases List.mem_append.mp member with old | new
    · have before := behind x old
      omega
    · rw [List.mem_singleton.mp new]
      exact Nat.le_of_eq step.symm

theorem nodup (sound : Issued stride cursor issued) (positive : 0 < stride) : issued.Nodup := by
  refine sound.1.imp fun {x y} apart same => ?_
  rw [same] at apart
  omega

end Issued

end Strides
