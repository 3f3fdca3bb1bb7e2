import Mathlib.Data.List.GetD
import Mathlib.Data.List.Basic
import Mathlib.Tactic.Ring

/-!
# Byte memories

A memory is a total map from `w`-bit addresses to bytes, so address arithmetic wraps the way the
machine's does. Ranges are given by a base and a length: `x` is in the `n` bytes from `a` exactly
when the wrapped distance `x - a` is below `n`.
-/

namespace ByteMem

abbrev Byte := BitVec 8

instance byteLawful : LawfulBEq Byte := inferInstance

abbrev Mem (w : Nat) := BitVec w → Byte

def Within {w : Nat} (a : BitVec w) (n : Nat) (x : BitVec w) : Prop := (x - a).toNat < n

instance {w : Nat} (a : BitVec w) (n : Nat) (x : BitVec w) : Decidable (Within a n x) :=
  inferInstanceAs (Decidable (_ < _))

/-- The ranges `[a, a + n)` and `[b, b + k)` share no byte. -/
def Apart {w : Nat} (a : BitVec w) (n : Nat) (b : BitVec w) (k : Nat) : Prop :=
  ∀ x, Within a n x → ¬ Within b k x

def write {w : Nat} (m : Mem w) (a : BitVec w) (bytes : List Byte) : Mem w :=
  fun x => bytes.getD (x - a).toNat (m x)

def read {w : Nat} (m : Mem w) (a : BitVec w) (n : Nat) : List Byte :=
  (List.range n).map fun i => m (a + BitVec.ofNat w i)

/-- `m'` differs from `m` at most inside `[a, a + n)`. -/
def SameOutside {w : Nat} (a : BitVec w) (n : Nat) (m m' : Mem w) : Prop :=
  ∀ x, ¬ Within a n x → m' x = m x

section Ranges
variable {w : Nat} {a b x : BitVec w} {n k : Nat}

theorem within_self (positive : 0 < n) : Within a n a := by
  simpa [Within] using positive

theorem within_add (i : Nat) (small : i < 2 ^ w) (bound : i < n) :
    Within a n (a + BitVec.ofNat w i) := by
  have distance : a + BitVec.ofNat w i - a = BitVec.ofNat w i := by
    rw [BitVec.add_comm, BitVec.add_sub_cancel]
  simpa [Within, distance, Nat.mod_eq_of_lt small] using bound

theorem distance_eq (a x : BitVec w) : (x - a).toNat =
    if a.toNat ≤ x.toNat then x.toNat - a.toNat else 2 ^ w + x.toNat - a.toNat := by
  have hx := x.isLt
  have ha := a.isLt
  rw [BitVec.toNat_sub]
  split
  · rw [Nat.mod_eq_sub_mod (by omega), Nat.mod_eq_of_lt (by omega)]
    omega
  · rw [Nat.mod_eq_of_lt (by omega)]
    omega

theorem Within.of_offset (off : Nat) {len : Nat} (inside : Within (a + BitVec.ofNat w off) len x)
    (bound : off + len ≤ n) : Within a n x := by
  have chain : x - a = (x - (a + BitVec.ofNat w off)) + BitVec.ofNat w off := by
    rw [← BitVec.sub_sub, BitVec.sub_add_cancel]
  have offLe : off % 2 ^ w ≤ off := Nat.mod_le _ _
  have sumLe := Nat.mod_le ((x - (a + BitVec.ofNat w off)).toNat + off % 2 ^ w) (2 ^ w)
  unfold Within at inside ⊢
  rw [chain, BitVec.toNat_add, BitVec.toNat_ofNat]
  omega

theorem Within.mono (inside : Within a n x) (le : n ≤ k) : Within a k x :=
  Nat.lt_of_lt_of_le inside le

theorem Apart.symm (apart : Apart a n b k) : Apart b k a n :=
  fun x inB inA => apart x inA inB

theorem Apart.mono {n' k' : Nat} (apart : Apart a n b k) (hn : n' ≤ n) (hk : k' ≤ k) :
    Apart a n' b k' :=
  fun x inA inB => apart x (inA.mono hn) (inB.mono hk)

/-- Membership in a range that does not wrap, as an interval of natural numbers. -/
theorem within_iff (fits : a.toNat + n ≤ 2 ^ w) :
    Within a n x ↔ a.toNat ≤ x.toNat ∧ x.toNat < a.toNat + n := by
  have hx := x.isLt
  unfold Within
  rw [distance_eq]
  split <;> omega

theorem Apart.of_le (fits : b.toNat + k ≤ 2 ^ w) (before : a.toNat + n ≤ b.toNat) :
    Apart a n b k := by
  intro x inA inB
  rw [within_iff fits] at inB
  rw [within_iff (by omega)] at inA
  omega

/-- Two fields of one structure are apart when the first ends before the second begins. -/
theorem Apart.of_offsets {off off' : Nat} (before : off + n ≤ off') (fits : off' + k ≤ 2 ^ w) :
    Apart (a + BitVec.ofNat w off) n (a + BitVec.ofNat w off') k := by
  intro x inA inB
  unfold Within at inA inB
  have relative (o : Nat) : x - a = (x - (a + BitVec.ofNat w o)) + BitVec.ofNat w o := by
    rw [← BitVec.sub_sub, BitVec.sub_add_cancel]
  have first := congrArg BitVec.toNat (relative off)
  have second := congrArg BitVec.toNat (relative off')
  rw [BitVec.toNat_add, BitVec.toNat_ofNat, Nat.mod_eq_of_lt (by omega : off < 2 ^ w),
    Nat.mod_eq_of_lt (by omega)] at first
  rw [BitVec.toNat_add, BitVec.toNat_ofNat, Nat.mod_eq_of_lt (by omega : off' < 2 ^ w),
    Nat.mod_eq_of_lt (by omega)] at second
  omega

theorem Apart.behind {off : Nat} (before : n ≤ off) (fits : off + k ≤ 2 ^ w) :
    Apart a n (a + BitVec.ofNat w off) k := by
  have apart : Apart (a + BitVec.ofNat w 0) n (a + BitVec.ofNat w off) k := Apart.of_offsets (by omega) fits
  rwa [BitVec.add_zero] at apart

end Ranges

section Access
variable {w : Nat} {m : Mem w} {a b x : BitVec w} {bytes : List Byte} {n k : Nat}

@[simp] theorem read_length : (read m a n).length = n := by
  simp [read]

theorem write_outside (outside : ¬ Within a bytes.length x) : write m a bytes x = m x := by
  unfold write
  exact List.getD_eq_default _ _ (Nat.le_of_not_lt outside)

theorem write_inside (i : Nat) (small : i < 2 ^ w) (bound : i < bytes.length) :
    write m a bytes (a + BitVec.ofNat w i) = bytes[i] := by
  have distance : a + BitVec.ofNat w i - a = BitVec.ofNat w i := by
    rw [BitVec.add_comm, BitVec.add_sub_cancel]
  simp [write, distance, Nat.mod_eq_of_lt small, List.getD_eq_getElem?_getD, bound]

theorem read_congr {m' : Mem w} (small : n ≤ 2 ^ w)
    (same : ∀ x, Within a n x → m' x = m x) : read m' a n = read m a n := by
  unfold read
  apply List.map_congr_left
  intro i member
  have bound : i < n := List.mem_range.mp member
  exact same _ (within_add i (by omega) bound)

theorem read_add (m : Mem w) (a : BitVec w) (n k : Nat) :
    read m a (n + k) = read m a n ++ read m (a + BitVec.ofNat w n) k := by
  unfold read
  rw [List.range_add, List.map_append, List.map_map]
  congr 1
  apply List.map_congr_left
  intro i _
  simp only [Function.comp_apply, BitVec.ofNat_add, BitVec.add_assoc]

theorem read_write_same (small : bytes.length ≤ 2 ^ w) :
    read (write m a bytes) a bytes.length = bytes := by
  apply List.ext_getElem
  · simp
  · intro i h₁ h₂
    simp only [read, List.getElem_map, List.getElem_range]
    exact write_inside i (by omega) h₂

theorem write_add {xs ys : List Byte} (small : xs.length + ys.length ≤ 2 ^ w) :
    write (write m a xs) (a + BitVec.ofNat w xs.length) ys = write m a (xs ++ ys) := by
  funext x
  have offset : (x - (a + BitVec.ofNat w xs.length)).toNat =
      if xs.length ≤ (x - a).toNat then (x - a).toNat - xs.length
      else 2 ^ w + (x - a).toNat - xs.length := by
    have bound := (x - a).isLt
    rw [← BitVec.sub_sub, distance_eq, BitVec.toNat_ofNat]
    rcases Nat.lt_or_ge xs.length (2 ^ w) with less | full
    · rw [Nat.mod_eq_of_lt less]
    · have equal : xs.length = 2 ^ w := by omega
      rw [equal, Nat.mod_self]
      simp only [Nat.zero_le, ↓reduceIte]
      split <;> omega
  unfold write
  rw [offset, List.getD_eq_getElem?_getD, List.getD_eq_getElem?_getD, List.getD_eq_getElem?_getD]
  split
  · next later => rw [List.getElem?_append_right later, List.getElem?_eq_none later, Option.getD_none]
  · next early =>
      have bound := (x - a).isLt
      rw [List.getElem?_append_left (by omega), List.getElem?_eq_none (by omega), Option.getD_none]

theorem write_read (m : Mem w) (a : BitVec w) (n : Nat) : write m a (read m a n) = m := by
  funext x
  by_cases inside : (x - a).toNat < n
  · have back : a + (x - a) = x := by rw [BitVec.add_comm, BitVec.sub_add_cancel]
    simp only [write, read, List.getD_eq_getElem?_getD, List.getElem?_map, List.getElem?_range inside,
      Option.map_some, Option.getD_some, BitVec.ofNat_toNat, BitVec.setWidth_eq, back]
  · exact write_outside (by simpa [Within] using inside)

theorem write_sameOutside : SameOutside a bytes.length m (write m a bytes) :=
  fun _ outside => write_outside outside

theorem SameOutside.refl : SameOutside a n m m := fun _ _ => rfl

theorem SameOutside.trans {m₁ m₂ : Mem w} (first : SameOutside a n m m₁)
    (second : SameOutside a n m₁ m₂) : SameOutside a n m m₂ :=
  fun x outside => (second x outside).trans (first x outside)

theorem write_offset_sameOutside (off : Nat) (bound : off + bytes.length ≤ n) :
    SameOutside a n m (write m (a + BitVec.ofNat w off) bytes) :=
  fun _ outside => write_outside fun inside => outside (inside.of_offset off bound)

end Access

end ByteMem
