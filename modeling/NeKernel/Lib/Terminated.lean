import NeKernel.Lib.Traced

/-!
# Terminated strings in a byte memory

A scan for the terminator looks at every byte up to it, wherever it lies. It covers the address space
once when there is none.
-/

namespace ByteMem

def strLenFrom (m : Mem 64) : Nat → BitVec 64 → Nat
  | 0, _ => 0
  | fuel + 1, a => if m a = 0 then 0 else strLenFrom m fuel (a + 1) + 1

def addressCount : Nat := 2 ^ 64

attribute [irreducible] addressCount

def strLen (m : Mem 64) (a : BitVec 64) : Nat := strLenFrom m addressCount a

/-- The string at `a` has its terminator in `[base, base + len)`, behind its start. -/
def Terminated (m : Mem 64) (base : BitVec 64) (len : Nat) (a : BitVec 64) : Prop :=
  ∃ i, (a - base).toNat + i < len ∧ m (a + BitVec.ofNat 64 i) = 0

section Scan
variable {m : Mem 64} {a base : BitVec 64} {fuel i len : Nat}

theorem strLenFrom_le (zero : m (a + BitVec.ofNat 64 i) = 0) (below : i < fuel) :
    strLenFrom m fuel a ≤ i := by
  induction fuel generalizing a i with
  | zero => omega
  | succ fuel ih =>
      rw [strLenFrom]
      split
      · omega
      · rename_i first
        cases i with
        | zero => exact absurd (by simpa using zero) first
        | succ i =>
            have later : m (a + 1 + BitVec.ofNat 64 i) = 0 := by
              rwa [Nat.add_comm, BitVec.ofNat_add, ← BitVec.add_assoc] at zero
            exact Nat.succ_le_succ (ih later (by omega))

theorem strLenFrom_zero (ends : strLenFrom m fuel a < fuel) :
    m (a + BitVec.ofNat 64 (strLenFrom m fuel a)) = 0 := by
  induction fuel generalizing a with
  | zero => omega
  | succ fuel ih =>
      rw [strLenFrom] at ends ⊢
      split
      · rename_i first
        simpa using first
      · rename_i first
        rw [if_neg first] at ends
        rw [Nat.add_comm, BitVec.ofNat_add, ← BitVec.add_assoc]
        exact ih (Nat.lt_of_succ_lt_succ ends)

/-- The bytes a scan looks at lie in a region exactly when the terminator does. -/
theorem covers_strLen (small : len < 2 ^ 64) :
    Covers base len a (strLen m a + 1) ↔ Terminated m base len a := by
  have fuel : addressCount = 2 ^ 64 := by unfold addressCount; rfl
  rw [covers_iff small (by omega)]
  constructor
  · intro bound
    refine ⟨strLen m a, by omega, strLenFrom_zero ?_⟩
    have short : strLen m a < 2 ^ 64 := by omega
    rwa [← fuel] at short
  · rintro ⟨i, bound, zero⟩
    have le : strLen m a ≤ i := strLenFrom_le zero (by omega)
    omega

end Scan

/-- The characters of `text` lie at `a`, with a terminator behind them and none among them. -/
structure Text (m : Mem 64) (a : BitVec 64) (text : List Byte) : Prop where
  nonnull : a ≠ 0
  fits : a.toNat + text.length < 2 ^ 64
  characters : 0 ∉ text
  stored : read m a (text.length + 1) = text ++ [0]

section Texts
variable {m : Mem 64} {a : BitVec 64} {text : List Byte} {i : Nat}

theorem Text.written (nonnull : a ≠ 0) (fits : a.toNat + text.length < 2 ^ 64) (characters : 0 ∉ text) :
    Text (write m a (text ++ [0])) a text := by
  refine ⟨nonnull, fits, characters, ?_⟩
  have length : (text ++ [0]).length = text.length + 1 := List.length_append
  rw [← length]
  exact read_write_same (by omega)

theorem Text.at (here : Text m a text) (below : i < text.length) : m (a + BitVec.ofNat 64 i) = text[i] := by
  have byte := congrArg (·[i]?) here.stored
  simp only [read, List.getElem?_map] at byte
  rw [List.getElem?_range (by omega), Option.map_some, List.getElem?_append_left below,
    List.getElem?_eq_getElem below] at byte
  exact Option.some.inj byte

theorem Text.terminator (here : Text m a text) : m (a + BitVec.ofNat 64 text.length) = 0 := by
  have byte := congrArg (·[text.length]?) here.stored
  simp only [read, List.getElem?_map] at byte
  rw [List.getElem?_range (Nat.lt_succ_self _), Option.map_some, List.getElem?_append_right le_rfl,
    Nat.sub_self] at byte
  exact Option.some.inj byte

/-- A character of the string, or the terminator. -/
theorem Text.character (here : Text m a text) (below : i ≤ text.length) :
    m (a + BitVec.ofNat 64 i) = text[i]?.getD 0 := by
  rcases Nat.eq_or_lt_of_le below with rfl | less
  · rw [here.terminator, List.getElem?_eq_none le_rfl, Option.getD_none]
  · rw [here.at less, List.getElem?_eq_getElem less, Option.getD_some]

theorem Text.nonzero (here : Text m a text) (below : i < text.length) : m (a + BitVec.ofNat 64 i) ≠ 0 := by
  rw [here.at below]
  exact fun zero => here.characters (zero ▸ List.getElem_mem below)

theorem Text.strLen_eq (here : Text m a text) : strLen m a = text.length := by
  have fits := here.fits
  have fuel : addressCount = 2 ^ 64 := by unfold addressCount; rfl
  have le : strLen m a ≤ text.length := strLenFrom_le here.terminator (by omega)
  have zero : m (a + BitVec.ofNat 64 (strLen m a)) = 0 := strLenFrom_zero (by unfold strLen at le; omega)
  by_contra other
  exact here.nonzero (by omega) zero

end Texts

/-- How many characters two strings begin with in common. -/
def shared : List Byte → List Byte → ℕ
  | x :: xs, y :: ys => if x = y then shared xs ys + 1 else 0
  | _, _ => 0

section Shared
variable {xs ys : List Byte} {i : ℕ}

theorem shared_le (xs ys : List Byte) : shared xs ys ≤ xs.length ∧ shared xs ys ≤ ys.length := by
  fun_induction shared xs ys with
  | case1 x xs ys ih => exact ⟨Nat.succ_le_succ ih.1, Nat.succ_le_succ ih.2⟩
  | case2 => exact ⟨Nat.zero_le _, Nat.zero_le _⟩
  | case3 => exact ⟨Nat.zero_le _, Nat.zero_le _⟩

theorem shared_same (below : i < shared xs ys) : xs[i]? = ys[i]? := by
  fun_induction shared xs ys generalizing i with
  | case1 x xs ys ih =>
      cases i with
      | zero => rfl
      | succ i => exact ih (Nat.lt_of_succ_lt_succ below)
  | case2 => exact absurd below (Nat.not_lt_zero i)
  | case3 => exact absurd below (Nat.not_lt_zero i)

theorem shared_differs (differ : xs ≠ ys) : xs[shared xs ys]? ≠ ys[shared xs ys]? := by
  fun_induction shared xs ys with
  | case1 x xs ys ih => exact ih fun same => differ (congrArg _ same)
  | case2 x xs y ys other => exact fun same => other (Option.some.inj same)
  | case3 xs ys none =>
      cases xs with
      | nil =>
          cases ys with
          | nil => exact absurd rfl differ
          | cons y ys => exact nofun
      | cons x xs =>
          cases ys with
          | nil => exact nofun
          | cons y ys => exact absurd rfl (none x xs y ys rfl)

theorem shared_self (xs : List Byte) : shared xs xs = xs.length := by
  induction xs with
  | nil => rfl
  | cons x xs ih => rw [shared, if_pos rfl, ih, List.length_cons]

end Shared

/-- A string length taken over memory. A null pointer has length zero. -/
def strLenAt (m : Mem 64) (a : BitVec 64) : Traced Access Nat :=
  if a = 0 then pure 0 else .emit (.read a (strLen m a + 1)) (strLen m a)

/-- The characters of the string at `a`. -/
def textAt (m : Mem 64) (a : BitVec 64) : List Byte := read m a (strLenAt m a).val

/-- The string at `a` compared with `text`, whose characters are elsewhere. -/
def equalsAt (m : Mem 64) (a : BitVec 64) (text : List Byte) : Traced Access Bool := do
  let len ← strLenAt m a
  pure (decide (text.length = len ∧ text = read m a len))

/-- What a comparison with the string at `a` looks at lies in `[base, base + len)`. -/
def StringIn (m : Mem 64) (base : BitVec 64) (len : Nat) (a : BitVec 64) : Prop :=
  a ≠ 0 → Terminated m base len a

section Compare
variable {m : Mem 64} {a base : BitVec 64} {text : List Byte} {len : Nat}

theorem equalsAt_reads (small : len < 2 ^ 64) :
    Traced.Only (Access.ReadsIn base len) (equalsAt m a text) ↔ StringIn m base len a := by
  unfold equalsAt strLenAt StringIn
  simp only [Traced.only_bind, Traced.only_ite, Traced.only_pure, Traced.only_emit, Access.readsIn_read,
    covers_strLen small, implies_true, true_and, and_true, ne_eq]

theorem equalsAt_val : (equalsAt m a text).val = decide (textAt m a = text) := by
  unfold equalsAt textAt
  rw [Traced.val_bind, Traced.val_pure]
  congr 1
  apply propext
  constructor
  · exact fun same => same.2.symm
  · rintro rfl
    exact ⟨read_length, rfl⟩

end Compare

end ByteMem
