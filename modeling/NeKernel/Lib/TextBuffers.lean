import NeKernel.Lib.Moves

/-!
# Strings in buffers

A buffer holds a string when the characters lie at its start, with a terminator behind them that is
still inside.
-/

namespace ByteMem
open Access (WritesIn writesIn_write)

/-- The length of a string of which at most `limit` characters are looked at. -/
def strLenUpTo (m : Mem 64) (a : BitVec 64) (limit : Nat) : Traced Access Nat :=
  .emit (.read a (min (strLenFrom m limit a + 1) limit)) (strLenFrom m limit a)

def storeByte (a : BitVec 64) (c : Byte) (m : Mem 64) : Traced Access (Mem 64) := .emit (.write a 1) (write m a [c])

def storeChars : List Byte → BitVec 64 → Mem 64 → Traced Access (Mem 64)
  | [], _, m => pure m
  | c :: rest, a, m => do
      let m ← storeByte a c m
      storeChars rest (a + 1) m

structure HoldsText (m : Mem 64) (a : BitVec 64) (size : Nat) (text : List Byte) : Prop where
  short : text.length < size
  characters : 0 ∉ text
  stored : read m a (text.length + 1) = text ++ [0]

section Buffers
variable {m m' : Mem 64} {a b base : BitVec 64} {size len n k limit : Nat} {text xs : List Byte} {c : Byte}
  {P : Access → Prop}

@[simp] theorem storeByte_val : (storeByte a c m).val = write m a [c] := Traced.val_emit

@[simp] theorem only_storeByte : Traced.Only P (storeByte a c m) ↔ P (.write a 1) := Traced.only_emit

@[simp] theorem strLenUpTo_val : (strLenUpTo m a limit).val = strLenFrom m limit a := Traced.val_emit

@[simp] theorem only_strLenUpTo :
    Traced.Only P (strLenUpTo m a limit) ↔ P (.read a (min (strLenFrom m limit a + 1) limit)) := Traced.only_emit

theorem strLenFrom_bound : strLenFrom m limit a ≤ limit := by
  induction limit generalizing a with
  | zero => exact le_rfl
  | succ limit ih =>
      rw [strLenFrom]
      split
      · exact Nat.zero_le _
      · exact Nat.succ_le_succ ih

theorem read_take (le : k ≤ n) : (read m a n).take k = read m a k := by
  rw [read, ← List.map_take, List.take_range, Nat.min_eq_left le, read]

theorem read_single (m : Mem 64) (a : BitVec 64) : read m a 1 = [m a] := by
  simp [read]

theorem read_cons (m : Mem 64) (a : BitVec 64) (n : Nat) : read m a (n + 1) = m a :: read m (a + 1) n := by
  rw [Nat.add_comm, read_add, read_single]
  rfl

/-- A later write of as many bytes leaves nothing of an earlier one. -/
theorem write_over {ys : List Byte} (same : xs.length = ys.length) : write (write m a xs) a ys = write m a ys := by
  funext x
  by_cases inside : Within a ys.length x
  · unfold write Within at *
    rw [List.getD_eq_getElem _ _ inside, List.getD_eq_getElem _ _ inside]
  · rw [write_outside inside, write_outside inside, write_outside (same ▸ inside)]

theorem storeChars_val (small : text.length ≤ 2 ^ 64) : (storeChars text a m).val = write m a text := by
  induction text generalizing a m with
  | nil =>
      rw [storeChars, Traced.val_pure]
      rfl
  | cons c rest ih =>
      rw [List.length_cons] at small
      have joined := @write_add 64 m a [c] rest (by rw [List.length_singleton]; omega)
      rw [storeChars, Traced.val_bind, storeByte_val, ih (by omega)]
      exact joined

theorem storeChars_writes : Traced.Only (WritesIn base len) (storeChars text a m) ↔ Covers base len a text.length := by
  induction text generalizing a m with
  | nil => exact iff_of_true Traced.only_pure covers_zero
  | cons c rest ih =>
      rw [storeChars, Traced.only_bind, only_storeByte, writesIn_write, ih, List.length_cons, Nat.add_comm, covers_add]
      rfl

theorem holdsText_write (short : text.length < size) (small : size ≤ 2 ^ 64) (characters : 0 ∉ text) :
    HoldsText (write m a (text ++ [0])) a size text := by
  refine ⟨short, characters, ?_⟩
  have same := @read_write_same 64 m a (text ++ [0]) (by rw [List.length_append, List.length_singleton]; omega)
  rwa [List.length_append, List.length_singleton] at same

theorem HoldsText.congr (holds : HoldsText m a size text) (small : size ≤ 2 ^ 64) (same : SameInside a size m m') :
    HoldsText m' a size text := by
  refine ⟨holds.short, holds.characters, ?_⟩
  have short := holds.short
  rw [read_congr (by omega) fun x inside => same x (inside.mono (by omega)), holds.stored]

/-- The bytes of the whole buffer: the string, a terminator, and anything behind it. -/
theorem holdsText_iff : HoldsText m a size text ↔ 0 ∉ text ∧ ∃ rest, read m a size = text ++ 0 :: rest := by
  constructor
  · rintro ⟨short, characters, stored⟩
    have whole := read_add m a (text.length + 1) (size - (text.length + 1))
    rw [Nat.add_sub_cancel' short, stored, List.append_assoc, List.singleton_append] at whole
    exact ⟨characters, _, whole⟩
  · rintro ⟨characters, rest, whole⟩
    have length := congrArg List.length whole
    rw [read_length, List.length_append, List.length_cons] at length
    refine ⟨by omega, characters, ?_⟩
    rw [← read_take (by omega : text.length + 1 ≤ size), whole, List.take_length_add_append, List.take_succ_cons,
      List.take_zero]

theorem HoldsText.unique {text' : List Byte} (holds : HoldsText m a size text) (holds' : HoldsText m a size text') :
    text = text' := by
  have shorter {xs ys : List Byte} (x : HoldsText m a size xs) (y : HoldsText m a size ys) :
      ¬ xs.length < ys.length := by
    intro less
    have front : (ys ++ [0]).take (xs.length + 1) = xs ++ [0] := by
      rw [← y.stored, read_take (by omega), x.stored]
    have last : ys[xs.length]? = some 0 := by
      have byte := congrArg (·[xs.length]?) front
      rwa [List.getElem?_take_of_lt (by omega), List.getElem?_append_left less, List.getElem?_concat_length] at byte
    exact y.characters (List.mem_of_getElem? last)
  have lengths : text.length = text'.length :=
    Nat.le_antisymm (Nat.le_of_not_lt (shorter holds' holds)) (Nat.le_of_not_lt (shorter holds holds'))
  have stored := holds.stored
  rw [lengths, holds'.stored] at stored
  exact (List.append_cancel_right stored).symm

theorem Text.congr (here : Text m a text) (same : SameInside a (text.length + 1) m m') : Text m' a text := by
  refine ⟨here.nonnull, here.fits, here.characters, ?_⟩
  have fits := here.fits
  rw [read_congr (by omega) same, here.stored]

theorem Text.read_take (here : Text m a text) (le : n ≤ text.length) : read m a n = text.take n := by
  rw [← ByteMem.read_take (by omega : n ≤ text.length + 1), here.stored, List.take_append_of_le_length le]

theorem Text.read_slice (here : Text m a text) (le : k + n ≤ text.length) :
    read m (a + BitVec.ofNat 64 k) n = (text.drop k).take n := by
  have whole := here.read_take le
  have front := here.read_take (by omega : k ≤ text.length)
  rw [read_add, front, List.take_add] at whole
  exact List.append_cancel_left whole

theorem Text.limited (here : Text m a text) : strLenFrom m limit a = min text.length limit := by
  have fits := here.fits
  have least : strLenFrom m limit a ≤ min text.length limit := by
    refine Nat.le_min.mpr ⟨?_, strLenFrom_bound⟩
    by_cases long : limit ≤ text.length
    · exact strLenFrom_bound.trans long
    · exact strLenFrom_le here.terminator (by omega)
  by_contra other
  have zero : m (a + BitVec.ofNat 64 (strLenFrom m limit a)) = 0 := strLenFrom_zero (by omega)
  exact here.nonzero (by omega) zero

end Buffers

end ByteMem
