import NeKernel.Lib.TextBuffers
import NeKernel.Machine

/-!
# Formatting a string

`KStringBuilder::Format` asks one character to be a percent sign and the letter behind it at once, so it copies
its format as it stands. It never stores a terminator.
-/

namespace Ne.Kernel.KStringBuilder
open ByteMem
open Access (WritesIn writesIn_write writesIn_read)

/-- The loop over the format, with `left` characters left from the `idx`th on. The inner loop copies the argument. -/
def formatFrom (fmt fmt2 ret : UIntPtr) : Nat → Nat → Memory → Traced Access Memory
  | 0, _, m => pure m
  | left + 1, idx, m => do
      let c ← fetchByte m (fmt + BitVec.ofNat 64 idx)
      let m ← if c = 0x25 ∧ idx < strLen m fmt ∧ c = 0x73 then
          copyWords 1 (strLen m fmt2) (ret + BitVec.ofNat 64 idx) fmt2 m
        else pure m
      let c ← fetchByte m (fmt + BitVec.ofNat 64 idx)
      let m ← storeByte (ret + BitVec.ofNat 64 idx) c m
      formatFrom fmt fmt2 ret left (idx + 1) m

/-- `KStringBuilder::Format` with the stack memory `ret`, of as many characters as its two arguments have.
Without a result of its own it returns the literal `"?"`. -/
def format (fmt fmt2 ret : UIntPtr) (m : Memory) : Traced Access (Option Memory) :=
  if fmt = 0 ∨ fmt2 = 0 then pure none
  else if ret = 0 then pure none
  else do
    let m ← formatFrom fmt fmt2 ret (strLen m fmt) 0 m
    pure (some m)

def placeholder : List Byte := [0x25, 0x73]

/-- The string at `ret` has the argument in the place of the placeholder, and nothing else was written. -/
def Formats (m : Memory) (fmt fmt2 ret : UIntPtr) (before arg after : List Byte) : Prop :=
  Traced.Only (WritesIn ret (arg.length + (before ++ placeholder ++ after).length)) (format fmt fmt2 ret m) ∧
    ∃ m', (format fmt fmt2 ret m).val = some m' ∧
      read m' ret ((before ++ arg ++ after).length + 1) = before ++ arg ++ after ++ [0]

section Format
variable {m : Memory} {fmt fmt2 ret : UIntPtr} {before arg after text : List Byte} {left idx size : Nat}

theorem never_both (c : Byte) (p : Prop) : ¬ (c = 0x25 ∧ p ∧ c = 0x73) := by
  rintro ⟨percent, -, letter⟩
  rw [percent] at letter
  exact absurd letter (by decide)

theorem formatFrom_val : (formatFrom fmt fmt2 ret left idx m).val =
    (copyWords 1 left (ret + BitVec.ofNat 64 idx) (fmt + BitVec.ofNat 64 idx) m).val := by
  induction left generalizing idx m with
  | zero => rw [formatFrom, copyWords]
  | succ left ih =>
      have next (a : UIntPtr) : a + BitVec.ofNat 64 idx + BitVec.ofNat 64 1 = a + BitVec.ofNat 64 (idx + 1) := by
        rw [BitVec.add_assoc, ← BitVec.ofNat_add]
      -- no character is both a percent sign and a letter, so the argument is never copied
      rw [formatFrom, copyWords]
      simp only [Traced.val_bind, fetchByte_val, if_neg (never_both _ _), Traced.val_pure, storeByte_val,
        Traced.val_emit, ih, next, read_single]

theorem formatFrom_writes (inside : idx + left ≤ size) :
    Traced.Only (WritesIn ret size) (formatFrom fmt fmt2 ret left idx m) := by
  induction left generalizing idx m with
  | zero => exact Traced.only_pure
  | succ left ih =>
      simp only [formatFrom, Traced.only_bind, only_fetchByte, writesIn_read, Traced.only_ite, never_both,
        Traced.only_pure, only_storeByte, writesIn_write, false_implies, not_false_eq_true, forall_const, true_and]
      exact ⟨covers_offset (by omega), ih (by omega)⟩

section Result
variable (inFmt : Text m fmt text) (present : fmt2 ≠ 0) (stack : ret ≠ 0)
include inFmt present stack

theorem format_writes (fits : text.length ≤ size) : Traced.Only (WritesIn ret size) (format fmt fmt2 ret m) := by
  rw [format, if_neg (not_or.mpr ⟨inFmt.nonnull, present⟩), if_neg stack, Traced.only_bind, inFmt.strLen_eq]
  exact ⟨formatFrom_writes (by omega), Traced.only_pure⟩

theorem format_val (apart : Apart fmt (text.length + 1) ret size) (some : 0 < size) :
    (format fmt fmt2 ret m).val = .some (write m ret text) := by
  have fitsFmt := inFmt.fits
  have clear : ¬ Ahead fmt ret text.length := fun ahead => apart ret (ahead.2.mono (by omega)) (within_self some)
  rw [format, if_neg (not_or.mpr ⟨inFmt.nonnull, present⟩), if_neg stack, Traced.val_bind, Traced.val_pure,
    inFmt.strLen_eq, formatFrom_val, BitVec.add_zero, BitVec.add_zero,
    copyWords_moves (by omega) (by rwa [Nat.mul_one]), Nat.mul_one, inFmt.read_take le_rfl, List.take_length]

end Result

/-- A text stored without a terminator, read with what lies behind it. -/
theorem stored_reads {n : Nat} (small : text.length + n ≤ 2 ^ 64) :
    read (write m ret text) ret (text.length + n) = text ++ read m (ret + BitVec.ofNat 64 text.length) n := by
  rw [read_add, read_write_same (by omega), List.append_cancel_left_eq]
  refine read_congr (by omega) fun x inside => write_outside fun early => ?_
  have apart : Apart ret text.length (ret + BitVec.ofNat 64 text.length) n := Apart.behind le_rfl small
  exact apart x early inside

/-- The result is the one that is wanted exactly where the format with what lies behind it on the stack
happens to be it: the argument begins with the placeholder, and the rest of it is there already. -/
theorem format_formats_iff (m : Memory) (fmt fmt2 ret : UIntPtr) (before arg after : List Byte)
    (inFmt : Text m fmt (before ++ placeholder ++ after)) (inArg : Text m fmt2 arg) (stack : ret ≠ 0)
    (fits : ret.toNat + (arg.length + (before ++ placeholder ++ after).length) ≤ 2 ^ 64)
    (apart : Apart fmt ((before ++ placeholder ++ after).length + 1) ret
      (arg.length + (before ++ placeholder ++ after).length)) :
    Formats m fmt fmt2 ret before arg after ↔
      ∃ tail, arg ++ after = placeholder ++ after ++ tail ∧
        read m (ret + BitVec.ofNat 64 (before ++ placeholder ++ after).length) (tail.length + 1) = tail ++ [0] := by
  have two : placeholder.length = 2 := rfl
  have lengths : (before ++ placeholder ++ after).length = before.length + 2 + after.length := by
    rw [List.length_append, List.length_append, two]
  have result := format_val inFmt inArg.nonnull stack apart (by omega)
  have writes := format_writes inFmt inArg.nonnull stack
    (Nat.le_add_left (before ++ placeholder ++ after).length arg.length)
  unfold Formats
  generalize format_eq : before ++ placeholder ++ after = text at *
  have wanted : (before ++ arg ++ after).length = before.length + arg.length + after.length := by
    rw [List.length_append, List.length_append]
  constructor
  · rintro ⟨-, m', same, stored⟩
    obtain rfl : write m ret text = m' := Option.some.inj (result.symm.trans same)
    have long : text.length ≤ (before ++ arg ++ after).length := by
      -- a shorter result would end with a terminator inside the format
      by_contra short
      have front : read (write m ret text) ret text.length = text := read_write_same (by omega)
      rw [← Nat.add_sub_cancel' (by omega : (before ++ arg ++ after).length + 1 ≤ text.length), read_add,
        stored] at front
      refine inFmt.characters (front ▸ ?_)
      simp
    obtain ⟨k, more⟩ := Nat.exists_eq_add_of_le long
    rw [more, Nat.add_assoc, stored_reads (by omega)] at stored
    obtain ⟨tail, whole⟩ : ∃ tail, before ++ arg ++ after = text ++ tail := by
      have front := congrArg (List.take text.length) stored
      rw [List.take_left, List.take_append_of_le_length long] at front
      have halves := List.take_append_drop text.length (before ++ arg ++ after)
      rw [← front] at halves
      exact ⟨_, halves.symm⟩
    have rest := congrArg List.length whole
    rw [more, List.length_append, Nat.add_left_cancel_iff] at rest
    rw [whole, List.append_assoc, List.append_cancel_left_eq, rest] at stored
    refine ⟨tail, ?_, stored⟩
    rw [← format_eq] at whole
    simpa only [List.append_assoc, List.append_cancel_left_eq] using whole
  · rintro ⟨tail, sameText, behind⟩
    have whole : before ++ arg ++ after = text ++ tail := by
      rw [← format_eq, List.append_assoc, sameText, List.append_assoc, List.append_assoc, List.append_assoc]
    refine ⟨writes, _, result, ?_⟩
    have total := congrArg List.length whole
    rw [wanted, List.length_append] at total
    rw [whole, List.length_append, Nat.add_assoc, stored_reads (by omega), behind, List.append_assoc]

/-- `"%s"` with the argument `a`, over a cleared stack. -/
theorem format_keeps_placeholder :
    ¬ Formats (write (fun _ => 0) 0x1000 [0x25, 0x73, 0, 0x61]) 0x1000 0x1003 0x2000 [] [0x61] [] := by
  rintro ⟨-, m', result, stored⟩
  have inFmt : Text (write (fun _ => 0) 0x1000 [0x25, 0x73, 0, 0x61]) 0x1000 [0x25, 0x73] :=
    ⟨by decide, by decide, by decide, by decide +kernel⟩
  have apart : Apart 0x1000 ([0x25, 0x73].length + 1) (0x2000 : UIntPtr) 3 := .of_le (by decide) (by decide)
  have copied := format_val inFmt (by decide : (0x1003 : UIntPtr) ≠ 0) (by decide) apart (by decide)
  rw [copied] at result
  obtain rfl := Option.some.inj result
  exact absurd stored (by decide +kernel)

theorem format_formats_iff_letter :
    Formats (write (fun _ => 0) 0x1000 [0x25, 0x73, 0, 0x61]) 0x1000 0x1003 0x2000 [] [0x61] [] ↔
      ∃ tail, [0x61] ++ [] = placeholder ++ [] ++ tail ∧
        read (write (fun _ => 0) 0x1000 [0x25, 0x73, 0, 0x61])
          (0x2000 + BitVec.ofNat 64 ([] ++ placeholder ++ []).length) (tail.length + 1) = tail ++ [0] :=
  format_formats_iff (write (fun _ => 0) 0x1000 [0x25, 0x73, 0, 0x61]) 0x1000 0x1003 0x2000 [] [0x61] []
    ⟨by decide, by decide, by decide, by decide +kernel⟩ ⟨by decide, by decide, by decide, by decide +kernel⟩
    (by decide) (by decide) (.of_le (by decide) (by decide))

end Format

end Ne.Kernel.KStringBuilder
