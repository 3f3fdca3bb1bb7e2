import NeKernel.LibSystem.MemoryCopy

/-!
# The fill routine of libSystem

`MmFillMemory` stores a word of equal bytes where the destination is aligned, and single bytes behind
the last whole word.
-/

namespace LibSystem
open ByteMem Ne.Kernel

/-- The byte in every byte of a word. -/
def pattern (value : Byte) : UInt64 :=
  let pattern := value.setWidth 64
  let pattern := pattern ||| (pattern <<< 8)
  let pattern := pattern ||| (pattern <<< 16)
  pattern ||| (pattern <<< 32)

def mmFillMemory (dest : VoidPtr) (len : UInt64) (value : Byte) (m : Memory) : Traced Access (VoidPtr × Memory) :=
  if len = 0 ∨ dest = 0 then pure (0, m)
  else if 8 ≤ len ∧ dest % 8 = 0 then do
    let m ← fillWords (leBytes 8 (pattern value).toNat) (len.toNat / 8) dest m
    let offset := BitVec.ofNat 64 (len.toNat / 8 * 8)
    let m ← fillWords [value] (len.toNat % 8) (dest + offset) m
    pure (dest, m)
  else do
    let m ← fillWords [value] len.toNat dest m
    pure (dest, m)

/-- `m'` has the value in the `n` bytes from `a`, and is `m` elsewhere. -/
structure Filled (m m' : Memory) (a : VoidPtr) (n : Nat) (value : Byte) : Prop where
  holds : ∀ x, Within a n x → m' x = value
  rest : SameOutside a n m m'

section Filling
variable {m : Memory} {dest : VoidPtr} {len : UInt64} {value : Byte} {n : Nat}

theorem filled_write : Filled m (write m dest (List.replicate n value)) dest n value := by
  constructor
  · intro x inside
    exact List.getD_replicate _ inside
  · have same := @write_sameOutside 64 m dest (List.replicate n value)
    rwa [List.length_replicate] at same

theorem pattern_bytes (value : Byte) : leBytes 8 (pattern value).toNat = List.replicate 8 value := by
  revert value
  decide +kernel

theorem mmFillMemory_val (live : ¬ (len = 0 ∨ dest = 0)) :
    (mmFillMemory dest len value m).val = (dest, write m dest (List.replicate len.toNat value)) := by
  have bound := len.isLt
  have bytes (count : Nat) (a : VoidPtr) (m : Memory) (small : count ≤ 2 ^ 64) :
      (fillWords [value] count a m).val = write m a (List.replicate count value) := by
    have single := @fillWords_replicate a count 1 m value (by omega)
    rwa [List.replicate_one, Nat.mul_one] at single
  unfold mmFillMemory
  rw [if_neg live]
  split
  · have whole : len.toNat / 8 * 8 + len.toNat % 8 = len.toNat := by omega
    have joined := @write_add 64 m dest (List.replicate (len.toNat / 8 * 8) value)
      (List.replicate (len.toNat % 8) value) (by simp only [List.length_replicate]; omega)
    rw [List.replicate_append_replicate, List.length_replicate, whole] at joined
    rw [pattern_bytes, Traced.val_bind, Traced.val_bind, Traced.val_pure, fillWords_replicate (by omega),
      bytes _ _ _ (by omega), joined]
  · rw [Traced.val_bind, Traced.val_pure, bytes _ _ _ (by omega)]

theorem mmFillMemory_writes : Traced.Only (Access.WritesIn dest len.toNat) (mmFillMemory dest len value m) := by
  unfold mmFillMemory
  simp only [Traced.only_ite, Traced.only_bind, Traced.only_pure, fillWords_writes, leBytes_length,
    List.length_singleton, Nat.mul_one, and_true, implies_true, true_and]
  refine fun _ => ⟨fun _ => ⟨?_, ?_⟩, fun _ => fun _ inside => inside⟩
  · exact fun _ inside => inside.mono (by omega)
  · exact covers_offset (by omega)

end Filling

/-- The words and the bytes behind them meet: the range is filled, and nothing else is stored. -/
theorem mmFillMemory_fills (m : Memory) (dest : VoidPtr) (len : UInt64) (value : Byte) (target : dest ≠ 0)
    (positive : 0 < len.toNat) :
    Filled m (mmFillMemory dest len value m).val.2 dest len.toNat value ∧
      Traced.Only (Access.WritesIn dest len.toNat) (mmFillMemory dest len value m) := by
  have live : ¬ (len = 0 ∨ dest = 0) := by
    rintro (none | none)
    · rw [none] at positive
      exact absurd positive (Nat.lt_irrefl 0)
    · exact target none
  rw [mmFillMemory_val live]
  exact ⟨filled_write, mmFillMemory_writes⟩

/-- One word and three bytes behind it. -/
theorem mmFillMemory_fills_eleven : Filled (fun _ => 0) (mmFillMemory 0x1000 11 0xAA fun _ => 0).val.2 0x1000 11 0xAA :=
  (mmFillMemory_fills (fun _ => 0) 0x1000 11 0xAA (by decide) (by decide)).1

end LibSystem
