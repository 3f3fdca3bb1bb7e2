import NeKernel.Lib.Moves
import NeKernel.Machine

/-!
# The copy routine of libSystem

`MmCopyMemory` goes up or down and by words or bytes. The words it copies downwards are counted
from the end of the range, and so are the bytes it copies after them: what is left over at the
front is never reached.
-/

namespace LibSystem
open ByteMem Ne.Kernel

abbrev VoidPtr := BitVec 64
abbrev UInt64 := BitVec 64

def mmCopyMemory (dest src : VoidPtr) (len : UInt64) (m : Memory) : Traced Access (VoidPtr × Memory) :=
  if len = 0 ∨ dest = 0 ∨ src = 0 then pure (0, m)
  else if dest = src then pure (dest, m)
  else if src < dest ∧ dest < src + len then
    let rs := src + len
    let rd := dest + len
    if 8 ≤ len ∧ rs % 8 = 0 ∧ rd % 8 = 0 then do
      let m ← copyWordsDown 8 (len.toNat / 8) rd rs m
      let m ← copyWordsDown 1 (len.toNat % 8) rd rs m
      pure (dest, m)
    else do
      let m ← copyWordsDown 1 len.toNat rd rs m
      pure (dest, m)
  else if 8 ≤ len ∧ src % 8 = 0 ∧ dest % 8 = 0 then do
    let m ← copyWords 8 (len.toNat / 8) dest src m
    let offset := BitVec.ofNat 64 (len.toNat / 8 * 8)
    let m ← copyWords 1 (len.toNat % 8) (dest + offset) (src + offset) m
    pure (dest, m)
  else do
    let m ← copyWords 1 len.toNat dest src m
    pure (dest, m)

/-- The ends of the ranges are aligned, and their starts are not. -/
structure LosesHead (dest src : VoidPtr) (len : UInt64) : Prop where
  above : src.toNat < dest.toNat
  overlaps : dest.toNat < src.toNat + len.toNat
  long : 8 ≤ len.toNat
  sourceEnd : 8 ∣ src.toNat + len.toNat
  destEnd : 8 ∣ dest.toNat + len.toNat
  uneven : ¬ 8 ∣ len.toNat

theorem end_aligned {a len : BitVec 64} : (a + len) % 8 = 0 ↔ 8 ∣ a.toNat + len.toNat := by
  rw [← BitVec.toNat_inj, BitVec.toNat_umod, BitVec.toNat_add]
  show (a.toNat + len.toNat) % 2 ^ 64 % 8 = 0 ↔ _
  omega

section Directions
variable {dest src : VoidPtr} {len : UInt64} {m : Memory}

theorem mmCopyMemory_up (live : ¬ (len = 0 ∨ dest = 0 ∨ src = 0))
    (up : ¬ (src < dest ∧ dest < src + len)) (sourceFits : src.toNat + len.toNat ≤ 2 ^ 64)
    (destFits : dest.toNat + len.toNat ≤ 2 ^ 64) :
    (mmCopyMemory dest src len m).val.2 = write m dest (read m src len.toNat) := by
  have apart : ¬ Ahead src dest len.toNat := by
    rintro ⟨different, inside⟩
    unfold Within at inside
    apply up
    bv_omega
  have whole : len.toNat / 8 * 8 + len.toNat % 8 * 1 = len.toNat := by omega
  rw [mmCopyMemory, if_neg live]
  by_cases same : dest = src
  · rw [if_pos same, Traced.val_pure, same, write_read]
  · rw [if_neg same, if_neg up]
    split
    · have words : ¬ Ahead src dest (len.toNat / 8 * 8) := fun ahead => apart (ahead.mono (by omega))
      have rest : ¬ Ahead (src + BitVec.ofNat 64 (len.toNat / 8 * 8))
          (dest + BitVec.ofNat 64 (len.toNat / 8 * 8)) (len.toNat % 8 * 1) := by
        rw [ahead_add]
        exact fun ahead => apart (ahead.mono (by omega))
      have joined := @move_up 64 m dest src (len.toNat / 8 * 8) (len.toNat % 8 * 1) (by omega)
        (by rwa [whole])
      rw [Traced.val_bind, Traced.val_bind, Traced.val_pure, copyWords_moves (by omega) words,
        copyWords_moves (by omega) rest, joined, whole]
    · rw [Traced.val_bind, Traced.val_pure, copyWords_moves (by omega) (by rwa [Nat.mul_one]),
        Nat.mul_one]

theorem mmCopyMemory_down (live : ¬ (len = 0 ∨ dest = 0 ∨ src = 0)) (above : src < dest)
    (overlaps : dest < src + len) (sourceFits : src.toNat + len.toNat ≤ 2 ^ 64)
    (destFits : dest.toNat + len.toNat ≤ 2 ^ 64) (whole : ¬ LosesHead dest src len) :
    (mmCopyMemory dest src len m).val.2 = write m dest (read m src len.toNat) := by
  have apart : ¬ Ahead dest src len.toNat := by
    rintro ⟨-, inside⟩
    unfold Within at inside
    bv_omega
  have words (w count : Nat) (all : count * w = len.toNat) :
      (copyWordsDown w count (dest + len) (src + len) m).val = write m dest (read m src len.toNat) := by
    have moves := @copyWordsDown_moves dest src count w m (by omega) (by rwa [all])
    rwa [all, BitVec.ofNat_toNat, BitVec.setWidth_eq] at moves
  have different : dest ≠ src := by
    rintro rfl
    exact absurd above (by simp)
  rw [mmCopyMemory, if_neg live, if_neg different, if_pos ⟨above, overlaps⟩]
  dsimp only
  split
  · next aligned =>
      have even : len.toNat % 8 = 0 := by
        by_contra uneven
        rw [end_aligned, end_aligned] at aligned
        apply whole
        constructor <;> bv_omega
      rw [Traced.val_bind, Traced.val_bind, Traced.val_pure, even, words 8 _ (by omega), copyWordsDown,
        Traced.val_pure]
  · rw [Traced.val_bind, Traced.val_pure, words 1 _ (by omega)]

theorem mmCopyMemory_keeps_head (live : ¬ (len = 0 ∨ dest = 0 ∨ src = 0))
    (sourceFits : src.toNat + len.toNat ≤ 2 ^ 64)
    (destFits : dest.toNat + len.toNat ≤ 2 ^ 64) (loses : LosesHead dest src len) :
    (mmCopyMemory dest src len m).val.2 dest = m dest := by
  obtain ⟨above, overlaps, long, sourceEnd, destEnd, uneven⟩ := loses
  have different : dest ≠ src := by
    rintro rfl
    omega
  rw [mmCopyMemory, if_neg live, if_neg different, if_pos (by bv_omega)]
  dsimp only
  rw [if_pos ⟨by bv_omega, end_aligned.mpr sourceEnd, end_aligned.mpr destEnd⟩, Traced.val_bind,
    Traced.val_bind, Traced.val_pure]
  have words : ¬ Within (dest + len - BitVec.ofNat 64 (len.toNat / 8 * 8)) (len.toNat / 8 * 8) dest := by
    unfold Within
    bv_omega
  have rest : ¬ Within (dest + len - BitVec.ofNat 64 (len.toNat % 8 * 1)) (len.toNat % 8 * 1) dest := by
    unfold Within
    bv_omega
  exact (copyWordsDown_same dest rest).trans (copyWordsDown_same dest words)

end Directions

theorem mmCopyMemory_moves_iff {dest src : VoidPtr} {len : UInt64} (target : dest ≠ 0) (source : src ≠ 0)
    (positive : 0 < len.toNat) (sourceFits : src.toNat + len.toNat ≤ 2 ^ 64)
    (destFits : dest.toNat + len.toNat ≤ 2 ^ 64) :
    (∀ m, Moved m (mmCopyMemory dest src len m).val.2 dest src len.toNat) ↔ ¬ LosesHead dest src len := by
  have live : ¬ (len = 0 ∨ dest = 0 ∨ src = 0) := by
    rintro (none | none | none)
    · rw [none] at positive
      exact absurd positive (Nat.lt_irrefl 0)
    · exact target none
    · exact source none
  constructor
  · intro moves loses
    -- One byte that is set shows it: the source begins with it, and the destination does not.
    let m : Memory := fun x => if x = src then 1 else 0
    have different : dest ≠ src := by
      rintro rfl
      exact absurd loses.above (Nat.lt_irrefl _)
    have head := congrArg List.head? (moves m).holds
    have first (m : Memory) (a : BitVec 64) : (read m a len.toNat).head? = some (m a) := by
      rw [ByteMem.read, List.head?_map, List.head?_range, if_neg (by omega), Option.map_some,
        BitVec.add_zero]
    rw [first, first, mmCopyMemory_keeps_head live sourceFits destFits loses] at head
    simp [m, different] at head
  · intro whole m
    have small : len.toNat ≤ 2 ^ 64 := by omega
    by_cases up : src < dest ∧ dest < src + len
    · rw [mmCopyMemory_down live up.1 up.2 sourceFits destFits whole]
      exact moved_write small
    · rw [mmCopyMemory_up live up sourceFits destFits]
      exact moved_write small

/-- Ten bytes, one further up. -/
theorem mmCopyMemory_moves_iff_ten :
    ((∀ m, Moved m (mmCopyMemory 0x1001 0x1000 10 m).val.2 0x1001 0x1000 10) ↔
      ¬ LosesHead 0x1001 0x1000 10) ∧ ¬ LosesHead 0x1001 0x1000 10 :=
  ⟨mmCopyMemory_moves_iff (by decide) (by decide) (by decide) (by decide) (by decide),
    fun loses => absurd loses.sourceEnd (by decide)⟩

/-- Nine bytes, eight further up: the first of them is not moved. -/
theorem mmCopyMemory_not_memmove :
    ¬ ∀ (m : Memory) (dest src : VoidPtr) (len : UInt64), dest ≠ 0 → src ≠ 0 → 0 < len.toNat →
      src.toNat + len.toNat ≤ 2 ^ 64 → dest.toNat + len.toNat ≤ 2 ^ 64 →
      Moved m (mmCopyMemory dest src len m).val.2 dest src len.toNat := by
  intro moves
  have held := (moves (fun x => if x = 0x1007 then 1 else 0) 0x100F 0x1007 9 (by decide) (by decide)
    (by decide) (by decide) (by decide)).holds
  exact absurd held (by decide +kernel)

end LibSystem
