import NeKernel.Lib.Terminated

/-!
# Loops that fill and copy memory

A fill or a copy that goes a word at a time touches `count` words, whatever the caller meant by
`count`. What it touches lies in a region exactly when the whole range does.
-/

namespace ByteMem

/-- `m` and `m'` hold the same bytes in `[base, base + len)`. -/
def SameInside (base : BitVec 64) (len : Nat) (m m' : Mem 64) : Prop :=
  ∀ x, Within base len x → m' x = m x

section Ranges
variable {base a b v : BitVec 64} {len size n k : Nat} {m m' m'' : Mem 64} {f : Field}

theorem covers_add : Covers base len a (n + k) ↔
    Covers base len a n ∧ Covers base len (a + BitVec.ofNat 64 n) k := by
  constructor
  · intro covers
    exact ⟨fun x inside => covers x (inside.mono (Nat.le_add_right n k)),
      fun x inside => covers x (inside.of_offset n le_rfl)⟩
  · rintro ⟨first, rest⟩ x inside
    by_cases early : Within a n x
    · exact first x early
    · apply rest
      unfold Within at inside early ⊢
      have distance := (x - a).isLt
      have small : (BitVec.ofNat 64 n).toNat = n := by
        rw [BitVec.toNat_ofNat, Nat.mod_eq_of_lt (by omega)]
      have below : BitVec.ofNat 64 n ≤ x - a := by
        rw [BitVec.le_def, small]
        omega
      rw [← BitVec.sub_sub, BitVec.toNat_sub_of_le below, small]
      omega

theorem covers_fits (small : len < 2 ^ 64) :
    Covers base len (base + v) n ↔ n = 0 ∨ v.toNat + n ≤ len := by
  rcases Nat.eq_zero_or_pos n with rfl | positive
  · exact iff_of_true covers_zero (.inl rfl)
  · have offset := @covers_word_iff base _ _ 0 v small positive v.isLt
    have same : base + v + BitVec.ofNat 64 0 = base + v := by simp
    rw [same, Nat.add_zero] at offset
    rw [offset]
    constructor
    · exact .inr
    · exact Or.rec (fun zero => absurd zero (by omega)) id

theorem SameInside.refl : SameInside base len m m := fun _ _ => rfl

theorem SameInside.trans (first : SameInside base len m m') (second : SameInside base len m' m'') :
    SameInside base len m m'' := fun x inside => (second x inside).trans (first x inside)

theorem SameInside.of_outside (same : SameOutside a n m m') (covers : Covers b size a n)
    (apart : Apart base len b size) : SameInside base len m m' :=
  fun x inside => same x fun changed => apart x inside (covers x changed)

theorem SameInside.field (same : SameInside base len m m')
    (covers : Covers base len (a + BitVec.ofNat 64 f.off) f.size) : f.on m' a = f.on m a := by
  have small := f.small
  rw [Field.on, Field.on, load_congr (by omega) fun x inside => same x (covers x inside)]

theorem SameInside.stringIn (same : SameInside base len m m') :
    StringIn m' base len a ↔ StringIn m base len a := by
  have position (i : Nat) (bound : (a - base).toNat + i < len) :
      m' (a + BitVec.ofNat 64 i) = m (a + BitVec.ofNat 64 i) := by
    apply same
    have back : a + BitVec.ofNat 64 i = base + BitVec.ofNat 64 ((a - base).toNat + i) := by
      rw [BitVec.ofNat_add, BitVec.ofNat_toNat, BitVec.setWidth_eq, ← BitVec.add_assoc,
        BitVec.add_comm base, BitVec.sub_add_cancel]
    rw [back]
    have less : (BitVec.ofNat 64 ((a - base).toNat + i)).toNat ≤ (a - base).toNat + i := by
      rw [BitVec.toNat_ofNat]
      exact Nat.mod_le _ _
    rw [Within, BitVec.add_comm, BitVec.add_sub_cancel]
    omega
  unfold StringIn Terminated
  refine imp_congr Iff.rfl (exists_congr fun i => and_congr_right fun bound => ?_)
  rw [position i bound]

end Ranges

/-- `count` times the same bytes, one after the other. -/
def fillWords (word : List Byte) : Nat → BitVec 64 → Mem 64 → Traced Access (Mem 64)
  | 0, _, m => pure m
  | count + 1, dst, m => do
      Traced.emit (.write dst word.length) ()
      fillWords word count (dst + BitVec.ofNat 64 word.length) (write m dst word)

/-- `count` words of `w` bytes. -/
def copyWords (w : Nat) : Nat → BitVec 64 → BitVec 64 → Mem 64 → Traced Access (Mem 64)
  | 0, _, _, m => pure m
  | count + 1, dst, src, m => do
      let word ← Traced.emit (.read src w) (read m src w)
      Traced.emit (.write dst w) ()
      copyWords w count (dst + BitVec.ofNat 64 w) (src + BitVec.ofNat 64 w) (write m dst word)

section Loops
variable {base dst src : BitVec 64} {len count w : Nat} {m : Mem 64} {word : List Byte}

theorem fillWords_reads : Traced.Only (Access.ReadsIn base len) (fillWords word count dst m) := by
  induction count generalizing dst m with
  | zero => exact Traced.only_pure
  | succ count ih =>
      simp only [fillWords, Traced.only_bind, Traced.only_emit, Access.readsIn_write, ih, and_self]

theorem fillWords_writes : Traced.Only (Access.WritesIn base len) (fillWords word count dst m) ↔
    Covers base len dst (count * word.length) := by
  induction count generalizing dst m with
  | zero =>
      rw [Nat.zero_mul]
      exact iff_of_true Traced.only_pure covers_zero
  | succ count ih =>
      rw [Nat.succ_mul, Nat.add_comm (count * _), covers_add, ← ih (m := write m dst word)]
      simp only [fillWords, Traced.only_bind, Traced.only_emit, Access.writesIn_write]

theorem fillWords_same : SameOutside dst (count * word.length) m (fillWords word count dst m).val := by
  induction count generalizing dst m with
  | zero =>
      rw [fillWords, Traced.val_pure]
      exact SameOutside.refl
  | succ count ih =>
      rw [fillWords, Traced.val_bind]
      intro x outside
      rw [Nat.succ_mul] at outside
      rw [ih x fun later => outside (later.of_offset word.length (by omega))]
      exact write_outside fun early => outside (early.mono (by omega))

theorem fillWords_replicate {v : Byte} (small : count * w ≤ 2 ^ 64) :
    (fillWords (List.replicate w v) count dst m).val = write m dst (List.replicate (count * w) v) := by
  induction count generalizing dst m with
  | zero =>
      rw [fillWords, Traced.val_pure, Nat.zero_mul]
      rfl
  | succ count ih =>
      have split : (count + 1) * w = w + count * w := by ring
      rw [split] at small ⊢
      have joined := @write_add 64 m dst (List.replicate w v) (List.replicate (count * w) v)
        (by simpa using small)
      rw [List.replicate_append_replicate, List.length_replicate] at joined
      rw [fillWords, Traced.val_bind, List.length_replicate, ih (by omega), joined]

theorem copyWords_reads : Traced.Only (Access.ReadsIn base len) (copyWords w count dst src m) ↔
    Covers base len src (count * w) := by
  induction count generalizing dst src m with
  | zero =>
      rw [Nat.zero_mul]
      exact iff_of_true Traced.only_pure covers_zero
  | succ count ih =>
      rw [Nat.succ_mul, Nat.add_comm (count * _), covers_add,
        ← @ih (dst + BitVec.ofNat 64 w) _ (write m dst (read m src w))]
      simp only [copyWords, Traced.only_bind, Traced.only_emit, Traced.val_emit, Access.readsIn_read,
        Access.readsIn_write, true_and]

theorem copyWords_writes : Traced.Only (Access.WritesIn base len) (copyWords w count dst src m) ↔
    Covers base len dst (count * w) := by
  induction count generalizing dst src m with
  | zero =>
      rw [Nat.zero_mul]
      exact iff_of_true Traced.only_pure covers_zero
  | succ count ih =>
      rw [Nat.succ_mul, Nat.add_comm (count * _), covers_add,
        ← @ih _ (src + BitVec.ofNat 64 w) (write m dst (read m src w))]
      simp only [copyWords, Traced.only_bind, Traced.only_emit, Traced.val_emit, Access.writesIn_read,
        Access.writesIn_write, true_and]

theorem copyWords_same : SameOutside dst (count * w) m (copyWords w count dst src m).val := by
  induction count generalizing dst src m with
  | zero =>
      rw [copyWords, Traced.val_pure]
      exact SameOutside.refl
  | succ count ih =>
      rw [copyWords, Traced.val_bind, Traced.val_bind, Traced.val_emit]
      intro x outside
      rw [Nat.succ_mul] at outside
      rw [ih x fun later => outside (later.of_offset w (by omega))]
      exact write_outside fun early => outside (early.mono (by rw [read_length]; omega))

end Loops

end ByteMem
