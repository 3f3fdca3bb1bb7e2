import NeKernel.Lib.WordLoops

/-!
# Moving overlapping ranges

A copy that goes up moves its range unless the destination begins inside the source, above its
first byte; a copy that goes down moves it unless the source begins so inside the destination.
-/

namespace ByteMem

/-- `m'` is `m` with the `n` bytes from `src` at `dst`. -/
structure Moved {w : Nat} (m m' : Mem w) (dst src : BitVec w) (n : Nat) : Prop where
  holds : read m' dst n = read m src n
  rest : SameOutside dst n m m'

/-- `b` lies above `a`, among the `n` bytes from it. -/
def Ahead {w : Nat} (a b : BitVec w) (n : Nat) : Prop := a ≠ b ∧ Within a n b

section Writes
variable {w : Nat} {m : Mem w} {dst src : BitVec w} {xs ys : List Byte} {n k : Nat}

theorem moved_write (small : n ≤ 2 ^ w) : Moved m (write m dst (read m src n)) dst src n := by
  have length : (read m src n).length = n := read_length
  constructor
  · have same := read_write_same (m := m) (a := dst) (by rwa [length] : (read m src n).length ≤ 2 ^ w)
    rwa [length] at same
  · have same := @write_sameOutside _ m dst (read m src n)
    rwa [length] at same

theorem write_head (positive : 0 < n) : write m dst (read m src n) dst = m src := by
  unfold write
  rw [BitVec.sub_self, BitVec.toNat_zero, List.getD_eq_getElem _ _ (by rwa [read_length])]
  simp [read]

theorem write_comm (apart : Apart dst xs.length src ys.length) :
    write (write m dst xs) src ys = write (write m src ys) dst xs := by
  funext x
  by_cases inside : Within dst xs.length x
  · have other := apart x inside
    rw [write_outside other]
    unfold write Within at *
    rw [List.getD_eq_getElem _ _ inside, List.getD_eq_getElem _ _ inside]
  · rw [write_outside inside]
    unfold write
    congr 1
    exact write_outside inside

theorem ahead_add (offset : BitVec w) :
    Ahead (src + offset) (dst + offset) n ↔ Ahead src dst n := by
  have distance : dst + offset - (src + offset) = dst - src := by grind
  have same : src + offset ≠ dst + offset ↔ src ≠ dst := by grind
  unfold Ahead Within
  rw [distance, same]

theorem Ahead.mono (ahead : Ahead src dst n) (le : n ≤ k) : Ahead src dst k :=
  ⟨ahead.1, ahead.2.mono le⟩

/-- A write to the first part of the destination leaves the rest of the source alone. -/
theorem rest_apart (small : n + k ≤ 2 ^ w) (apart : ¬ Ahead src dst (n + k)) :
    Apart (src + BitVec.ofNat w n) k dst n := by
  intro x inSource inDest
  unfold Within at inSource inDest
  have source : x - src = (x - (src + BitVec.ofNat w n)) + BitVec.ofNat w n := by
    rw [← BitVec.sub_sub, BitVec.sub_add_cancel]
  have between : dst - src = (x - src) - (x - dst) := by
    grind
  have far : (x - src).toNat = (x - (src + BitVec.ofNat w n)).toNat + n := by
    rw [source, BitVec.toNat_add, BitVec.toNat_ofNat, Nat.mod_eq_of_lt (by omega : n < 2 ^ w),
      Nat.mod_eq_of_lt (by omega)]
  have distance : (dst - src).toNat = (x - src).toNat - (x - dst).toNat := by
    rw [between, BitVec.toNat_sub_of_le]
    rw [BitVec.le_def]
    omega
  apply apart
  refine ⟨fun same => ?_, ?_⟩
  · have none : (dst - src).toNat = 0 := by rw [same, BitVec.sub_self, BitVec.toNat_zero]
    omega
  · unfold Within
    omega

theorem move_up (small : n + k ≤ 2 ^ w) (apart : ¬ Ahead src dst (n + k)) :
    write (write m dst (read m src n)) (dst + BitVec.ofNat w n)
        (read (write m dst (read m src n)) (src + BitVec.ofNat w n) k) =
      write m dst (read m src (n + k)) := by
  have kept : read (write m dst (read m src n)) (src + BitVec.ofNat w n) k =
      read m (src + BitVec.ofNat w n) k :=
    read_congr (by omega) fun x inside => write_outside
      (by rw [read_length]; exact rest_apart small apart x inside)
  have joined := @write_add w m dst (read m src n) (read m (src + BitVec.ofNat w n) k)
    (by rwa [read_length, read_length])
  rw [read_length] at joined
  rw [kept, joined, read_add]

theorem move_down (small : n + k ≤ 2 ^ w) (apart : ¬ Ahead dst src (n + k)) :
    write (write m (dst + BitVec.ofNat w n) (read m (src + BitVec.ofNat w n) k)) dst
        (read (write m (dst + BitVec.ofNat w n) (read m (src + BitVec.ofNat w n) k)) src n) =
      write m dst (read m src (n + k)) := by
  have kept : read (write m (dst + BitVec.ofNat w n) (read m (src + BitVec.ofNat w n) k)) src n =
      read m src n :=
    read_congr (by omega) fun x inside => write_outside
      (by rw [read_length]; exact (rest_apart small apart).symm x inside)
  have halves : Apart dst n (dst + BitVec.ofNat w n) k := by
    simpa using @Apart.of_offsets w dst n k 0 n (by omega) small
  have joined := @write_add w m dst (read m src n) (read m (src + BitVec.ofNat w n) k)
    (by rwa [read_length, read_length])
  rw [write_comm (by rwa [read_length, read_length]), read_length] at joined
  rw [kept, joined, read_add]

end Writes

/-- `count` words of `w` bytes, the last one first. `dst` and `src` are the ends of the ranges. -/
def copyWordsDown (w : Nat) : Nat → BitVec 64 → BitVec 64 → Mem 64 → Traced Access (Mem 64)
  | 0, _, _, m => pure m
  | count + 1, dst, src, m => do
      let word ← Traced.emit (.read (src - BitVec.ofNat 64 w) w) (read m (src - BitVec.ofNat 64 w) w)
      Traced.emit (.write (dst - BitVec.ofNat 64 w) w) ()
      copyWordsDown w count (dst - BitVec.ofNat 64 w) (src - BitVec.ofNat 64 w)
        (write m (dst - BitVec.ofNat 64 w) word)

section Loops
variable {dst src : BitVec 64} {count w : Nat} {m : Mem 64}

theorem copyWords_moves (small : count * w ≤ 2 ^ 64) (apart : ¬ Ahead src dst (count * w)) :
    (copyWords w count dst src m).val = write m dst (read m src (count * w)) := by
  induction count generalizing dst src m with
  | zero => rw [copyWords, Traced.val_pure, Nat.zero_mul]; rfl
  | succ count ih =>
      have split : (count + 1) * w = w + count * w := by ring
      rw [split] at small apart ⊢
      have later : ¬ Ahead (src + BitVec.ofNat 64 w) (dst + BitVec.ofNat 64 w) (count * w) := by
        rw [ahead_add]
        exact fun ahead => apart (ahead.mono (by omega))
      rw [copyWords, Traced.val_bind, Traced.val_bind, Traced.val_emit, ih (by omega) later]
      exact move_up small apart

theorem copyWords_add {later : Nat} :
    (copyWords w (count + later) dst src m).val =
      (copyWords w later (dst + BitVec.ofNat 64 (count * w)) (src + BitVec.ofNat 64 (count * w))
        (copyWords w count dst src m).val).val := by
  induction count generalizing dst src m with
  | zero => rw [copyWords, Traced.val_pure, Nat.zero_add, Nat.zero_mul, BitVec.add_zero, BitVec.add_zero]
  | succ count ih =>
      have next (a : BitVec 64) : a + BitVec.ofNat 64 w + BitVec.ofNat 64 (count * w) =
          a + BitVec.ofNat 64 ((count + 1) * w) := by
        rw [BitVec.add_assoc, ← BitVec.ofNat_add]
        congr 2
        ring
      rw [Nat.add_right_comm, copyWords, Traced.val_bind, Traced.val_bind, Traced.val_emit, ih, next, next,
        copyWords, Traced.val_bind, Traced.val_bind, Traced.val_emit]

/-- Going up byte by byte into the source, the copy repeats what lies before the destination. -/
theorem copyWords_repeats {n : Nat} (ahead : Ahead src dst n) (small : n ≤ 2 ^ 64) :
    (copyWords 1 n dst src m).val (dst + (dst - src)) = m src := by
  obtain ⟨different, inside⟩ := ahead
  unfold Within at inside
  have positive : 0 < (dst - src).toNat := by bv_omega
  obtain ⟨rest, split⟩ := Nat.exists_eq_add_of_lt inside
  have distance : BitVec.ofNat 64 ((dst - src).toNat * 1) = dst - src := by
    rw [Nat.mul_one, BitVec.ofNat_toNat, BitVec.setWidth_eq]
  have reached : src + (dst - src) = dst := by rw [BitVec.add_comm, BitVec.sub_add_cancel]
  have first : (copyWords 1 (dst - src).toNat dst src m).val dst = m src := by
    have short : ¬ Ahead src dst ((dst - src).toNat * 1) := by
      rw [Nat.mul_one]
      exact fun ahead => Nat.lt_irrefl _ ahead.2
    rw [copyWords_moves (by omega) short]
    exact write_head (by omega)
  rw [split, Nat.add_assoc, copyWords_add, distance, reached, Nat.add_comm rest, copyWords_add, Nat.one_mul]
  generalize (copyWords 1 (dst - src).toNat dst src m).val = half at first ⊢
  rw [copyWords_same]
  · rw [copyWords, Traced.val_bind, Traced.val_bind, Traced.val_emit, copyWords, Traced.val_pure]
    exact (write_head Nat.one_pos).trans first
  · unfold Within
    bv_omega

/-- With only the first byte of the source set, that byte arrives twice. -/
theorem copyWords_spoils {n : Nat} (ahead : Ahead src dst n) (small : n ≤ 2 ^ 64) :
    ∃ m : Mem 64, read (copyWords 1 n dst src m).val dst n ≠ read m src n := by
  refine ⟨fun x => if x = src then 1 else 0, fun same => ?_⟩
  have twice := copyWords_repeats (m := fun x => if x = src then 1 else 0) ahead small
  obtain ⟨different, inside⟩ := ahead
  have position (m : Mem 64) (a : BitVec 64) : (read m a n)[(dst - src).toNat]? = some (m (a + (dst - src))) := by
    rw [read, List.getElem?_map, List.getElem?_range inside, Option.map_some, BitVec.ofNat_toNat, BitVec.setWidth_eq]
  have entry := congrArg (·[(dst - src).toNat]?) same
  rw [position, position, twice, BitVec.add_comm, BitVec.sub_add_cancel] at entry
  simp [Ne.symm different] at entry

theorem copyWordsDown_moves (small : count * w ≤ 2 ^ 64) (apart : ¬ Ahead dst src (count * w)) :
    (copyWordsDown w count (dst + BitVec.ofNat 64 (count * w)) (src + BitVec.ofNat 64 (count * w)) m).val =
      write m dst (read m src (count * w)) := by
  induction count generalizing m with
  | zero => rw [copyWordsDown, Traced.val_pure, Nat.zero_mul]; rfl
  | succ count ih =>
      have split : (count + 1) * w = count * w + w := by ring
      rw [split] at small apart ⊢
      have back (a : BitVec 64) : a + BitVec.ofNat 64 (count * w + w) - BitVec.ofNat 64 w =
          a + BitVec.ofNat 64 (count * w) := by
        rw [BitVec.ofNat_add, ← BitVec.add_assoc, BitVec.add_sub_cancel]
      have earlier : ¬ Ahead dst src (count * w) := fun ahead => apart (ahead.mono (by omega))
      rw [copyWordsDown, Traced.val_bind, Traced.val_bind, Traced.val_emit, back, back,
        ih (by omega) earlier]
      exact move_down small apart

theorem copyWordsDown_same :
    SameOutside (dst - BitVec.ofNat 64 (count * w)) (count * w) m (copyWordsDown w count dst src m).val := by
  induction count generalizing dst src m with
  | zero =>
      rw [copyWordsDown, Traced.val_pure]
      exact SameOutside.refl
  | succ count ih =>
      have split : (count + 1) * w = w + count * w := by ring
      rw [split]
      have front : dst - BitVec.ofNat 64 (w + count * w) =
          dst - BitVec.ofNat 64 w - BitVec.ofNat 64 (count * w) := by
        rw [BitVec.ofNat_add, BitVec.sub_sub]
      have last : dst - BitVec.ofNat 64 w =
          dst - BitVec.ofNat 64 (w + count * w) + BitVec.ofNat 64 (count * w) := by
        rw [front, BitVec.sub_add_cancel]
      rw [copyWordsDown, Traced.val_bind, Traced.val_bind, Traced.val_emit]
      intro x outside
      rw [ih x fun early => outside (by rw [front]; exact early.mono (by omega))]
      refine write_outside fun late => outside ?_
      rw [read_length, last] at late
      exact late.of_offset (count * w) (by omega)

end Loops

end ByteMem
