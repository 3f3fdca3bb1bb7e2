import NeKernel.Lib.TextBuffers

/-!
# Strings that grow in a buffer

The rest of the buffer behind the string is zero, so characters that are stored at its end make a longer
string there. They may come from the string itself.
-/

namespace ByteMem

structure Padded (m : Mem 64) (a : BitVec 64) (size : Nat) (text : List Byte) : Prop where
  holds : HoldsText m a size text
  fits : a.toNat + size ≤ 2 ^ 64
  zeros : ∀ i, text.length ≤ i → i < size → m (a + BitVec.ofNat 64 i) = 0

section Padded
variable {m m' : Mem 64} {a b src x : BitVec 64} {size n : Nat} {text more : List Byte}

theorem within_exists (inside : Within a n x) : ∃ i < n, x = a + BitVec.ofNat 64 i := by
  refine ⟨(x - a).toNat, inside, ?_⟩
  rw [BitVec.ofNat_toNat, BitVec.setWidth_eq, BitVec.add_comm, BitVec.sub_add_cancel]

theorem padded_cleared (fits : a.toNat + size ≤ 2 ^ 64) (positive : 0 < size) :
    Padded (write m a (List.replicate size 0)) a size [] := by
  have zero (i : Nat) (below : i < size) : write m a (List.replicate size 0) (a + BitVec.ofNat 64 i) = 0 := by
    rw [write_inside i (by omega) (by rwa [List.length_replicate])]
    exact List.getElem_replicate _
  refine ⟨⟨positive, List.not_mem_nil, ?_⟩, fits, fun i _ below => zero i below⟩
  have first := zero 0 positive
  rw [BitVec.add_zero] at first
  rw [List.length_nil, Nat.zero_add, read_single, first, List.nil_append]

theorem Padded.congr (padded : Padded m a size text) (same : SameInside a size m m') : Padded m' a size text := by
  have fits := padded.fits
  refine ⟨padded.holds.congr (by omega) same, fits, fun i low below => ?_⟩
  rw [same _ (within_add i (by omega) below), padded.zeros i low below]

/-- A copy that leaves the longer string behind has stored its characters at the end of the shorter one. -/
theorem Padded.lands (padded : Padded m a size text) (same : SameOutside b more.length m m')
    (longer : HoldsText m' a size (text ++ more)) (some : more ≠ []) : b = a + BitVec.ofNat 64 text.length := by
  have short := longer.short
  have fits := padded.fits
  have positive := List.length_pos_iff.mpr some
  rw [List.length_append] at short
  -- every character behind the shorter string is new, so it lies in the range that was stored
  have stored (j : Nat) (below : j < more.length) :
      Within b more.length (a + BitVec.ofNat 64 (text.length + j)) := by
    by_contra outside
    have new : m' (a + BitVec.ofNat 64 (text.length + j)) = more[j] := by
      have byte := congrArg (·[text.length + j]?) longer.stored
      rw [List.getElem?_append_left (by rw [List.length_append]; omega), List.getElem?_append_right (by omega),
        Nat.add_sub_cancel_left, List.getElem?_eq_getElem below, read, List.getElem?_map,
        List.getElem?_range (by rw [List.length_append]; omega), Option.map_some] at byte
      exact Option.some.inj byte
    rw [same _ outside, padded.zeros _ (by omega) (by omega)] at new
    exact longer.characters (List.mem_append_right _ (new ▸ List.getElem_mem below))
  have first := stored 0 positive
  unfold Within at first stored
  rw [Nat.add_zero] at first
  by_contra other
  have distance : 0 < (a + BitVec.ofNat 64 text.length - b).toNat := by
    refine Nat.pos_of_ne_zero fun zero => other ?_
    have equal : a + BitVec.ofNat 64 text.length - b = 0#64 := BitVec.eq_of_toNat_eq zero
    rw [← BitVec.sub_add_cancel (a + BitVec.ofNat 64 text.length) b, equal, BitVec.zero_add]
  have last := stored (more.length - (a + BitVec.ofNat 64 text.length - b).toNat) (by omega)
  have chain (k : Nat) : a + BitVec.ofNat 64 (text.length + k) - b =
      (a + BitVec.ofNat 64 text.length - b) + BitVec.ofNat 64 k := by
    rw [BitVec.ofNat_add, ← BitVec.add_assoc, BitVec.sub_eq_add_neg, BitVec.sub_eq_add_neg, BitVec.add_assoc _ (-b),
      BitVec.add_comm (-b), ← BitVec.add_assoc]
  rw [chain, BitVec.toNat_add, BitVec.toNat_ofNat, Nat.mod_eq_of_lt (a := more.length - _) (by omega),
    Nat.add_sub_cancel' first.le, Nat.mod_eq_of_lt (by omega)] at last
  exact absurd last (lt_irrefl _)

section Append
variable (padded : Padded m a size text) (short : text.length + more.length < size)
include padded short

theorem Padded.append (characters : 0 ∉ more) :
    Padded (write m (a + BitVec.ofNat 64 text.length) more) a size (text ++ more) := by
  have fits := padded.fits
  have behind (i : Nat) (low : text.length + more.length ≤ i) (below : i < size) :
      write m (a + BitVec.ofNat 64 text.length) more (a + BitVec.ofNat 64 i) = 0 := by
    have apart : Apart (a + BitVec.ofNat 64 text.length) more.length (a + BitVec.ofNat 64 i) 1 :=
      Apart.of_offsets low (by omega)
    rw [write_outside fun inside => apart _ inside (within_self Nat.one_pos), padded.zeros i (by omega) below]
  have front : read (write m (a + BitVec.ofNat 64 text.length) more) a text.length = text := by
    have apart : Apart a text.length (a + BitVec.ofNat 64 text.length) more.length := Apart.behind le_rfl (by omega)
    rw [read_congr (by omega) fun x inside => write_outside (apart x inside), ← read_take (Nat.le_succ _),
      padded.holds.stored, List.take_left]
  refine ⟨⟨by rwa [List.length_append], ?_, ?_⟩, fits, fun i low below => behind i (List.length_append ▸ low) below⟩
  · exact List.not_mem_append padded.holds.characters characters
  · rw [List.length_append, read_add, read_add, front, read_write_same (by omega), read_single, behind _ le_rfl short]

variable (from' : Text m src more)
include from'

/-- The characters are nowhere behind the end of the string. -/
theorem Padded.before (i : Nat) (below : i < more.length) :
    ¬ Within (a + BitVec.ofNat 64 text.length) more.length (src + BitVec.ofNat 64 i) := by
  have fits := padded.fits
  intro inside
  obtain ⟨j, small, same⟩ := within_exists inside
  rw [BitVec.add_assoc, ← BitVec.ofNat_add] at same
  exact from'.nonzero below (same ▸ padded.zeros _ (by omega) (by omega))

theorem Padded.source : ¬ Ahead src (a + BitVec.ofNat 64 text.length) more.length := by
  rintro ⟨-, inside⟩
  obtain ⟨i, below, same⟩ := within_exists inside
  exact padded.before short from' i below (same ▸ within_self (by omega))

/-- The string the characters came from is still there, or it is the one that has grown. -/
theorem Padded.grown : Text (write m (a + BitVec.ofNat 64 text.length) more) src
    (if src + BitVec.ofNat 64 more.length = a + BitVec.ofNat 64 text.length then more ++ more else more) := by
  have fits := padded.fits
  have fits' := from'.fits
  have outside (i : Nat) (below : i < more.length) :
      write m (a + BitVec.ofNat 64 text.length) more (src + BitVec.ofNat 64 i) = m (src + BitVec.ofNat 64 i) :=
    write_outside (padded.before short from' i below)
  split
  · rename_i joined
    have front : read (write m (a + BitVec.ofNat 64 text.length) more) src more.length = more := by
      rw [read_congr (by omega) fun x inside => ?_, from'.read_take le_rfl, List.take_length]
      obtain ⟨i, below, rfl⟩ := within_exists inside
      exact outside i below
    have last := (padded.append short from'.characters).zeros (text.length + more.length)
      (List.length_append.le) short
    have place := congrArg BitVec.toNat joined
    rw [BitVec.toNat_add, BitVec.toNat_add, BitVec.toNat_ofNat, BitVec.toNat_ofNat, Nat.add_mod_mod, Nat.add_mod_mod,
      Nat.mod_eq_of_lt (by omega), Nat.mod_eq_of_lt (by omega)] at place
    refine ⟨from'.nonnull, by rw [List.length_append]; omega, ?_, ?_⟩
    · exact List.not_mem_append from'.characters from'.characters
    · rw [List.length_append, read_add, read_add, front, joined, read_write_same (by omega), read_single,
        BitVec.ofNat_add, ← BitVec.add_assoc, joined, BitVec.add_assoc, ← BitVec.ofNat_add, last]
  · rename_i apart
    refine from'.congr fun x inside => ?_
    obtain ⟨i, below, rfl⟩ := within_exists inside
    rcases Nat.lt_succ_iff_lt_or_eq.mp below with less | rfl
    · exact outside i less
    · refine write_outside fun stored => ?_
      obtain ⟨j, small, same⟩ := within_exists stored
      cases j with
      | zero => exact apart (by rwa [BitVec.add_zero] at same)
      | succ j =>
          -- then the last character would be behind the end, too
          refine padded.before short from' (more.length - 1) (by omega) ?_
          have previous : src + BitVec.ofNat 64 (more.length - 1) =
              a + BitVec.ofNat 64 text.length + BitVec.ofNat 64 j := by
            rw [← Nat.sub_add_cancel (by omega : 1 ≤ more.length), BitVec.ofNat_add, BitVec.ofNat_add j,
              ← BitVec.add_assoc, ← BitVec.add_assoc _ _ (BitVec.ofNat 64 1), BitVec.add_left_inj] at same
            exact same
          rw [previous]
          exact within_add j (by omega) (by omega)

end Append

end Padded

end ByteMem
