import NeKernel.Lib.Terminated
import NeKernel.Machine

/-!
# Searching a string for another

`rt_string_in_string` compares the needle with every part of the haystack that is as long.
-/

namespace Ne.Kernel
open ByteMem Access

/-- `rt_string_len` without a limit. -/
def rtStringLen (m : Memory) (ptr : UIntPtr) : Traced Access Nat := .emit (.read ptr (strLen m ptr + 1)) (strLen m ptr)

/-- What `rt_string_cmp` has left to compare, from the `i`th character on. -/
def rtStringCmpFrom (m : Memory) (src cmp : UIntPtr) : Nat → Nat → Traced Access (BitVec 32)
  | 0, _ => pure 0
  | left + 1, i => do
      let a ← fetchByte m (src + BitVec.ofNat 64 i)
      let b ← fetchByte m (cmp + BitVec.ofNat 64 i)
      if a ≠ b then pure (a.signExtend 32 - b.signExtend 32) else rtStringCmpFrom m src cmp left (i + 1)

def rtStringCmp (m : Memory) (src cmp : UIntPtr) (size : Nat) : Traced Access (BitVec 32) :=
  rtStringCmpFrom m src cmp size 0

def tryAt (m : Memory) (haystack needle : UIntPtr) (needleLen i : Nat) : Traced Access (Option UIntPtr) := do
  let difference ← rtStringCmp m (haystack + BitVec.ofNat 64 i) needle needleLen
  pure (if difference = 0 then some (haystack + BitVec.ofNat 64 i) else none)

def rtStringInString (m : Memory) (haystack needle : UIntPtr) : Traced Access UIntPtr :=
  if haystack = 0 ∨ needle = 0 then pure 0
  else do
    let needleLen ← rtStringLen m needle
    let hayLen ← rtStringLen m haystack
    if needleLen > hayLen then pure 0
    else do
      let hit ← Traced.search (tryAt m haystack needle needleLen) (hayLen - needleLen + 1) 0
      pure (hit.getD 0)

/-- The characters of `pat` are those of `text` from the `i`th on. -/
def Occurs (text pat : List Byte) (i : Nat) : Prop := ∃ before after, text = before ++ pat ++ after ∧ before.length = i

/-- `r` is the place of the first occurrence, null when there is none. -/
structure Finds (hay pat : List Byte) (haystack r : UIntPtr) : Prop where
  first : ∀ i, Occurs hay pat i → (∀ j < i, ¬ Occurs hay pat j) → r = haystack + BitVec.ofNat 64 i
  none : r = 0 ↔ ∀ i, ¬ Occurs hay pat i

/-- Reads in one of the two strings. -/
def InEither (haystack needle : UIntPtr) (hay pat : List Byte) (e : Access) : Prop :=
  ReadsIn haystack (hay.length + 1) e ∨ ReadsIn needle (pat.length + 1) e

section Search
variable {m : Memory} {src cmp haystack needle : UIntPtr} {hay pat : List Byte} {i left : Nat} {P : Access → Prop}

theorem occurs_iff : Occurs hay pat i ↔ i + pat.length ≤ hay.length ∧ ∀ k < pat.length, hay[i + k]? = pat[k]? := by
  constructor
  · rintro ⟨before, after, rfl, rfl⟩
    constructor
    · simp only [List.length_append]
      omega
    · intro k below
      rw [List.append_assoc, List.getElem?_append_right (by omega), Nat.add_sub_cancel_left,
        List.getElem?_append_left below]
  · rintro ⟨fits, same⟩
    have middle : (hay.drop i).take pat.length = pat := by
      apply List.ext_getElem?
      intro k
      by_cases below : k < pat.length
      · rw [List.getElem?_take_of_lt below, List.getElem?_drop, same k below]
      · rw [List.getElem?_eq_none (by simp; omega), List.getElem?_eq_none (by omega)]
    refine ⟨hay.take i, (hay.drop i).drop pat.length, ?_, by simp; omega⟩
    calc hay = hay.take i ++ hay.drop i := (List.take_append_drop i hay).symm
      _ = hay.take i ++ ((hay.drop i).take pat.length ++ (hay.drop i).drop pat.length) :=
        congrArg (hay.take i ++ ·) (List.take_append_drop pat.length (hay.drop i)).symm
      _ = _ := by rw [middle, List.append_assoc]

theorem difference_zero (a b : Byte) : a.signExtend 32 - b.signExtend 32 = 0 ↔ a = b := by
  constructor
  · intro same
    have equal : a.signExtend 32 = b.signExtend 32 := by
      rw [BitVec.sub_eq_iff_eq_add] at same
      exact same.trans (BitVec.zero_add _)
    have values := congrArg BitVec.toInt equal
    rw [BitVec.toInt_signExtend_of_le (by decide), BitVec.toInt_signExtend_of_le (by decide)] at values
    exact BitVec.toInt_inj.mp values
  · rintro rfl
    exact BitVec.sub_self _

theorem rtStringCmpFrom_zero : (rtStringCmpFrom m src cmp left i).val = 0 ↔
    ∀ k, i ≤ k → k < i + left → m (src + BitVec.ofNat 64 k) = m (cmp + BitVec.ofNat 64 k) := by
  induction left generalizing i with
  | zero =>
      rw [rtStringCmpFrom, Traced.val_pure]
      exact iff_of_true rfl fun k low high => absurd high (by omega)
  | succ left ih =>
      simp only [rtStringCmpFrom, Traced.val_bind, fetchByte_val, Traced.val_ite, Traced.val_pure]
      by_cases differ : m (src + BitVec.ofNat 64 i) ≠ m (cmp + BitVec.ofNat 64 i)
      · rw [if_pos differ, difference_zero]
        exact iff_of_false differ fun all => differ (all i le_rfl (by omega))
      · rw [if_neg differ, ih]
        constructor
        · intro later k low high
          rcases Nat.eq_or_lt_of_le low with rfl | above
          · exact not_not.mp differ
          · exact later k above (by omega)
        · exact fun all k low high => all k (by omega) (by omega)

theorem rtStringCmpFrom_only (inSource : ∀ k < i + left, P (.read (src + BitVec.ofNat 64 k) 1))
    (inCmp : ∀ k < i + left, P (.read (cmp + BitVec.ofNat 64 k) 1)) :
    Traced.Only P (rtStringCmpFrom m src cmp left i) := by
  induction left generalizing i with
  | zero => exact Traced.only_pure
  | succ left ih =>
      simp only [rtStringCmpFrom, Traced.only_bind, only_fetchByte, Traced.only_ite, Traced.only_pure, implies_true,
        true_and]
      exact ⟨inSource i (by omega), inCmp i (by omega), fun _ =>
        ih (fun k below => inSource k (by omega)) fun k below => inCmp k (by omega)⟩

theorem tryAt_only (fits : i + pat.length ≤ hay.length) :
    Traced.Only (InEither haystack needle hay pat) (tryAt m haystack needle pat.length i) := by
  rw [tryAt, Traced.only_bind]
  refine ⟨rtStringCmpFrom_only (fun k below => .inl ?_) (fun k below => .inr ?_), Traced.only_pure⟩
  · rw [readsIn_read, BitVec.add_assoc, ← BitVec.ofNat_add]
    exact covers_offset (by omega)
  · rw [readsIn_read]
    exact covers_offset (by omega)

section Strings
variable (inHay : Text m haystack hay) (inNeedle : Text m needle pat)
include inHay inNeedle

theorem rtStringCmp_occurs (fits : i + pat.length ≤ hay.length) :
    (rtStringCmp m (haystack + BitVec.ofNat 64 i) needle pat.length).val = 0 ↔ Occurs hay pat i := by
  have character {k : Nat} (below : k < pat.length) :
      m (haystack + BitVec.ofNat 64 i + BitVec.ofNat 64 k) = m (needle + BitVec.ofNat 64 k) ↔
        hay[i + k]? = pat[k]? := by
    rw [BitVec.add_assoc, ← BitVec.ofNat_add, inHay.at (by omega), inNeedle.at below,
      List.getElem?_eq_getElem (by omega), List.getElem?_eq_getElem below, Option.some.injEq]
  rw [rtStringCmp, rtStringCmpFrom_zero, occurs_iff, and_iff_right fits]
  constructor
  · intro all k below
    exact (character below).mp (all k (Nat.zero_le k) (by omega))
  · intro same k _ below
    exact (character (by omega)).mpr (same k (by omega))

theorem tryAt_val (fits : i + pat.length ≤ hay.length) {r : UIntPtr} :
    ((tryAt m haystack needle pat.length i).val = some r ↔ Occurs hay pat i ∧ r = haystack + BitVec.ofNat 64 i) ∧
    ((tryAt m haystack needle pat.length i).val = none ↔ ¬ Occurs hay pat i) := by
  have compares := rtStringCmp_occurs inHay inNeedle fits
  rw [tryAt, Traced.val_bind, Traced.val_pure]
  split
  · next equal => simp [compares.mp equal, eq_comm]
  · next differ => simp [mt compares.mpr differ]

theorem rtStringInString_val : (rtStringInString m haystack needle).val =
    if pat.length > hay.length then 0
    else ((Traced.search (tryAt m haystack needle pat.length) (hay.length - pat.length + 1) 0).val).getD 0 := by
  rw [rtStringInString, if_neg (not_or.mpr ⟨inHay.nonnull, inNeedle.nonnull⟩)]
  simp only [rtStringLen, Traced.val_bind, Traced.val_emit, Traced.val_ite, Traced.val_pure, inHay.strLen_eq,
    inNeedle.strLen_eq]

end Strings

end Search

/-- The search finds the first occurrence, and looks at nothing but the two strings. -/
theorem rtStringInString_finds (m : Memory) (haystack needle : UIntPtr) (hay pat : List Byte)
    (inHay : Text m haystack hay) (inNeedle : Text m needle pat) :
    Finds hay pat haystack (rtStringInString m haystack needle).val ∧
      Traced.Only (InEither haystack needle hay pat) (rtStringInString m haystack needle) := by
  have bounds {i : Nat} (occurs : Occurs hay pat i) : i + pat.length ≤ hay.length := (occurs_iff.mp occurs).1
  constructor
  · rw [rtStringInString_val inHay inNeedle]
    by_cases long : pat.length > hay.length
    · have never : ∀ i, ¬ Occurs hay pat i := fun i occurs => absurd (bounds occurs) (by omega)
      rw [if_pos long]
      exact ⟨fun i occurs => absurd occurs (never i), iff_of_true rfl never⟩
    rw [if_neg long]
    cases hit : (Traced.search (tryAt m haystack needle pat.length) (hay.length - pat.length + 1) 0).val with
    | none =>
        have never : ∀ i, ¬ Occurs hay pat i := by
          intro i occurs
          have miss := Traced.search_none.mp hit i (Nat.zero_le i) (by have := bounds occurs; omega)
          exact (tryAt_val inHay inNeedle (bounds occurs) (r := 0)).2.mp miss occurs
        exact ⟨fun i occurs => absurd occurs (never i), iff_of_true rfl never⟩
    | some r =>
        obtain ⟨k, -, below, found, misses⟩ := Traced.search_some.mp hit
        obtain ⟨occurs, rfl⟩ := (tryAt_val inHay inNeedle (by omega)).1.mp found
        have fits := inHay.fits
        refine ⟨fun i first least => ?_, iff_of_false (fun null => ?_) fun never => never k occurs⟩
        · rcases Nat.lt_trichotomy i k with less | rfl | greater
          · have miss := misses i (Nat.zero_le i) less
            exact absurd first ((tryAt_val inHay inNeedle (bounds first) (r := 0)).2.mp miss)
          · rfl
          · exact absurd occurs (least k greater)
        · have start : 0 < haystack.toNat := Nat.pos_of_ne_zero fun zero => inHay.nonnull (BitVec.eq_of_toNat_eq zero)
          have address := congrArg BitVec.toNat null
          rw [Option.getD_some, BitVec.toNat_add, BitVec.toNat_ofNat, Nat.mod_eq_of_lt (by omega : k < 2 ^ 64),
            Nat.mod_eq_of_lt (by omega)] at address
          have zero : (0 : UIntPtr).toNat = 0 := rfl
          omega
  · rw [rtStringInString]
    simp only [Traced.only_ite, Traced.only_bind, Traced.only_pure, rtStringLen, Traced.only_emit, Traced.val_emit,
      inHay.strLen_eq, inNeedle.strLen_eq, and_true, implies_true, true_and]
    refine fun _ => ⟨.inr fun _ inside => inside, .inl fun _ inside => inside, fun short => ?_⟩
    exact Traced.only_search.mpr fun k _ below _ => tryAt_only (by omega)

/-- `"aab"` holds `"ab"` behind a part that begins as it does. -/
theorem rtStringInString_finds_behind :
    Finds [0x61, 0x61, 0x62] [0x61, 0x62] 0x1000
      (rtStringInString (write (fun _ => 0) 0x1000 [0x61, 0x61, 0x62, 0, 0x61, 0x62]) 0x1000 0x1004).val :=
  (rtStringInString_finds (write (fun _ => 0) 0x1000 [0x61, 0x61, 0x62, 0, 0x61, 0x62]) 0x1000 0x1004 [0x61, 0x61, 0x62]
    [0x61, 0x62] ⟨by decide, by decide, by decide, by decide +kernel⟩
    ⟨by decide, by decide, by decide, by decide +kernel⟩).1

end Ne.Kernel
