import NeKernel.FS.FileStream
import NeKernel.Lib.Separators
import NeKernel.Lib.TextBuffers

/-!
# Splitting a path in memory

`hefs_split_path` on the bytes it works on: the scan for the last separator, and the two copies into the
arrays of a node. It computes what `hefsSplitPath` says of the characters.
-/

namespace Ne.Kernel.FS
open ByteMem Separators
open Access (WritesIn writesIn_write writesIn_read)

/-- The scan for the last separator, with `left` characters left from the `i`th on. -/
def lastSeparator (m : Memory) (path : UIntPtr) : Nat → Nat → Nat → Traced Access Nat
  | 0, _, cut => pure cut
  | left + 1, i, cut => do
      let c ← fetchByte m (path + BitVec.ofNat 64 i)
      lastSeparator m path left (i + 1) (if c = kOpenHeFSSeparator then i else cut)

/-- Characters copied into a buffer, and a terminator behind them. -/
def copyText (src dst : UIntPtr) (len : Nat) (m : Memory) : Traced Access Memory := do
  let m ← copyWords 1 len dst src m
  storeByte (dst + BitVec.ofNat 64 len) 0 m

/-- `hefs_split_path`. The separator found lies among the `len` characters, so no difference wraps. -/
def hefsSplitPathInto (path dir name : UIntPtr) (m : Memory) : Traced Access (Bool × Memory) :=
  if path = 0 then pure (false, m)
  else do
    let first ← fetchByte m path
    if first ≠ kOpenHeFSSeparator then pure (false, m)
    else do
      let len ← strLenUpTo m path kOpenHeFSFileNameLen
      if len < 2 ∨ len ≥ kOpenHeFSFileNameLen then pure (false, m)
      else do
        let cut ← lastSeparator m path len 0 0
        let nameLen := len - cut - 1
        if nameLen < 1 ∨ nameLen ≥ kOpenHeFSFileNameLen then pure (false, m)
        else do
          let dirLen := if cut ≠ 0 then cut else 1
          let m ← copyText path dir dirLen m
          let m ← copyText (path + BitVec.ofNat 64 (cut + 1)) name nameLen m
          pure (true, m)

/-- A path that begins with a separator, within the length of a name, whose last part is not empty. -/
def Splittable (path : List Byte) : Prop :=
  path.head? = some kOpenHeFSSeparator ∧ (2 ≤ path.length ∧ path.length < kOpenHeFSFileNameLen) ∧
    ∃ front base, path = front ++ kOpenHeFSSeparator :: base ∧ kOpenHeFSSeparator ∉ base ∧ base ≠ []

/-- The halves of a path, put together again. Without a second separator the directory is the root. -/
def Joins (path dir name : List Byte) : Prop :=
  if path.count kOpenHeFSSeparator = 1 then dir = [kOpenHeFSSeparator] ∧ path = kOpenHeFSSeparator :: name
  else path = dir ++ kOpenHeFSSeparator :: name

def InHalves (dir name : UIntPtr) (e : ByteMem.Access) : Prop :=
  WritesIn dir kOpenHeFSFileNameLen e ∨ WritesIn name kOpenHeFSFileNameLen e

section Split
variable {m : Memory} {path dir name src dst : UIntPtr} {text front base : List Byte} {left i cut len : Nat}
  {P : Access → Prop}

theorem lastSeparator_none (here : Text m path text) (none : kOpenHeFSSeparator ∉ text.drop i)
    (all : i + left = text.length) : (lastSeparator m path left i cut).val = cut := by
  induction left generalizing i with
  | zero => exact Traced.val_pure
  | succ left ih =>
      have inside : i < text.length := by omega
      rw [List.drop_eq_getElem_cons inside, List.mem_cons, not_or] at none
      rw [lastSeparator, Traced.val_bind, fetchByte_val, here.at inside, if_neg (Ne.symm none.1)]
      exact ih none.2 (by omega)

theorem lastSeparator_val (here : Text m path (front ++ kOpenHeFSSeparator :: base)) (last : kOpenHeFSSeparator ∉ base)
    (early : i ≤ front.length) (all : i + left = (front ++ kOpenHeFSSeparator :: base).length) :
    (lastSeparator m path left i cut).val = front.length := by
  induction left generalizing i cut with
  | zero =>
      rw [List.length_append, List.length_cons] at all
      omega
  | succ left ih =>
      have inside : i < (front ++ kOpenHeFSSeparator :: base).length := by omega
      rw [lastSeparator, Traced.val_bind, fetchByte_val, here.at inside]
      rcases Nat.lt_or_eq_of_le early with less | rfl
      · exact ih less (by omega)
      · have found : (front ++ kOpenHeFSSeparator :: base)[front.length] = kOpenHeFSSeparator := by simp
        rw [if_pos found]
        refine lastSeparator_none here ?_ (by omega)
        rwa [List.drop_append, List.drop_eq_nil_of_le (by omega), Nat.add_sub_cancel_left, List.nil_append,
          List.drop_one]

theorem copyText_writes {base : UIntPtr} {size : Nat} :
    Traced.Only (WritesIn base size) (copyText src dst len m) ↔ ByteMem.Covers base size dst (len + 1) := by
  rw [copyText, Traced.only_bind, copyWords_writes, only_storeByte, writesIn_write, Nat.mul_one, covers_add]

theorem copyText_val (small : len < 2 ^ 64) (apart : ¬ Ahead src dst len) :
    (copyText src dst len m).val = write m dst (read m src len ++ [0]) := by
  have joined := @write_add 64 m dst (read m src len) [0] (by rw [read_length, List.length_singleton]; omega)
  rw [read_length] at joined
  rw [copyText, Traced.val_bind, copyWords_moves (by omega) (by rwa [Nat.mul_one]), Nat.mul_one, storeByte_val, joined]

theorem not_ahead {n k size : Nat} (apart : Apart src n dst size) (le : k ≤ n) (positive : 0 < size) :
    ¬ Ahead src dst k :=
  fun ahead => apart dst (ahead.2.mono le) (within_self positive)

/-- The directory of a path whose last separator is behind `cut` characters. -/
def dirOf (path : List Byte) (cut : Nat) : List Byte := path.take (if cut ≠ 0 then cut else 1)

theorem hefsSplitPath_eq (head : text.head? = some kOpenHeFSSeparator)
    (long : 2 ≤ text.length ∧ text.length < kOpenHeFSFileNameLen) (split : text = front ++ kOpenHeFSSeparator :: base)
    (last : kOpenHeFSSeparator ∉ base) :
    hefsSplitPath text = if base = [] then none else some (dirOf text front.length, base) := by
  have lengths : text.length - base.length - 1 = front.length := by
    rw [split, List.length_append, List.length_cons]
    omega
  unfold hefsSplitPath
  rw [if_neg (not_not.mpr head), if_neg (by omega)]
  have name : (text.reverse.takeWhile (· ≠ kOpenHeFSSeparator)).reverse = base := by rw [split, takeWhile_last last]
  rw [name]
  dsimp only
  rw [lengths, dirOf]
  by_cases empty : base = []
  · rw [if_pos empty, if_pos (by rw [empty]; decide)]
  · have positive := List.length_pos_iff.mpr empty
    rw [if_neg empty, if_neg (by omega)]
    by_cases root : front.length = 0
    · rw [if_pos root, if_neg (not_not.mpr root)]
    · rw [if_neg root, if_pos root]

theorem separator_mem (head : text.head? = some kOpenHeFSSeparator) : kOpenHeFSSeparator ∈ text :=
  List.mem_of_mem_head? head

theorem hefsSplitPath_isSome : (hefsSplitPath text).isSome ↔ Splittable text := by
  by_cases head : text.head? = some kOpenHeFSSeparator
  · by_cases long : 2 ≤ text.length ∧ text.length < kOpenHeFSFileNameLen
    · obtain ⟨front, base, split, last⟩ := exists_last (separator_mem head)
      rw [hefsSplitPath_eq head long split last]
      by_cases empty : base = []
      · rw [if_pos empty]
        refine iff_of_false (by simp) ?_
        rintro ⟨-, -, front', base', split', last', named⟩
        rw [split] at split'
        have names := congrArg (fun path => (path.reverse.takeWhile (· ≠ kOpenHeFSSeparator)).reverse) split'
        rw [takeWhile_last last, takeWhile_last last'] at names
        exact named (names ▸ empty)
      · rw [if_neg empty]
        exact iff_of_true rfl ⟨head, long, front, base, split, last, empty⟩
    · refine iff_of_false ?_ fun accepted => long accepted.2.1
      unfold hefsSplitPath
      rw [if_neg (not_not.mpr head), if_pos (by omega)]
      exact Bool.false_ne_true
  · refine iff_of_false ?_ fun accepted => head accepted.1
    unfold hefsSplitPath
    rw [if_pos head]
    exact Bool.false_ne_true

theorem lastSeparator_lt (start : cut < i + left) : (lastSeparator m path left i cut).val < i + left := by
  induction left generalizing i cut with
  | zero => rwa [lastSeparator, Traced.val_pure]
  | succ left ih =>
      rw [lastSeparator, Traced.val_bind, fetchByte_val, ← Nat.add_assoc, Nat.add_right_comm]
      refine ih ?_
      split <;> omega

theorem lastSeparator_only (reads : ∀ a, P (.read a 1)) : Traced.Only P (lastSeparator m path left i cut) := by
  induction left generalizing i cut with
  | zero => exact Traced.only_pure
  | succ left ih =>
      rw [lastSeparator, Traced.only_bind, only_fetchByte]
      exact ⟨reads _, ih⟩

/-- Whatever the path is, the copies stay in the arrays. -/
theorem hefsSplitPathInto_writes : Traced.Only (InHalves dir name) (hefsSplitPathInto path dir name m) := by
  have whole {a : UIntPtr} {n : Nat} (le : n ≤ kOpenHeFSFileNameLen) : ByteMem.Covers a kOpenHeFSFileNameLen a n :=
    fun _ inside => inside.mono le
  have bound : strLenFrom m kOpenHeFSFileNameLen path ≤ kOpenHeFSFileNameLen := strLenFrom_bound
  unfold hefsSplitPathInto
  simp only [Traced.only_ite, Traced.only_bind, Traced.only_pure, only_fetchByte, only_strLenUpTo, strLenUpTo_val,
    implies_true, true_and, and_true]
  refine fun _ => ⟨.inl writesIn_read, fun _ => ⟨.inl writesIn_read, fun long =>
    ⟨lastSeparator_only fun _ => .inl writesIn_read, fun _ => ?_⟩⟩⟩
  have early : (lastSeparator m path (strLenFrom m kOpenHeFSFileNameLen path) 0 0).val <
      0 + strLenFrom m kOpenHeFSFileNameLen path := lastSeparator_lt (by omega)
  refine ⟨(copyText_writes.mpr (whole ?_)).mono fun _ => .inl, (copyText_writes.mpr (whole ?_)).mono fun _ => .inr⟩
  · split <;> omega
  · omega

section Buffers
variable (here : Text m path text) (dirApart : Apart path (text.length + 1) dir kOpenHeFSFileNameLen)
  (nameApart : Apart path (text.length + 1) name kOpenHeFSFileNameLen)
include here

theorem head_iff : m path ≠ kOpenHeFSSeparator ↔ text.head? ≠ some kOpenHeFSSeparator := by
  have first := here.character (Nat.zero_le _)
  rw [show path + BitVec.ofNat 64 0 = path from BitVec.add_zero path, ← List.head?_eq_getElem?] at first
  rw [first, not_iff_not]
  cases text.head? with
  | none => exact iff_of_false (by decide) (by simp)
  | some c => simp

include dirApart nameApart

theorem copies_val (split : text = front ++ kOpenHeFSSeparator :: base)
    (long : 2 ≤ text.length ∧ text.length < kOpenHeFSFileNameLen) (n : Nat)
    (dirLen : n = if front.length ≠ 0 then front.length else 1) :
    (copyText (path + BitVec.ofNat 64 (front.length + 1)) name base.length (copyText path dir n m).val).val =
      write (write m dir (dirOf text front.length ++ [0])) name (base ++ [0]) := by
  have fits := here.fits
  have lengths : text.length = front.length + (base.length + 1) := by rw [split, List.length_append, List.length_cons]
  have inside : n ≤ text.length := by
    rw [dirLen]
    split <;> omega
  have dirText : read m path n = dirOf text front.length := by rw [here.read_take inside, dirOf, dirLen]
  have short : (dirOf text front.length ++ [0]).length ≤ kOpenHeFSFileNameLen := by
    rw [List.length_append, ← dirText, read_length, List.length_singleton]
    omega
  rw [copyText_val (by omega) (not_ahead dirApart (by omega) (by decide)), dirText]
  have still : Text (write m dir (dirOf text front.length ++ [0])) path text :=
    here.congr (SameInside.of_outside write_sameOutside (fun _ within => within.mono short) dirApart)
  have apart : ¬ Ahead (path + BitVec.ofNat 64 (front.length + 1)) name base.length :=
    fun ahead => nameApart name (ahead.2.of_offset (front.length + 1) (by omega)) (within_self (by decide))
  have nameText : (text.drop (front.length + 1)).take base.length = base := by
    rw [split, List.drop_append, List.drop_eq_nil_of_le (by omega), Nat.add_sub_cancel_left]
    simp
  rw [copyText_val (by omega) apart, still.read_slice (by omega), nameText]

/-- The function does in memory what `hefsSplitPath` says of the characters. -/
theorem hefsSplitPathInto_val : (hefsSplitPathInto path dir name m).val =
    ((hefsSplitPath text).map fun halves =>
      (true, write (write m dir (halves.1 ++ [0])) name (halves.2 ++ [0]))).getD (false, m) := by
  rw [hefsSplitPathInto, if_neg here.nonnull, Traced.val_bind, fetchByte_val, Traced.val_ite]
  by_cases head : text.head? = some kOpenHeFSSeparator
  · rw [if_neg (by rw [head_iff here]; exact not_not.mpr head), Traced.val_bind, strLenUpTo_val, here.limited,
      Traced.val_ite]
    by_cases long : 2 ≤ text.length ∧ text.length < kOpenHeFSFileNameLen
    · obtain ⟨front, base, split, last⟩ := exists_last (separator_mem head)
      have lengths : text.length = front.length + (base.length + 1) := by
        rw [split, List.length_append, List.length_cons]
      have whole : min text.length kOpenHeFSFileNameLen = text.length := Nat.min_eq_left long.2.le
      have rest : text.length - front.length - 1 = base.length := by omega
      have scan : (lastSeparator m path text.length 0 0).val = front.length :=
        lastSeparator_val (split ▸ here) last (Nat.zero_le _) (by rw [← split, Nat.zero_add])
      rw [whole, if_neg (by omega), Traced.val_bind, scan]
      dsimp only
      rw [rest, Traced.val_ite, hefsSplitPath_eq head long split last]
      by_cases empty : base = []
      · rw [if_pos (by rw [empty]; exact .inl Nat.zero_lt_one), if_pos empty, Traced.val_pure]
        rfl
      · have positive := List.length_pos_iff.mpr empty
        rw [if_neg (by omega), if_neg empty, Traced.val_bind, Traced.val_bind, Traced.val_pure,
          copies_val here dirApart nameApart split long _ rfl]
        rfl
    · rw [if_pos (by omega), Traced.val_pure]
      unfold hefsSplitPath
      rw [if_neg (not_not.mpr head), if_pos (by omega)]
      rfl
  · rw [if_pos ((head_iff here).mpr head), Traced.val_pure]
    unfold hefsSplitPath
    rw [if_pos head]
    rfl

end Buffers

theorem joins_halves (head : text.head? = some kOpenHeFSSeparator) (split : text = front ++ kOpenHeFSSeparator :: base)
    (last : kOpenHeFSSeparator ∉ base) : Joins text (dirOf text front.length) base := by
  have none : base.count kOpenHeFSSeparator = 0 := List.count_eq_zero.mpr last
  have total : text.count kOpenHeFSSeparator = front.count kOpenHeFSSeparator + 1 := by
    rw [split, List.count_append, List.count_cons_self, none]
  unfold Joins dirOf
  cases front with
  | nil =>
      rw [if_pos (by rw [total, List.count_nil]), split]
      exact ⟨rfl, rfl⟩
  | cons c front =>
      have first : c = kOpenHeFSSeparator := by
        rw [split, List.cons_append, List.head?_cons] at head
        exact Option.some.inj head
      have several : text.count kOpenHeFSSeparator ≠ 1 := by
        rw [total, first, List.count_cons_self]
        omega
      rw [if_neg several, if_pos (by rw [List.length_cons]; omega)]
      nth_rewrite 2 [split]
      rw [List.take_append_of_le_length le_rfl, List.take_length, split]

/-- What splitting a path in memory gives, for every path. -/
theorem hefsSplitPathInto_splits (m : Memory) (path dir name : UIntPtr) (text : List Byte) (here : Text m path text)
    (dirApart : Apart path (text.length + 1) dir kOpenHeFSFileNameLen)
    (nameApart : Apart path (text.length + 1) name kOpenHeFSFileNameLen)
    (apart : Apart dir kOpenHeFSFileNameLen name kOpenHeFSFileNameLen) :
    ((hefsSplitPathInto path dir name m).val.1 = true ↔ Splittable text) ∧
    Traced.Only (InHalves dir name) (hefsSplitPathInto path dir name m) ∧
    ((hefsSplitPathInto path dir name m).val.1 = true →
      ∃ d n, HoldsText (hefsSplitPathInto path dir name m).val.2 dir kOpenHeFSFileNameLen d ∧
        HoldsText (hefsSplitPathInto path dir name m).val.2 name kOpenHeFSFileNameLen n ∧
        kOpenHeFSSeparator ∉ n ∧ Joins text d n) := by
  have result := hefsSplitPathInto_val here dirApart nameApart
  refine ⟨?_, hefsSplitPathInto_writes, fun accepted => ?_⟩
  · rw [result, ← hefsSplitPath_isSome]
    cases hefsSplitPath text <;> simp
  · have splittable : Splittable text := by
      rw [← hefsSplitPath_isSome]
      rw [result] at accepted
      cases halves : hefsSplitPath text with
      | none => rw [halves] at accepted; cases accepted
      | some _ => rfl
    obtain ⟨head, long, front, base, split, last, named⟩ := splittable
    rw [result, hefsSplitPath_eq head long split last, if_neg named, Option.map_some, Option.getD_some]
    dsimp only
    have lengths : text.length = front.length + (base.length + 1) := by rw [split, List.length_append, List.length_cons]
    have positive := List.length_pos_iff.mpr named
    have limit : kOpenHeFSFileNameLen = 256 := rfl
    have dirShort : (dirOf text front.length).length < kOpenHeFSFileNameLen := by
      rw [dirOf, List.length_take]
      split <;> omega
    have dirChars : 0 ∉ dirOf text front.length := fun zero => here.characters (List.mem_of_mem_take zero)
    have nameChars : 0 ∉ base := fun zero =>
      here.characters (split ▸ List.mem_append_right front (List.mem_cons_of_mem _ zero))
    refine ⟨_, base, ?_, holdsText_write (by omega) (by omega) nameChars, last, joins_halves head split last⟩
    have inDir := holdsText_write (m := m) (a := dir) dirShort (by omega) dirChars
    refine inDir.congr (by omega) ?_
    refine SameInside.of_outside write_sameOutside (fun _ inside => inside.mono ?_) apart
    rw [List.length_append, List.length_singleton]
    omega

theorem hefsSplitPathInto_splits_root :
    Splittable [0x2F, 0x61] ∧
      ∃ d n, HoldsText (hefsSplitPathInto 0x1000 0x2000 0x3000 (write (fun _ => 0) 0x1000 [0x2F, 0x61])).val.2 0x2000
          kOpenHeFSFileNameLen d ∧
        HoldsText (hefsSplitPathInto 0x1000 0x2000 0x3000 (write (fun _ => 0) 0x1000 [0x2F, 0x61])).val.2 0x3000
          kOpenHeFSFileNameLen n ∧ kOpenHeFSSeparator ∉ n ∧ Joins [0x2F, 0x61] d n := by
  have accepted : Splittable [0x2F, 0x61] := ⟨rfl, by decide, [], [0x61], rfl, by decide, by decide⟩
  obtain ⟨decides, -, halves⟩ := hefsSplitPathInto_splits (write (fun _ => 0) 0x1000 [0x2F, 0x61]) 0x1000 0x2000 0x3000
    [0x2F, 0x61] ⟨by decide, by decide, by decide, by decide +kernel⟩ (.of_le (by decide) (by decide))
    (.of_le (by decide) (by decide)) (.of_le (by decide) (by decide))
  exact ⟨accepted, halves (decides.mpr accepted)⟩

end Split

end Ne.Kernel.FS
