import NeKernel.Lib.Packed

/-!
# Computations with a log of their accesses

A computation carries what it read, what it wrote and whether its arithmetic on machine words left
their range. A safety property is one predicate that every entry of the log meets.
-/

namespace ByteMem

structure Traced (E : Type) (α : Type) where
  result : α
  log : List E

namespace Traced
variable {E : Type} {α β : Type}

-- No projection, and no equations that hold by definition: the kernel would run a computation
-- before it compares it.
def val (x : Traced E α) : α := x.result

instance : Monad (Traced E) where
  pure a := ⟨a, []⟩
  bind x f := ⟨(f x.val).val, x.log ++ (f x.val).log⟩

def emit (e : E) (a : α) : Traced E α := ⟨a, [e]⟩

def Only (P : E → Prop) (x : Traced E α) : Prop := ∀ e ∈ x.log, P e

variable {P Q : E → Prop} {x : Traced E α} {f : α → Traced E β} {a : α} {e : E}

@[simp] theorem val_pure : (pure a : Traced E α).val = a := by
  rw [val]
  rfl

@[simp] theorem val_bind : (x >>= f).val = (f x.val).val := by
  rw [val]
  rfl

@[simp] theorem val_emit : (emit e a).val = a := by rw [emit, val]

@[simp] theorem only_pure : Only P (pure a : Traced E α) := fun _ member => nomatch member

@[simp] theorem only_emit : Only P (emit e a) ↔ P e := by
  simp [Only, emit]

@[simp] theorem only_bind : Only P (x >>= f) ↔ Only P x ∧ Only P (f x.val) := by
  show (∀ e ∈ x.log ++ (f x.val).log, P e) ↔ _
  simp only [List.mem_append, or_imp, forall_and]
  rfl

@[simp] theorem val_ite {c : Prop} [Decidable c] {y : Traced E α} :
    (if c then x else y).val = if c then x.val else y.val := by
  split <;> rfl

theorem val_guard {c : Prop} [Decidable c] {y : Traced E Bool} :
    (if c then pure false else y).val = true ↔ ¬ c ∧ y.val = true := by
  split <;> simp_all

theorem val_guard_some {c : Prop} [Decidable c] {y : Traced E (Option α)} :
    (if c then pure none else y).val = some a ↔ ¬ c ∧ y.val = some a := by
  split <;> simp_all

@[simp] theorem only_ite {c : Prop} [Decidable c] {y : Traced E α} :
    Only P (if c then x else y) ↔ (c → Only P x) ∧ (¬ c → Only P y) := by
  split <;> simp_all

theorem Only.mono (only : Only P x) (weaker : ∀ e, P e → Q e) : Only Q x :=
  fun e member => weaker e (only e member)

theorem only_and : Only (fun e => P e ∧ Q e) x ↔ Only P x ∧ Only Q x :=
  ⟨fun both => ⟨fun e member => (both e member).1, fun e member => (both e member).2⟩,
    fun ⟨left, right⟩ e member => ⟨left e member, right e member⟩⟩

/-- The first hit among `left` tries from the `i`th on. -/
def search (body : ℕ → Traced E (Option α)) : ℕ → ℕ → Traced E (Option α)
  | 0, _ => pure none
  | left + 1, i => do
      let hit ← body i
      match hit with
      | some a => pure (some a)
      | none => search body left (i + 1)

section Search
variable {body : ℕ → Traced E (Option α)} {left i : ℕ}

theorem only_search : Only P (search body left i) ↔
    ∀ k, i ≤ k → k < i + left → (∀ j, i ≤ j → j < k → (body j).val = none) → Only P (body k) := by
  induction left generalizing i with
  | zero => simpa [search] using fun k low high => absurd high (by omega)
  | succ left ih =>
      rw [search, only_bind]
      cases hit : (body i).val with
      | some a =>
          constructor
          · rintro ⟨first, -⟩ k low high misses
            rcases Nat.eq_or_lt_of_le low with rfl | above
            · exact first
            · have miss := misses i le_rfl above
              rw [hit] at miss
              cases miss
          · intro tries
            exact ⟨tries i le_rfl (by omega) fun j low high => absurd low (by omega), only_pure⟩
      | none =>
          rw [ih]
          constructor
          · rintro ⟨first, later⟩ k low high misses
            rcases Nat.eq_or_lt_of_le low with rfl | above
            · exact first
            · exact later k above (by omega) fun j lowJ highJ => misses j (by omega) highJ
          · intro tries
            refine ⟨tries i le_rfl (by omega) fun j low high => absurd low (by omega), ?_⟩
            intro k low high misses
            refine tries k (by omega) (by omega) fun j lowJ highJ => ?_
            rcases Nat.eq_or_lt_of_le lowJ with rfl | above
            · exact hit
            · exact misses j above highJ

theorem search_some : (search body left i).val = some a ↔
    ∃ k, i ≤ k ∧ k < i + left ∧ (body k).val = some a ∧ ∀ j, i ≤ j → j < k → (body j).val = none := by
  induction left generalizing i with
  | zero =>
      constructor
      · intro found
        cases found
      · rintro ⟨k, low, high, -⟩
        omega
  | succ left ih =>
      rw [search, val_bind]
      cases hit : (body i).val with
      | some b =>
          constructor
          · intro same
            exact ⟨i, le_rfl, by omega, hit.trans same, fun j low high => absurd low (by omega)⟩
          · rintro ⟨k, low, -, found, misses⟩
            rcases Nat.eq_or_lt_of_le low with rfl | above
            · exact hit.symm.trans found
            · rw [misses i le_rfl above] at hit
              cases hit
      | none =>
          rw [ih]
          constructor
          · rintro ⟨k, low, high, found, misses⟩
            refine ⟨k, by omega, by omega, found, fun j lowJ highJ => ?_⟩
            rcases Nat.eq_or_lt_of_le lowJ with rfl | above
            · exact hit
            · exact misses j above highJ
          · rintro ⟨k, low, high, found, misses⟩
            rcases Nat.eq_or_lt_of_le low with rfl | above
            · rw [hit] at found
              cases found
            · exact ⟨k, above, by omega, found, fun j lowJ highJ => misses j (by omega) highJ⟩

theorem search_none : (search body left i).val = none ↔ ∀ k, i ≤ k → k < i + left → (body k).val = none := by
  induction left generalizing i with
  | zero => exact iff_of_true rfl fun k low high => absurd high (by omega)
  | succ left ih =>
      rw [search, val_bind]
      cases hit : (body i).val with
      | some a =>
          refine iff_of_false (by simp) fun all => ?_
          have miss := all i le_rfl (by omega)
          rw [hit] at miss
          cases miss
      | none =>
          rw [ih]
          constructor
          · intro later k low high
            rcases Nat.eq_or_lt_of_le low with rfl | above
            · exact hit
            · exact later k above (by omega)
          · exact fun all k low high => all k (by omega) (by omega)

end Search

end Traced

/-! ## Memory accesses -/

inductive Access where
  | read (a : BitVec 64) (n : Nat)
  | write (a : BitVec 64) (n : Nat)
  | wrapped
  deriving DecidableEq

/-- Every byte of `[a, a + n)` lies in `[base, base + len)`. -/
def Covers (base : BitVec 64) (len : Nat) (a : BitVec 64) (n : Nat) : Prop :=
  ∀ x, Within a n x → Within base len x

section Covers
variable {base a : BitVec 64} {len n off : Nat}

theorem covers_offset (bound : off + n ≤ len) : Covers base len (base + BitVec.ofNat 64 off) n :=
  fun _ inside => inside.of_offset off bound

theorem covers_byte {v : BitVec 64} {i : Nat} (bound : v.toNat + i < len) :
    Covers base len (base + v + BitVec.ofNat 64 i) 1 := by
  have sum : base + v + BitVec.ofNat 64 i = base + BitVec.ofNat 64 (v.toNat + i) := by
    rw [BitVec.ofNat_add, BitVec.ofNat_toNat, BitVec.setWidth_eq, BitVec.add_assoc]
  rw [sum]
  exact covers_offset (by omega)

theorem covers_zero : Covers base len a 0 := fun _ inside => absurd inside (Nat.not_lt_zero _)

/-- The bytes of a range that is not empty lie in a region exactly when its end does. -/
theorem covers_iff (small : len < 2 ^ 64) (positive : 0 < n) :
    Covers base len a n ↔ (a - base).toNat + n ≤ len := by
  constructor
  · intro covers
    by_contra beyond
    have start : (a - base).toNat < len := covers a (within_self positive)
    have inside : Within a n (a + BitVec.ofNat 64 (len - (a - base).toNat)) :=
      within_add _ (by omega) (by omega)
    have last : (a + BitVec.ofNat 64 (len - (a - base).toNat) - base).toNat < len := covers _ inside
    have shifted : a + BitVec.ofNat 64 (len - (a - base).toNat) - base =
        (a - base) + BitVec.ofNat 64 (len - (a - base).toNat) := by
      rw [BitVec.sub_eq_add_neg, BitVec.sub_eq_add_neg, BitVec.add_assoc, BitVec.add_assoc]
      congr 1
      exact BitVec.add_comm _ _
    rw [shifted, BitVec.toNat_add, BitVec.toNat_ofNat, Nat.mod_eq_of_lt (a := len - _) (by omega),
      Nat.mod_eq_of_lt (by omega)] at last
    omega
  · intro bound x inside
    have back : base + BitVec.ofNat 64 (a - base).toNat = a := by
      rw [BitVec.ofNat_toNat, BitVec.setWidth_eq, BitVec.add_comm, BitVec.sub_add_cancel]
    rw [← back] at inside
    exact inside.of_offset _ bound

theorem covers_offset_iff (small : len < 2 ^ 64) (positive : 0 < n) (range : off < 2 ^ 64) :
    Covers base len (base + BitVec.ofNat 64 off) n ↔ off + n ≤ len := by
  have distance : (base + BitVec.ofNat 64 off - base).toNat = off := by
    rw [BitVec.add_comm, BitVec.add_sub_cancel, BitVec.toNat_ofNat, Nat.mod_eq_of_lt range]
  rw [covers_iff small positive, distance]

theorem covers_word_iff {v : BitVec 64} (small : len < 2 ^ 64) (positive : 0 < n) (range : v.toNat + off < 2 ^ 64) :
    Covers base len (base + v + BitVec.ofNat 64 off) n ↔ v.toNat + off + n ≤ len := by
  have sum : base + v + BitVec.ofNat 64 off = base + BitVec.ofNat 64 (v.toNat + off) := by
    rw [BitVec.ofNat_add, BitVec.ofNat_toNat, BitVec.setWidth_eq, BitVec.add_assoc]
  rw [sum, covers_offset_iff small positive range]

end Covers

namespace Access

/-- Reads stay in `[base, base + len)`. -/
def ReadsIn (base : BitVec 64) (len : Nat) : Access → Prop
  | .read a n => Covers base len a n
  | _ => True

def WritesIn (base : BitVec 64) (len : Nat) : Access → Prop
  | .write a n => Covers base len a n
  | _ => True

def Exact : Access → Prop
  | .wrapped => False
  | _ => True

section
variable {base a : BitVec 64} {len n : Nat}

@[simp] theorem readsIn_read : ReadsIn base len (.read a n) ↔ Covers base len a n := Iff.rfl
@[simp] theorem readsIn_write : ReadsIn base len (.write a n) := trivial
@[simp] theorem readsIn_wrapped : ReadsIn base len .wrapped := trivial
@[simp] theorem writesIn_write : WritesIn base len (.write a n) ↔ Covers base len a n := Iff.rfl
@[simp] theorem writesIn_read : WritesIn base len (.read a n) := trivial
@[simp] theorem writesIn_wrapped : WritesIn base len .wrapped := trivial
@[simp] theorem exact_read : Exact (.read a n) := trivial
@[simp] theorem exact_write : Exact (.write a n) := trivial
@[simp] theorem not_exact_wrapped : ¬ Exact .wrapped := id

end
end Access

/-- `n` bytes read into a cleared buffer. -/
def fetch (m : Mem 64) (a : BitVec 64) (n : Nat) : Traced Access Image :=
  .emit (.read a n) (window m a n)

def fetchByte (m : Mem 64) (a : BitVec 64) : Traced Access Byte := .emit (.read a 1) (m a)

/-- The member of the structure that lies at `a`. -/
def Field.fetch (f : Field) (m : Mem 64) (a : BitVec 64) : Traced Access (BitVec 64) :=
  .emit (.read (a + BitVec.ofNat 64 f.off) f.size) (f.on m a)

/-- Arithmetic on words, which the log says when it wraps. -/
def checked {w : Nat} (wraps : Prop) [Decidable wraps] (v : BitVec w) : Traced Access (BitVec w) :=
  ⟨v, if wraps then [.wrapped] else []⟩

def addWord {w : Nat} (a b : BitVec w) : Traced Access (BitVec w) :=
  checked (2 ^ w ≤ a.toNat + b.toNat) (a + b)

def subWord {w : Nat} (a b : BitVec w) : Traced Access (BitVec w) :=
  checked (a.toNat < b.toNat) (a - b)

def mulWord {w : Nat} (a b : BitVec w) : Traced Access (BitVec w) :=
  checked (2 ^ w ≤ a.toNat * b.toNat) (a * b)

section Words
variable {w : Nat} {P : Access → Prop} {m : Mem 64} {a : BitVec 64} {n : Nat} {f : Field}
  {x y : BitVec w} {wraps : Prop} [Decidable wraps]

@[simp] theorem fetch_val : (fetch m a n).val = window m a n := Traced.val_emit
@[simp] theorem fetchByte_val : (fetchByte m a).val = m a := Traced.val_emit
@[simp] theorem Field.fetch_val : (f.fetch m a).val = f.on m a := Traced.val_emit
@[simp] theorem checked_val : (checked wraps x).val = x := by rw [checked, Traced.val]
@[simp] theorem addWord_val : (addWord x y).val = x + y := checked_val
@[simp] theorem subWord_val : (subWord x y).val = x - y := checked_val
@[simp] theorem mulWord_val : (mulWord x y).val = x * y := checked_val

@[simp] theorem only_fetch : Traced.Only P (fetch m a n) ↔ P (.read a n) := Traced.only_emit

@[simp] theorem only_fetchByte : Traced.Only P (fetchByte m a) ↔ P (.read a 1) := Traced.only_emit

@[simp] theorem Field.only_fetch : Traced.Only P (f.fetch m a) ↔
    P (.read (a + BitVec.ofNat 64 f.off) f.size) := Traced.only_emit

@[simp] theorem only_checked : Traced.Only P (checked wraps x) ↔ (wraps → P .wrapped) := by
  unfold checked Traced.Only
  by_cases wrap : wraps <;> simp [wrap]

@[simp] theorem only_addWord : Traced.Only P (addWord x y) ↔
    (2 ^ w ≤ x.toNat + y.toNat → P .wrapped) := only_checked

@[simp] theorem only_subWord : Traced.Only P (subWord x y) ↔ (x.toNat < y.toNat → P .wrapped) :=
  only_checked

@[simp] theorem only_mulWord : Traced.Only P (mulWord x y) ↔
    (2 ^ w ≤ x.toNat * y.toNat → P .wrapped) := only_checked

end Words

end ByteMem
