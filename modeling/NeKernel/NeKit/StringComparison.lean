import NeKernel.Lib.Comparison
import NeKernel.NeKit.KString

/-!
# Comparing kernel strings

The operators of `KBasicString` compare all `fDataSz` characters of a buffer, whatever was appended so far.
`operator!=` has a loop of its own, which asks every character to differ, and like `operator==` it answers false
when the sizes are not the same.
-/

namespace Ne.Kernel
open ByteMem Comparison

namespace KBasicString

section Operators
variable {CharKind : Type} [DecidableEq CharKind]

/-- `operator==(const KBasicString&)`, where `chars p i` is the character `p[i]` in memory. -/
def operatorEq (chars : UIntPtr → ℕ → CharKind) (s rhs : KBasicString) : Bool :=
  equal (rhs.fDataSz ≠ s.fDataSz) (fun i : Fin s.fDataSz.toNat => chars rhs.fData i) fun i => chars s.fData i

/-- `operator!=(const KBasicString&)`. -/
def operatorNe (chars : UIntPtr → ℕ → CharKind) (s rhs : KBasicString) : Bool :=
  unequal (rhs.fDataSz ≠ s.fDataSz) (fun i : Fin rhs.fDataSz.toNat => chars rhs.fData i) fun i => chars s.fData i

variable {chars : UIntPtr → ℕ → CharKind} {s t : KBasicString}

theorem operatorEq_refl : s.operatorEq chars s = true := equal_iff.mpr ⟨not_not.mpr rfl, fun _ => rfl⟩

theorem operatorEq_symm (same : s.operatorEq chars t = true) : t.operatorEq chars s = true := by
  obtain ⟨sizes, agree⟩ := equal_iff.mp same
  have sizes : t.fDataSz = s.fDataSz := not_not.mp sizes
  exact equal_iff.mpr ⟨not_not.mpr sizes.symm, fun i => (agree ⟨i, sizes ▸ i.isLt⟩).symm⟩

theorem operatorNe_eq_not_iff : s.operatorNe chars t = !s.operatorEq chars t ↔
    t.fDataSz = s.fDataSz ∧ AllOrNone (fun i : Fin s.fDataSz.toNat => chars t.fData i) fun i => chars s.fData i := by
  obtain ⟨p, size, cur⟩ := s
  obtain ⟨q, size', cur'⟩ := t
  by_cases sizes : size' = size
  · subst sizes
    exact unequal_eq_not_iff.trans (and_congr_left' not_not)
  · -- both loops are refused, and answer the same
    rw [operatorNe, operatorEq, unequal, equal, guarded, guarded, if_pos sizes, if_pos sizes]
    exact iff_of_false Bool.false_ne_true fun both => sizes both.1

theorem operators_lawfulAt_iff : LawfulAt (operatorEq chars) (operatorNe chars) s t ↔
    t.fDataSz = s.fDataSz ∧ AllOrNone (fun i : Fin s.fDataSz.toNat => chars t.fData i) fun i => chars s.fData i := by
  rw [← operatorNe_eq_not_iff]
  exact ⟨LawfulAt.negated, fun negated =>
    ⟨negated, operatorEq_refl, Bool.eq_iff_iff.mpr ⟨operatorEq_symm, operatorEq_symm⟩⟩⟩

end Operators

/-! ## Texts -/

section Texts
variable {m : Memory} {s : KBasicString} {rhs : UIntPtr}

def charAt (m : Memory) (p : UIntPtr) (i : ℕ) : Byte := m (p + BitVec.ofNat 64 i)

/-- `operator==(const CharKind*)`. -/
def operatorEqText (m : Memory) (s : KBasicString) (rhs : UIntPtr) : Bool :=
  equal (oeStringLen m rhs ≠ s.fDataSz.toNat) (fun i : Fin (oeStringLen m rhs) => charAt m rhs i) fun i =>
    charAt m s.fData i

/-- `operator!=(const CharKind*)`. -/
def operatorNeText (m : Memory) (s : KBasicString) (rhs : UIntPtr) : Bool :=
  unequal (oeStringLen m rhs ≠ s.fDataSz.toNat) (fun i : Fin (oeStringLen m rhs) => charAt m rhs i) fun i =>
    charAt m s.fData i

theorem operatorNeText_eq_not_iff : s.operatorNeText m rhs = !s.operatorEqText m rhs ↔
    oeStringLen m rhs = s.fDataSz.toNat ∧
      AllOrNone (fun i : Fin (oeStringLen m rhs) => charAt m rhs i) fun i => charAt m s.fData i :=
  unequal_eq_not_iff.trans (and_congr_left' not_not)

end Texts

end KBasicString

end Ne.Kernel
