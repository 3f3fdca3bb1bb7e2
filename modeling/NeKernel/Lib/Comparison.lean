import Mathlib.Data.Fin.Basic

/-!
# Comparing position by position

Equality and its negation as two loops, of which one gives up where two entries differ and the other where they
are the same. Neither loop gets through two sequences that are the same in some positions only, and both get
through two empty ones.
-/

namespace Comparison

/-- What the two operators promise of a pair of values. -/
structure LawfulAt {V : Type*} (eq ne : V → V → Bool) (x y : V) : Prop where
  negated : ne x y = !eq x y
  reflexive : eq x x = true
  symmetric : eq x y = eq y x

theorem lawfulAt_comap {V W : Type*} (eq ne : V → V → Bool) (f : W → V) {x y : W} :
    LawfulAt (fun x y => eq (f x) (f y)) (fun x y => ne (f x) (f y)) x y ↔ LawfulAt eq ne (f x) (f y) :=
  ⟨fun lawful => ⟨lawful.negated, lawful.reflexive, lawful.symmetric⟩,
    fun lawful => ⟨lawful.negated, lawful.reflexive, lawful.symmetric⟩⟩

/-- A loop over `n` positions that returns false at the first one where it stops. -/
def scan : (n : ℕ) → (Fin n → Bool) → Bool
  | 0, _ => true
  | n + 1, stops => if stops 0 then false else scan n fun i => stops i.succ

/-- The loop behind a check that answers false at once. -/
def guarded {n : ℕ} (refuses : Prop) [Decidable refuses] (stops : Fin n → Bool) : Bool :=
  if refuses then false else scan n stops

section Loops
variable {α : Type*} [DecidableEq α] {n : ℕ}

def equal (refuses : Prop) [Decidable refuses] (a b : Fin n → α) : Bool := guarded refuses fun i => a i ≠ b i

def unequal (refuses : Prop) [Decidable refuses] (a b : Fin n → α) : Bool := guarded refuses fun i => a i = b i

/-- The sequences have positions, and are the same in all of them or in none. -/
def AllOrNone (a b : Fin n → α) : Prop := 0 < n ∧ ((∀ i, a i = b i) ∨ ∀ i, a i ≠ b i)

theorem scan_iff {stops : Fin n → Bool} : scan n stops = true ↔ ∀ i, stops i = false := by
  induction n with
  | zero => exact iff_of_true rfl fun i => i.elim0
  | succ n ih =>
      rw [scan, Fin.forall_fin_succ]
      cases first : stops 0 with
      | true => exact iff_of_false Bool.false_ne_true fun all => Bool.false_ne_true all.1.symm
      | false => exact ih.trans (and_iff_right rfl).symm

section Guarded
variable {refuses : Prop} [Decidable refuses] {a b : Fin n → α}

theorem guarded_iff {stops : Fin n → Bool} : guarded refuses stops = true ↔ ¬ refuses ∧ ∀ i, stops i = false := by
  unfold guarded
  by_cases refused : refuses
  · rw [if_pos refused]
    exact iff_of_false Bool.false_ne_true fun both => both.1 refused
  · rw [if_neg refused, scan_iff, and_iff_right refused]

theorem equal_iff : equal refuses a b = true ↔ ¬ refuses ∧ ∀ i, a i = b i := by
  rw [equal, guarded_iff]
  exact and_congr_right fun _ => forall_congr' fun i => by simp

theorem unequal_iff : unequal refuses a b = true ↔ ¬ refuses ∧ ∀ i, a i ≠ b i := by
  rw [unequal, guarded_iff]
  exact and_congr_right fun _ => forall_congr' fun i => by simp

omit [DecidableEq α] in
theorem allOrNone_iff : ((∀ i, a i ≠ b i) ↔ ¬ ∀ i, a i = b i) ↔ AllOrNone a b := by
  constructor
  · intro opposite
    refine ⟨Nat.pos_of_ne_zero fun empty => ?_, ?_⟩
    · subst empty
      exact opposite.mp (fun i => i.elim0) fun i => i.elim0
    · by_cases agree : ∀ i, a i = b i
      · exact .inl agree
      · exact .inr (opposite.mpr agree)
  · rintro ⟨positive, agree | apart⟩
    · exact iff_of_false (fun apart => apart ⟨0, positive⟩ (agree ⟨0, positive⟩)) (not_not.mpr agree)
    · exact iff_of_true apart fun agree => apart ⟨0, positive⟩ (agree ⟨0, positive⟩)

/-- Both loops answer a refusal with false, so it breaks the law as entries that are partly the same do. -/
theorem unequal_eq_not_iff : unequal refuses a b = !equal refuses a b ↔ ¬ refuses ∧ AllOrNone a b := by
  rw [Bool.eq_iff_iff, Bool.not_eq_true', ← Bool.not_eq_true, unequal_iff, equal_iff]
  by_cases refused : refuses
  · exact iff_of_false (fun opposite => (opposite.mpr fun both => both.1 refused).1 refused) fun both => both.1 refused
  · rw [and_iff_right refused, and_iff_right refused, and_iff_right refused, allOrNone_iff]

end Guarded

end Loops

end Comparison
