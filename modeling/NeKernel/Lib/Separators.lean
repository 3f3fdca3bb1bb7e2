import Mathlib.Data.List.TakeWhile

/-!
# Lists with separators

What lies before the first separator of a list, and what lies behind the last one.
-/

namespace Separators

section Cuts
variable {α : Type*} [DecidableEq α] {sep : α} {text front rest : List α}

theorem ne_of_absent (absent : sep ∉ text) : ∀ c ∈ text, decide (c ≠ sep) = true := by
  intro c member
  exact decide_eq_true fun same => absent (same ▸ member)

theorem takeWhile_eq_self : text.takeWhile (· ≠ sep) = text ↔ sep ∉ text := by
  rw [List.takeWhile_eq_self_iff]
  constructor
  · intro all member
    exact of_decide_eq_true (all sep member) rfl
  · exact ne_of_absent

theorem takeWhile_ended : (front ++ sep :: rest).takeWhile (· ≠ sep) = front.takeWhile (· ≠ sep) := by
  rw [List.takeWhile_append]
  split
  · next whole =>
      rw [List.takeWhile_cons_of_neg (by simp), List.append_nil]
      exact ((List.takeWhile_prefix _).eq_of_length whole).symm
  · rfl

theorem takeWhile_first (absent : sep ∉ front) : (front ++ sep :: rest).takeWhile (· ≠ sep) = front :=
  takeWhile_ended.trans (takeWhile_eq_self.mpr absent)

theorem takeWhile_last (absent : sep ∉ rest) :
    ((front ++ sep :: rest).reverse.takeWhile (· ≠ sep)).reverse = rest := by
  have reversed : sep ∉ rest.reverse := fun member => absent (List.mem_reverse.mp member)
  rw [List.reverse_append, List.reverse_cons, List.append_assoc, List.singleton_append, takeWhile_first reversed,
    List.reverse_reverse]

omit [DecidableEq α] in
theorem exists_last (member : sep ∈ text) : ∃ front rest, text = front ++ sep :: rest ∧ sep ∉ rest := by
  obtain ⟨rest, front, split, absent⟩ := List.eq_append_cons_of_mem (List.mem_reverse.mpr member)
  refine ⟨front.reverse, rest.reverse, ?_, fun member => absent (List.mem_reverse.mp member)⟩
  rw [← List.reverse_reverse text, split, List.reverse_append, List.reverse_cons, List.append_assoc,
    List.singleton_append]

end Cuts

end Separators
