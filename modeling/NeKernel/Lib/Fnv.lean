import Mathlib.Data.List.Induction

/-!
# FNV-1a folds

A symbol is widened to a word, exclusive-ored into the hash, and the hash is multiplied by a prime. The
prime is odd, so the product loses nothing: a hash remembers every difference until a later symbol undoes it.
-/

namespace Fnv

variable {α : Type*} {w : Nat}

def fold (prime : BitVec w) (widen : α → BitVec w) (seed : BitVec w) (xs : List α) : BitVec w :=
  xs.foldl (fun hash x => (hash ^^^ widen x) * prime) seed

section Rules
variable {prime inverse seed a b : BitVec w} {f g : α → BitVec w} {xs ys : List α} {x : α}

@[simp] theorem fold_nil : fold prime f seed [] = seed := rfl

theorem fold_cons : fold prime f seed (x :: xs) = fold prime f ((seed ^^^ f x) * prime) xs := rfl

theorem fold_concat : fold prime f seed (xs ++ [x]) = (fold prime f seed xs ^^^ f x) * prime := by
  simp [fold]

theorem mul_injective (unit : prime * inverse = 1) (same : a * prime = b * prime) : a = b := by
  have undone (c : BitVec w) : c * prime * inverse = c := by
    rw [BitVec.mul_assoc, unit]
    exact BitVec.mul_one c
  rw [← undone a, same, undone]

theorem xor_eq_iff {u v : BitVec w} : a ^^^ u = b ^^^ v ↔ a ^^^ b = u ^^^ v := by
  simp only [BitVec.eq_of_getElem_eq_iff, BitVec.getElem_xor]
  refine forall_congr' fun i => forall_congr' fun inside => ?_
  cases a[i] <;> cases b[i] <;> cases u[i] <;> cases v[i] <;> decide

/-- One more symbol leaves two folds equal when it makes up for what they are apart. -/
theorem fold_concat_eq_iff (unit : prime * inverse = 1) :
    fold prime f seed (xs ++ [x]) = fold prime g seed (xs ++ [x]) ↔
      fold prime f seed xs ^^^ fold prime g seed xs = f x ^^^ g x := by
  rw [fold_concat, fold_concat, ← xor_eq_iff]
  exact ⟨mul_injective unit, fun same => by rw [same]⟩

/-- The last symbol that the two widenings tell apart, if there is one, makes up for what the folds are
apart in front of it. -/
def Cancels (prime : BitVec w) (f g : α → BitVec w) (seed : BitVec w) (xs : List α) : Prop :=
  ∀ front x rest, xs = front ++ x :: rest → f x ≠ g x → (∀ y ∈ rest, f y = g y) →
    fold prime f seed front ^^^ fold prime g seed front = f x ^^^ g x

theorem cancels_nil : Cancels prime f g seed [] := by
  intro front x rest split
  cases front <;> cases split

theorem cancels_same (same : f x = g x) : Cancels prime f g seed (xs ++ [x]) ↔ Cancels prime f g seed xs := by
  constructor
  · intro cancels front y rest split differ after
    refine cancels front y (rest ++ [x]) (by rw [split, List.append_assoc]; rfl) differ fun z member => ?_
    rcases List.mem_append.mp member with inner | last
    · exact after z inner
    · rw [List.mem_singleton.mp last, same]
  · intro cancels front y rest split differ after
    rcases List.eq_nil_or_concat rest with rfl | ⟨middle, last, rfl⟩
    · obtain ⟨-, same'⟩ := List.append_inj' split rfl
      obtain ⟨rfl, -⟩ := List.cons.inj same'
      exact absurd same differ
    · rw [List.concat_eq_append, ← List.cons_append, ← List.append_assoc] at split
      obtain ⟨split, -⟩ := List.append_inj' split rfl
      exact cancels front y middle split differ fun z member => after z (by simp [member])

theorem cancels_differ (differ : f x ≠ g x) : Cancels prime f g seed (xs ++ [x]) ↔
    fold prime f seed xs ^^^ fold prime g seed xs = f x ^^^ g x := by
  constructor
  · intro cancels
    exact cancels xs x [] rfl differ (by simp)
  · intro apart front y rest split differ' after
    rcases List.eq_nil_or_concat rest with rfl | ⟨middle, last, rfl⟩
    · obtain ⟨rfl, same⟩ := List.append_inj' split rfl
      obtain ⟨rfl, -⟩ := List.cons.inj same
      exact apart
    · rw [List.concat_eq_append, ← List.cons_append, ← List.append_assoc] at split
      obtain ⟨-, same⟩ := List.append_inj' split rfl
      obtain ⟨rfl, -⟩ := List.cons.inj same
      exact absurd (after x (by simp)) differ

theorem fold_eq_iff (unit : prime * inverse = 1) :
    fold prime f seed xs = fold prime g seed xs ↔ Cancels prime f g seed xs := by
  induction xs using List.reverseRecOn with
  | nil => exact iff_of_true rfl cancels_nil
  | append_singleton xs x ih =>
      rw [fold_concat_eq_iff unit]
      by_cases same : f x = g x
      · rw [cancels_same same, ← ih, same, BitVec.xor_self, BitVec.xor_eq_zero_iff]
      · rw [cancels_differ same]

theorem fold_single_ne (unit : prime * inverse = 1) (differ : f x ≠ g x) (before : ∀ y ∈ xs, f y = g y)
    (after : ∀ y ∈ ys, f y = g y) : fold prime f seed (xs ++ x :: ys) ≠ fold prime g seed (xs ++ x :: ys) := by
  intro same
  have made := (fold_eq_iff unit).mp same xs x ys rfl differ after
  have equal : fold prime f seed xs = fold prime g seed xs := by
    refine (fold_eq_iff unit).mpr fun front y rest split differ' _ => ?_
    exact absurd (before y (by simp [split])) differ'
  rw [equal, BitVec.xor_self] at made
  exact differ (BitVec.xor_eq_zero_iff.mp made.symm)

end Rules

end Fnv
