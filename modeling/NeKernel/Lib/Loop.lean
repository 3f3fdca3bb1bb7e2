import Mathlib.Data.Nat.Notation

/-!
# Loops that may not end

A round of a loop either starts the next one or ends the loop with a result. Fuel counts the rounds,
so a loop ends exactly if some fuel gives a result, and more fuel gives the same one.
-/

namespace Loops

inductive Turn (S R : Type*)
  | again (s : S)
  | done (r : R)

def loop {S R : Type*} (body : S → Turn S R) : ℕ → S → Option R
  | 0, _ => none
  | fuel + 1, s => match body s with
      | .again s' => loop body fuel s'
      | .done r => some r

section Rules
variable {S R : Type*} {body : S → Turn S R} {s s' : S} {r : R} {fuel : ℕ}

theorem loop_done (ends : body s = .done r) : loop body (fuel + 1) s = some r := by
  rw [loop, ends]

theorem loop_again (next : body s = .again s') : loop body (fuel + 1) s = loop body fuel s' := by
  rw [loop, next]

theorem loop_stuck (back : body s = .again s) : loop body fuel s = none := by
  induction fuel with
  | zero => rfl
  | succ fuel ih => rw [loop_again back, ih]

theorem loop_invariant {I : S → Prop} {Q : R → Prop}
    (kept : ∀ s s', I s → body s = .again s' → I s')
    (last : ∀ s r, I s → body s = .done r → Q r)
    (start : I s) (ends : loop body fuel s = some r) : Q r := by
  induction fuel generalizing s with
  | zero => cases ends
  | succ fuel ih =>
      cases turn : body s with
      | again s' =>
          rw [loop_again turn] at ends
          exact ih (kept s s' start turn) ends
      | done r' =>
          rw [loop_done turn] at ends
          cases ends
          exact last s r start turn

/-- A computation whose result does not depend on the fuel it is given. -/
def Steady (f : ℕ → Option R) : Prop := ∀ fuel k r, f fuel = some r → f (fuel + k) = some r

theorem steady_const (r : Option R) : Steady fun _ => r := fun _ _ _ same => same

theorem loop_steady (body : S → Turn S R) (s : S) : Steady fun fuel => loop body fuel s := by
  intro fuel k r ends
  induction fuel generalizing s with
  | zero => cases ends
  | succ fuel ih =>
      dsimp only at ends ⊢
      rw [Nat.add_right_comm]
      cases turn : body s with
      | again s' =>
          rw [loop_again turn] at ends ⊢
          exact ih s' ends
      | done r' =>
          rw [loop_done turn] at ends ⊢
          exact ends

/-- Rounds that are known one after the other. -/
theorem loop_along {path : ℕ → S} {n : ℕ} (turns : ∀ j < n, body (path j) = .again (path (j + 1))) :
    loop body (fuel + n) (path 0) = loop body fuel (path n) := by
  induction n generalizing fuel with
  | zero => rfl
  | succ n ih =>
      have split : fuel + (n + 1) = fuel + 1 + n := by omega
      rw [split, ih fun j less => turns j (Nat.lt_succ_of_lt less)]
      exact loop_again (turns n (Nat.lt_succ_self n))

theorem loop_along_iff {path : ℕ → S} {n : ℕ} (turns : ∀ j < n, body (path j) = .again (path (j + 1))) :
    (∃ fuel, loop body fuel (path 0) = some r) ↔ ∃ fuel, loop body fuel (path n) = some r := by
  constructor
  · rintro ⟨fuel, ends⟩
    refine ⟨fuel, ?_⟩
    rw [← loop_along turns]
    exact loop_steady body (path 0) fuel n r ends
  · rintro ⟨fuel, ends⟩
    exact ⟨fuel + n, (loop_along turns).trans ends⟩

theorem Steady.bind {f : ℕ → Option S} {g : ℕ → S → Option R} (first : Steady f)
    (second : ∀ s, Steady fun fuel => g fuel s) : Steady fun fuel => (f fuel).bind (g fuel) := by
  intro fuel k r ends
  obtain ⟨s, left, right⟩ := Option.bind_eq_some_iff.mp ends
  exact Option.bind_eq_some_iff.mpr ⟨s, first _ k s left, second s _ k r right⟩

theorem Steady.map {f : ℕ → Option S} (g : S → R) (first : Steady f) :
    Steady fun fuel => (f fuel).map g := by
  intro fuel k r ends
  obtain ⟨s, left, rfl⟩ := Option.map_eq_some_iff.mp ends
  exact Option.map_eq_some_iff.mpr ⟨s, first _ k s left, rfl⟩

theorem Steady.mono {f : ℕ → Option R} {fuel' : ℕ} (steady : Steady f) (ends : f fuel = some r)
    (more : fuel ≤ fuel') : f fuel' = some r := by
  obtain ⟨k, rfl⟩ := Nat.exists_eq_add_of_le more
  exact steady _ k r ends

theorem Steady.unique {f : ℕ → Option R} {fuel' : ℕ} {r' : R} (steady : Steady f)
    (ends : f fuel = some r) (ends' : f fuel' = some r') : r = r' := by
  have one := steady _ fuel' _ ends
  rw [Nat.add_comm, steady _ fuel _ ends'] at one
  exact (Option.some.inj one).symm

theorem loop_simulation {S' R' : Type*} {body' : S' → Turn S' R'} {t : S'}
    {P : S → S' → Prop} {Q : R → R' → Prop}
    (rounds : ∀ s t, P s t → match body s, body' t with
      | .again s', .again t' => P s' t'
      | .done r, .done r' => Q r r'
      | _, _ => False)
    (start : P s t) (ends : loop body fuel s = some r) :
    ∃ r', loop body' fuel t = some r' ∧ Q r r' := by
  induction fuel generalizing s t with
  | zero => cases ends
  | succ fuel ih =>
      have round := rounds s t start
      cases turn : body s with
      | again s' =>
          cases turn' : body' t with
          | done r' => simp [turn, turn'] at round
          | again t' =>
              rw [turn, turn'] at round
              rw [loop_again turn] at ends
              rw [loop_again turn']
              exact ih round ends
      | done r₁ =>
          cases turn' : body' t with
          | again t' => simp [turn, turn'] at round
          | done r' =>
              rw [turn, turn'] at round
              rw [loop_done turn] at ends
              cases ends
              exact ⟨r', loop_done turn', round⟩

end Rules

end Loops
