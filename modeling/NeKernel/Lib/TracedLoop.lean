import NeKernel.Lib.Loop
import NeKernel.Lib.Traced

/-!
# Loops that log their accesses

The log of a loop that may not end is the log of the rounds that the fuel allows, so a safety property
of the loop is one of every fuel.
-/

namespace ByteMem.Traced
open Loops

/-- The loop whose rounds log their accesses. Without fuel left it has no result. -/
def loop {E S R : Type} (body : S → Traced E (Turn S R)) : ℕ → S → Traced E (Option R)
  | 0, _ => pure none
  | fuel + 1, s => do
      let turn ← body s
      match turn with
      | .again s' => loop body fuel s'
      | .done r => pure (some r)

section Rules
variable {E S R : Type} {P : E → Prop} {body : S → Traced E (Turn S R)} {s s' : S} {r : R} {fuel n : ℕ}

theorem loop_val : (loop body fuel s).val = Loops.loop (fun s => (body s).val) fuel s := by
  induction fuel generalizing s with
  | zero => exact val_pure
  | succ fuel ih =>
      rw [loop, val_bind, Loops.loop]
      cases (body s).val with
      | again s' => exact ih
      | done r => exact val_pure

theorem only_loop_zero : Only P (loop body 0 s) := only_pure

theorem only_loop_again (next : (body s).val = .again s') :
    Only P (loop body (fuel + 1) s) ↔ Only P (body s) ∧ Only P (loop body fuel s') := by
  rw [loop, only_bind, next]

theorem only_loop_done (ends : (body s).val = .done r) : Only P (loop body (fuel + 1) s) ↔ Only P (body s) := by
  rw [loop, only_bind, ends]
  exact and_iff_left only_pure

/-- The rounds that are known one after the other, and whatever follows them. -/
theorem only_loop_along {path : ℕ → S} (turns : ∀ j < n, (body (path j)).val = .again (path (j + 1))) :
    Only P (loop body (fuel + n) (path 0)) ↔ (∀ j < n, Only P (body (path j))) ∧ Only P (loop body fuel (path n)) := by
  induction n generalizing fuel with
  | zero => exact (and_iff_right fun j below => absurd below (Nat.not_lt_zero j)).symm
  | succ n ih =>
      have split : fuel + (n + 1) = fuel + 1 + n := by omega
      rw [split, ih fun j less => turns j (Nat.lt_succ_of_lt less), only_loop_again (turns n (Nat.lt_succ_self n)),
        ← and_assoc]
      refine and_congr_left' ⟨fun ⟨early, last⟩ j below => ?_,
        fun all => ⟨fun j less => ?_, all n (Nat.lt_succ_self n)⟩⟩
      · rcases Nat.lt_succ_iff_lt_or_eq.mp below with less | rfl
        · exact early j less
        · exact last
      · exact all j (Nat.lt_succ_of_lt less)

/-- More fuel only makes the log longer. -/
theorem Only.less_fuel (only : Only P (loop body (fuel + n) s)) : Only P (loop body fuel s) := by
  induction fuel generalizing s with
  | zero => exact only_loop_zero
  | succ fuel ih =>
      rw [Nat.add_right_comm] at only
      cases turn : (body s).val with
      | again s' =>
          rw [only_loop_again turn] at only ⊢
          exact ⟨only.1, ih only.2⟩
      | done r =>
          rw [only_loop_done turn] at only ⊢
          exact only

/-- A loop goes on as it does from the next round, in any number of rounds that are run. -/
theorem only_loop_next (next : (body s).val = .again s') :
    (∀ fuel, Only P (loop body fuel s)) ↔ Only P (body s) ∧ ∀ fuel, Only P (loop body fuel s') := by
  constructor
  · intro all
    have rounds (fuel : ℕ) := (only_loop_again next).mp (all (fuel + 1))
    exact ⟨(rounds 0).1, fun fuel => (rounds fuel).2⟩
  · rintro ⟨here, later⟩ fuel
    cases fuel with
    | zero => exact only_loop_zero
    | succ fuel => exact (only_loop_again next).mpr ⟨here, later fuel⟩

theorem only_loop_last (ends : (body s).val = .done r) : (∀ fuel, Only P (loop body fuel s)) ↔ Only P (body s) := by
  constructor
  · exact fun all => (only_loop_done ends).mp (all 1)
  · intro here fuel
    cases fuel with
    | zero => exact only_loop_zero
    | succ fuel => exact (only_loop_done ends).mpr here

theorem loop_val_next (next : (body s).val = .again s') :
    (loop body (fuel + 1) s).val = (loop body fuel s').val := by
  rw [loop_val, loop_val, loop_again next]

theorem loop_val_last (ends : (body s).val = .done r) : (loop body (fuel + 1) s).val = some r := by
  rw [loop_val, loop_done ends]

/-- A loop that comes to its end along known rounds, in any number of rounds that are run. -/
theorem only_loop_ends {path : ℕ → S} (turns : ∀ j < n, (body (path j)).val = .again (path (j + 1)))
    (ends : (body (path n)).val = .done r) :
    (∀ fuel, Only P (loop body fuel (path 0))) ↔ ∀ j ≤ n, Only P (body (path j)) := by
  have whole (fuel : ℕ) : Only P (loop body (fuel + 1 + n) (path 0)) ↔ ∀ j ≤ n, Only P (body (path j)) := by
    rw [only_loop_along turns, only_loop_done ends]
    refine ⟨fun ⟨early, last⟩ j below => ?_, fun all => ⟨fun j less => all j less.le, all n le_rfl⟩⟩
    rcases Nat.eq_or_lt_of_le below with rfl | less
    · exact last
    · exact early j less
  constructor
  · exact fun all => (whole 0).mp (all _)
  · intro all fuel
    have more := (whole fuel).mpr all
    rw [Nat.add_assoc] at more
    exact more.less_fuel

end Rules

end ByteMem.Traced
