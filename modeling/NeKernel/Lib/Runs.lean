import Mathlib.Data.List.Induction

/-!
# Runs of a labelled step relation
-/

namespace Runs

variable {L S : Type*}

inductive Run (step : L → S → S → Prop) : S → List L → S → Prop
  | nil (s : S) : Run step s [] s
  | cons {s t u : S} {l : L} {ls : List L} : step l s t → Run step t ls u → Run step s (l :: ls) u

/-- The steps whose guard holds in the state they start from. -/
def Guarded (guard : L → S → Prop) (step : L → S → S → Prop) (l : L) (s t : S) : Prop :=
  guard l s ∧ step l s t

/-- Every step of every start of the run meets the guard. -/
def AllSteps (step : L → S → S → Prop) (guard : L → S → Prop) (s : S) (ls : List L) : Prop :=
  ∀ before l after, ls = before ++ l :: after → ∀ t, Run step s before t → guard l t

section Rules
variable {step : L → S → S → Prop} {guard : L → S → Prop} {s t u : S} {l : L} {ls ks : List L}

theorem Run.append (first : Run step s ls t) (second : Run step t ks u) :
    Run step s (ls ++ ks) u := by
  induction first with
  | nil => exact second
  | cons head _ ih => exact .cons head (ih second)

theorem Run.single (head : step l s t) : Run step s [l] t := .cons head (.nil t)

theorem Run.of_append (run : Run step s (ls ++ ks) u) :
    ∃ t, Run step s ls t ∧ Run step t ks u := by
  induction ls generalizing s with
  | nil => exact ⟨s, .nil s, run⟩
  | cons l ls ih =>
      cases run with
      | cons head tail =>
          obtain ⟨t, left, right⟩ := ih tail
          exact ⟨t, .cons head left, right⟩

theorem exists_run (total : ∀ l s, ∃ t, step l s t) (s : S) (ls : List L) : ∃ t, Run step s ls t := by
  induction ls generalizing s with
  | nil => exact ⟨s, .nil s⟩
  | cons l ls ih =>
      obtain ⟨t, head⟩ := total l s
      obtain ⟨u, tail⟩ := ih t
      exact ⟨u, .cons head tail⟩

theorem Run.invariant {Inv : S → Prop} (run : Run step s ls t)
    (kept : ∀ l s t, Inv s → step l s t → Inv t) (initial : Inv s) : Inv t := by
  induction run with
  | nil => exact initial
  | cons head _ ih => exact ih (kept _ _ _ initial head)

theorem Run.invariant_of_mem {Inv : S → Prop} (run : Run step s ls t)
    (kept : ∀ l ∈ ls, ∀ s t, Inv s → step l s t → Inv t) (initial : Inv s) : Inv t := by
  induction run with
  | nil => exact initial
  | cons head _ ih =>
      exact ih (fun l member => kept l (by simp [member])) (kept _ (by simp) _ _ initial head)

theorem run_iff_foldlM {f : L → S → Option S} :
    Run (fun l s t => f l s = some t) s ls t ↔ ls.foldlM (fun s l => f l s) s = some t := by
  induction ls generalizing s with
  | nil =>
      constructor
      · intro run
        cases run
        rfl
      · intro same
        obtain rfl := Option.some.inj same
        exact .nil s
  | cons l ls ih =>
      rw [List.foldlM_cons]
      constructor
      · intro run
        cases run with
        | cons head tail => exact Option.bind_eq_some_iff.mpr ⟨_, head, ih.mp tail⟩
      · intro computed
        obtain ⟨u, head, tail⟩ := Option.bind_eq_some_iff.mp computed
        exact .cons head (ih.mpr tail)

theorem Run.first {P : L → Prop} (run : Run step s ls u) (occurs : ∃ l ∈ ls, P l) :
    ∃ before l after t t', ls = before ++ l :: after ∧ (∀ k ∈ before, ¬ P k) ∧ P l ∧
      Run step s before t ∧ step l t t' ∧ Run step t' after u := by
  induction run with
  | nil =>
      obtain ⟨l, member, -⟩ := occurs
      cases member
  | @cons s t u l ls head tail ih =>
      by_cases here : P l
      · exact ⟨[], l, ls, s, t, rfl, by simp, here, .nil s, head, tail⟩
      · have later : ∃ k ∈ ls, P k := by
          obtain ⟨k, member, holds⟩ := occurs
          rcases List.mem_cons.mp member with rfl | member
          · exact absurd holds here
          · exact ⟨k, member, holds⟩
        obtain ⟨before, k, after, t₁, t₂, split, none, holds, left, mid, right⟩ := ih later
        refine ⟨l :: before, k, after, t₁, t₂, by rw [split]; rfl, ?_, holds, .cons head left, mid, right⟩
        intro k' member
        rcases List.mem_cons.mp member with rfl | member
        · exact here
        · exact none k' member

theorem Run.mono {step' : L → S → S → Prop} (run : Run step s ls t)
    (weaker : ∀ l s t, step l s t → step' l s t) : Run step' s ls t := by
  induction run with
  | nil => exact .nil _
  | cons head _ ih => exact .cons (weaker _ _ _ head) ih

theorem Run.unguarded (run : Run (Guarded guard step) s ls t) : Run step s ls t :=
  run.mono fun _ _ _ taken => taken.2

theorem Run.guarded (run : Run step s ls t) (all : AllSteps step guard s ls) :
    Run (Guarded guard step) s ls t := by
  induction run with
  | nil => exact .nil _
  | @cons s t u l ls head tail ih =>
      refine .cons ⟨all [] l ls rfl s (.nil s), head⟩ (ih ?_)
      intro before k after split v start
      exact all (l :: before) k after (by rw [split]; rfl) v (.cons head start)

theorem Run.functional (det : ∀ l s t u, step l s t → step l s u → t = u) (first : Run step s ls t)
    (second : Run step s ls u) : t = u := by
  induction first with
  | nil =>
      cases second
      rfl
  | cons head _ ih =>
      cases second with
      | cons head' tail' =>
          obtain rfl := det _ _ _ _ head head'
          exact ih tail'

theorem AllSteps.front (all : AllSteps step guard s (ls ++ ks)) : AllSteps step guard s ls := by
  intro before l after split t run
  exact all before l (after ++ ks) (by rw [split, List.append_assoc]; rfl) t run

theorem AllSteps.later (all : AllSteps step guard s (ls ++ ks)) (start : Run step s ls t) :
    AllSteps step guard t ks := by
  intro before l after split u run
  exact all (ls ++ before) l after (by rw [split, List.append_assoc]) u (start.append run)

theorem allSteps_cons : AllSteps step guard s (l :: ls) ↔ guard l s ∧ ∀ t, step l s t → AllSteps step guard t ls := by
  constructor
  · intro all
    refine ⟨all [] l ls rfl s (.nil s), fun t head before k after split u run => ?_⟩
    exact all (l :: before) k after (by rw [split]; rfl) u (.cons head run)
  · rintro ⟨here, later⟩ before k after split t run
    cases run with
    | nil =>
        obtain ⟨rfl, -⟩ := List.cons.inj split
        exact here
    | cons head tail =>
        obtain ⟨rfl, rest⟩ := List.cons.inj split
        exact later _ head _ k after rest t tail

/-- A property of steps that holds wherever the invariant does, along a run whose steps meet their guard. -/
theorem AllSteps.of_invariant {safe : L → S → Prop} {Inv : S → Prop} (all : AllSteps step guard s ls)
    (initial : Inv s) (kept : ∀ l s t, Inv s → guard l s → step l s t → Inv t) (holds : ∀ l s, Inv s → safe l s) :
    AllSteps step safe s ls := by
  rintro before l after rfl t run
  have guarded := run.guarded all.front
  exact holds l t (guarded.invariant (fun l s t inv taken => kept l s t inv taken.1 taken.2) initial)

/-- A property of steps that comes down to a guard wherever the invariant holds, which such steps keep. -/
theorem allSteps_iff {safe : L → S → Prop} {Inv : S → Prop} (initial : Inv s)
    (same : ∀ l s, Inv s → (safe l s ↔ guard l s))
    (kept : ∀ l s t, Inv s → guard l s → step l s t → Inv t) :
    AllSteps step safe s ls ↔ AllSteps step guard s ls := by
  induction ls generalizing s with
  | nil =>
      have none (guard : L → S → Prop) : AllSteps step guard s [] := by
        intro before l after split
        cases before <;> cases split
      exact iff_of_true (none safe) (none guard)
  | cons l ls ih =>
      rw [allSteps_cons, allSteps_cons, same l s initial]
      refine and_congr_right fun here => forall_congr' fun t => forall_congr' fun head => ?_
      exact ih (kept l s t initial here head)

/-- Every state a run passes through has the property. -/
def Everywhere (step : L → S → S → Prop) (P : S → Prop) (s : S) (ls : List L) : Prop :=
  ∀ before after, ls = before ++ after → ∀ t, Run step s before t → P t

/-- A property `Q` that holds after a step exactly if the step met its guard, as long as the invariant
`P` held before, and that brings the invariant back. -/
theorem everywhere_iff {P Q : S → Prop} (det : ∀ l s t u, step l s t → step l s u → t = u)
    (run : Run step s ls u) (initial : P s) (weaker : ∀ s, P s → Q s)
    (kept : ∀ l s t, P s → step l s t → (Q t ↔ guard l s))
    (regained : ∀ l s t, P s → step l s t → Q t → P t) :
    Everywhere step Q s ls ↔ AllSteps step guard s ls := by
  constructor
  · intro every
    have strong : ∀ before after t, ls = before ++ after → Run step s before t → P t := by
      intro before
      induction before using List.reverseRecOn with
      | nil =>
          intro after t _ start
          cases start
          exact initial
      | append_singleton before l ih =>
          intro after t split long
          obtain ⟨m, left, right⟩ := long.of_append
          cases right with
          | cons head tail =>
              cases tail
              have earlier := ih (l :: after) m (by rw [split, List.append_assoc]; rfl) left
              exact regained l m t earlier head (every _ after split t long)
    intro before l after split t start
    obtain ⟨m, left, right⟩ := (split ▸ run : Run step s (before ++ l :: after) u).of_append
    obtain rfl := left.functional det start
    cases right with
    | @cons _ m' _ _ _ head _ =>
        have next : ls = (before ++ [l]) ++ after := by rw [split, List.append_assoc]; rfl
        exact (kept l m m' (strong before _ m split start) head).mp
          (every _ after next m' (start.append (.single head)))
  · intro all before after split t start
    have guarded := start.guarded (split ▸ all : AllSteps step guard s (before ++ after)).front
    refine weaker t (guarded.invariant (fun l s t inv taken => ?_) initial)
    exact regained l s t inv taken.2 ((kept l s t inv taken.2).mpr taken.1)

end Rules

end Runs
