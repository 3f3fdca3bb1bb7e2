import NeKernel.Lib.Loop
import Mathlib.Data.List.Nodup
import Mathlib.Logic.Function.Iterate

/-!
# Courses along a successor function

From a start over the places that are passed, up to the first one where the course stops.
-/

namespace Courses

inductive Course {α : Type*} (next : α → α) (stops : α → Prop) : α → List α → α → Prop
  | stop {a : α} : stops a → Course next stops a [] a
  | pass {a b : α} {rest : List α} : ¬ stops a → Course next stops (next a) rest b →
      Course next stops a (a :: rest) b

section Rules
variable {α : Type*} {next next' : α → α} {stops stops' : α → Prop} {a b c d : α} {nodes front others : List α}

theorem Course.passes (course : Course next stops a nodes b) : ∀ c ∈ nodes, ¬ stops c := by
  induction course with
  | stop _ => simp
  | pass here _ ih => simpa using ⟨here, ih⟩

theorem Course.stopped (course : Course next stops a nodes b) : stops b := by
  induction course with
  | stop here => exact here
  | pass _ _ ih => exact ih

theorem Course.congr (course : Course next stops a nodes b) (same : ∀ c ∈ nodes, next' c = next c)
    (passes : ∀ c ∈ nodes, ¬ stops' c) (ends : stops' b) : Course next' stops' a nodes b := by
  induction course with
  | stop _ => exact .stop ends
  | @pass a b rest _ _ ih =>
      refine .pass (passes a List.mem_cons_self) ?_
      rw [same a List.mem_cons_self]
      exact ih (fun c member => same c (List.mem_cons_of_mem _ member))
        (fun c member => passes c (List.mem_cons_of_mem _ member)) ends

/-- A course that stops earlier is the start of the longer one. -/
theorem Course.split (long : Course next stops a nodes c) (short : Course next stops' a front b)
    (weaker : ∀ d, stops d → stops' d) : ∃ rest, nodes = front ++ rest ∧ Course next stops b rest c := by
  induction short generalizing nodes with
  | stop _ => exact ⟨nodes, rfl, long⟩
  | @pass a b front goes _ ih =>
      cases long with
      | stop here => exact absurd (weaker _ here) goes
      | pass _ tail =>
          obtain ⟨rest, rfl, later⟩ := ih tail
          exact ⟨rest, rfl, later⟩

theorem Course.extend (course : Course next stops a nodes b) (same : ∀ c ∈ nodes, next' c = next c)
    (passes : ∀ c ∈ nodes, ¬ stops' c) (here : ¬ stops' b) (later : Course next' stops' (next' b) others c) :
    Course next' stops' a (nodes ++ b :: others) c := by
  induction course with
  | stop _ => exact .pass here later
  | @pass a b rest _ _ ih =>
      refine .pass (passes a List.mem_cons_self) ?_
      rw [same a List.mem_cons_self]
      exact ih (fun c member => same c (List.mem_cons_of_mem _ member))
        (fun c member => passes c (List.mem_cons_of_mem _ member)) here later

theorem Course.suffix (course : Course next stops a (front ++ c :: nodes) b) : Course next stops c (c :: nodes) b := by
  induction front generalizing a with
  | nil =>
      cases course with
      | pass here tail => exact .pass here tail
  | cons d front ih =>
      cases course with
      | pass _ tail => exact ih tail

theorem Course.unique (first : Course next stops a nodes b) (second : Course next stops a others c) :
    nodes = others := by
  induction first generalizing others with
  | stop here =>
      cases second with
      | stop _ => rfl
      | pass goes _ => exact absurd here goes
  | pass goes _ ih =>
      cases second with
      | stop here => exact absurd here goes
      | pass _ tail => rw [ih tail]

theorem Course.nodup (course : Course next stops a nodes b) : nodes.Nodup := by
  induction course with
  | stop _ => exact List.nodup_nil
  | @pass a b rest here tail ih =>
      refine List.nodup_cons.mpr ⟨fun member => ?_, ih⟩
      obtain ⟨front, after, rfl⟩ := List.append_of_mem member
      have lengths := congrArg List.length ((Course.pass here tail).unique tail.suffix)
      simp at lengths
      omega

theorem Course.stuck (goes : ¬ stops a) (back : next a = a) : ¬ Course next stops a nodes b := by
  intro course
  have twice := congrArg List.length (course.unique (.pass goes (back.symm ▸ course)))
  simp at twice

/-- If each place that is passed leaves room before the next one, it does so before all later ones. -/
theorem Course.ordered (course : Course next stops a nodes b) (rank width : α → ℕ)
    (up : ∀ c ∈ nodes, rank c + width c ≤ rank (next c)) :
    (∀ c ∈ nodes, rank a ≤ rank c) ∧ rank a ≤ rank b ∧
      nodes.Pairwise fun c d => rank c + width c ≤ rank d := by
  induction course with
  | stop _ => exact ⟨by simp, Nat.le_refl _, .nil⟩
  | @pass a b rest _ _ ih =>
      obtain ⟨above, last, order⟩ := ih fun c member => up c (List.mem_cons_of_mem _ member)
      have here := up a List.mem_cons_self
      refine ⟨fun c member => ?_, by omega, .cons (fun c member => Nat.le_trans here (above c member)) order⟩
      rcases List.mem_cons.mp member with rfl | later
      · exact Nat.le_refl _
      · exact Nat.le_trans (Nat.le_add_right _ _) (Nat.le_trans here (above c later))

end Rules

section Walks
open Loops
variable {α S : Type*} {next : α → α} {stops : α → Prop} {body : S → Turn S S} {act : S → S} {pos : S → α} {s r : S}

/-- A loop that goes from place to place ends exactly if the course does, after one act at each place. -/
theorem loop_course_iff (go : ∀ s, ¬ stops (pos s) → body s = .again (act s) ∧ pos (act s) = next (pos s))
    (stop : ∀ s, stops (pos s) → body s = .done s) :
    (∃ fuel, loop body fuel s = some r) ↔
      ∃ nodes b, Course next stops (pos s) nodes b ∧ r = act^[nodes.length] s := by
  constructor
  · rintro ⟨fuel, ends⟩
    induction fuel generalizing s with
    | zero => cases ends
    | succ fuel ih =>
        by_cases here : stops (pos s)
        · rw [loop_done (stop s here)] at ends
          cases ends
          exact ⟨[], _, .stop here, rfl⟩
        · obtain ⟨again, moved⟩ := go s here
          rw [loop_again again] at ends
          obtain ⟨nodes, b, course, same⟩ := ih ends
          rw [moved] at course
          exact ⟨pos s :: nodes, b, .pass here course, same⟩
  · have along {a b : α} {nodes : List α} (course : Course next stops a nodes b) :
        ∀ s, pos s = a → ∃ fuel, loop body fuel s = some (act^[nodes.length] s) := by
      induction course with
      | stop here =>
          rintro s rfl
          exact ⟨1, loop_done (stop s here)⟩
      | pass here _ ih =>
          rintro s rfl
          obtain ⟨again, moved⟩ := go s here
          obtain ⟨fuel, ends⟩ := ih (act s) moved
          exact ⟨fuel + 1, (loop_again again).trans ends⟩
    rintro ⟨nodes, b, course, rfl⟩
    exact along course s rfl

end Walks

end Courses
