import Mathlib.Logic.Relation
import Mathlib.Data.List.Nodup

/-!
# Lists that are threaded through a successor function

A head, the successor of each node and a null that ends the list.
-/

namespace NextList

inductive Follows {α : Type*} (next : α → α) (null : α) : α → List α → Prop
  | nil : Follows next null null []
  | cons {a : α} {rest : List α} : a ≠ null → Follows next null (next a) rest → Follows next null a (a :: rest)

/-- `b` is reached from `a` by successors of nodes. -/
def Reaches {α : Type*} (next : α → α) (null : α) : α → α → Prop :=
  Relation.ReflTransGen fun a b => a ≠ null ∧ next a = b

section Rules
variable {α : Type*} {next next' : α → α} {null a b c node : α} {nodes others front : List α}

theorem Follows.nonnull (list : Follows next null a nodes) : ∀ b ∈ nodes, b ≠ null := by
  induction list with
  | nil => simp
  | cons nonnull _ ih => simpa using ⟨nonnull, ih⟩

theorem Follows.unique (first : Follows next null a nodes) (second : Follows next null a others) : nodes = others := by
  induction first generalizing others with
  | nil =>
      cases second with
      | nil => rfl
      | cons nonnull _ => exact absurd rfl nonnull
  | cons nonnull _ ih =>
      cases second with
      | nil => exact absurd rfl nonnull
      | cons _ rest => rw [ih rest]

theorem Follows.congr (list : Follows next null a nodes) (same : ∀ b ∈ nodes, next' b = next b) :
    Follows next' null a nodes := by
  induction list with
  | nil => exact .nil
  | @cons a rest nonnull _ ih =>
      refine .cons nonnull ?_
      rw [same a (by simp)]
      exact ih fun b member => same b (by simp [member])

theorem Follows.ends (list : Follows next null a []) : a = null := by
  cases list with
  | nil => rfl

theorem Follows.head_eq (list : Follows next null a (b :: nodes)) : a = b := by
  cases list with
  | cons _ _ => rfl

theorem Follows.tail (list : Follows next null a (b :: nodes)) : Follows next null (next b) nodes := by
  cases list with
  | cons _ rest => exact rest

theorem Follows.head_mem (list : Follows next null a nodes) (nonempty : nodes ≠ []) : a ∈ nodes := by
  cases list with
  | nil => exact absurd rfl nonempty
  | cons _ _ => exact List.mem_cons_self

theorem Follows.suffix (list : Follows next null a (front ++ b :: nodes)) : Follows next null b (b :: nodes) := by
  induction front generalizing a with
  | nil =>
      cases list with
      | cons nonnull rest => exact .cons nonnull rest
  | cons c front ih =>
      cases list with
      | cons _ rest => exact ih rest

theorem Follows.nodup (list : Follows next null a nodes) : nodes.Nodup := by
  induction list with
  | nil => exact List.nodup_nil
  | @cons a rest nonnull tail ih =>
      refine List.nodup_cons.mpr ⟨fun member => ?_, ih⟩
      obtain ⟨front, after, rfl⟩ := List.append_of_mem member
      have same := (Follows.cons nonnull tail).unique tail.suffix
      have lengths := congrArg List.length same
      simp at lengths
      omega

theorem Follows.last (list : Follows next null a (front ++ [c])) : next c = null := by
  cases list.suffix with
  | cons _ rest => cases rest with
    | nil => rfl

theorem Follows.relink (list : Follows next null a (front ++ c :: nodes)) (same : ∀ b ∈ front, next' b = next b)
    (linked : next' c = node) (nonnull : node ≠ null) (ends : next' node = null) :
    Follows next' null a (front ++ [c, node]) := by
  induction front generalizing a with
  | nil =>
      cases list with
      | cons present _ =>
          refine .cons present ?_
          rw [linked]
          refine .cons nonnull ?_
          rw [ends]
          exact .nil
  | cons b front ih =>
      cases list with
      | cons present rest =>
          refine .cons present ?_
          rw [same b (by simp)]
          exact ih rest fun d member => same d (by simp [member])

theorem Follows.reaches (list : Follows next null a nodes) (member : b ∈ nodes) : Reaches next null a b := by
  induction list with
  | nil => cases member
  | cons nonnull _ ih =>
      rcases List.mem_cons.mp member with rfl | later
      · exact .refl
      · exact .head ⟨nonnull, rfl⟩ (ih later)

theorem Follows.mem (list : Follows next null a nodes) (path : Reaches next null a b) (present : b ≠ null) :
    b ∈ nodes := by
  induction path using Relation.ReflTransGen.head_induction_on generalizing nodes with
  | refl =>
      cases list with
      | nil => exact absurd rfl present
      | cons _ _ => simp
  | head step _ ih =>
      obtain ⟨nonnull, rfl⟩ := step
      cases list with
      | nil => exact absurd rfl nonnull
      | cons _ rest => exact List.mem_cons_of_mem _ (ih rest)

end Rules

end NextList
