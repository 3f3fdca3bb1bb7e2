import Mathlib.Logic.Function.Basic

/-!
# Flags that guard a section

A flag is set while somebody is inside the section, and at most one is.
-/

namespace SpinFlag

variable {ι : Type*} {flag : Bool} {inside inside' : ι → Prop} {p : ι}

structure Guards (flag : Bool) (inside : ι → Prop) : Prop where
  exclusive : ∀ p q, inside p → inside q → p = q
  set : ∀ p, inside p → flag = true

theorem Guards.of_none (none : ∀ p, ¬ inside p) : Guards flag inside :=
  ⟨fun p _ here => absurd here (none p), fun p here => absurd here (none p)⟩

theorem Guards.none_of_clear (guards : Guards false inside) (p : ι) : ¬ inside p :=
  fun here => nomatch guards.set p here

theorem Guards.mono (guards : Guards flag inside) (fewer : ∀ p, inside' p → inside p) : Guards flag inside' :=
  ⟨fun p q first second => guards.exclusive p q (fewer p first) (fewer q second),
    fun p here => guards.set p (fewer p here)⟩

theorem Guards.enter (alone : ∀ q, ¬ inside q) (fewer : ∀ q, inside' q → q = p ∨ inside q) : Guards true inside' := by
  have own {q : ι} (here : inside' q) : q = p := (fewer q here).resolve_right (alone q)
  exact ⟨fun q r first second => (own first).trans (own second).symm, fun _ _ => rfl⟩

theorem Guards.leave (guards : Guards flag inside) (here : inside p) (left : ∀ q, inside' q → inside q ∧ q ≠ p) :
    Guards false inside' :=
  .of_none fun q still => (left q still).2 (guards.exclusive q p (left q still).1 here)

end SpinFlag
