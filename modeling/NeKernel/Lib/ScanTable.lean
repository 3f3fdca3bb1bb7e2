import Mathlib.Data.List.Nodup
import Mathlib.Algebra.Notation.Defs

/-!
# Tables scanned up to their first free slot

A slot has a hash, zero when it is free, and cells that hold the addresses of records. A lookup goes
over the slots in order and stops at the first free one.
-/

namespace ScanTable

structure Table (S H I A K : Type*) where
  hash : S → H
  cell : S → I → A
  record : A → K

variable {S H I A K : Type*} [Zero H]

/-- A scan of the slots comes to `s`. -/
def Reached (slots : List S) (t : Table S H I A K) (s : S) : Prop :=
  ∃ front rest, slots = front ++ s :: rest ∧ (∀ u ∈ front, t.hash u ≠ 0) ∧ t.hash s ≠ 0

def Entry (t : Table S H I A K) (s : S) (i : I) (h : H) (k : K) : Prop :=
  t.hash s = h ∧ t.record (t.cell s i) = k

/-- A lookup of record `k` under hash `h` finds it. -/
def Has (slots : List S) (t : Table S H I A K) (h : H) (k : K) : Prop :=
  ∃ s i, Reached slots t s ∧ Entry t s i h k

section Lookups
variable {slots : List S} {t t' : Table S H I A K} {s s₀ : S} {h : H} {k : K}

theorem Reached.mem (reached : Reached slots t s) : s ∈ slots := by
  obtain ⟨front, rest, rfl, -⟩ := reached
  simp

theorem Reached.used (reached : Reached slots t s) : t.hash s ≠ 0 := by
  obtain ⟨_, _, _, _, used⟩ := reached
  exact used

theorem reached_cons {u : S} : Reached (s :: slots) t u ↔ t.hash s ≠ 0 ∧ (u = s ∨ Reached slots t u) := by
  constructor
  · rintro ⟨front, rest, split, before, used⟩
    cases front with
    | nil =>
        obtain ⟨rfl, rfl⟩ := List.cons.inj split
        exact ⟨used, .inl rfl⟩
    | cons first front =>
        obtain ⟨rfl, rfl⟩ := List.cons.inj split
        exact ⟨before s (by simp), .inr ⟨front, rest, rfl, fun v member => before v (by simp [member]), used⟩⟩
  · rintro ⟨used, rfl | ⟨front, rest, rfl, before, later⟩⟩
    · exact ⟨[], slots, rfl, by simp, used⟩
    · exact ⟨s :: front, rest, rfl, by simpa [used] using before, later⟩

theorem has_cons : Has (s :: slots) t h k ↔ t.hash s ≠ 0 ∧ ((∃ i, Entry t s i h k) ∨ Has slots t h k) := by
  constructor
  · rintro ⟨u, i, reached, entry⟩
    obtain ⟨used, rfl | later⟩ := reached_cons.mp reached
    · exact ⟨used, .inl ⟨i, entry⟩⟩
    · exact ⟨used, .inr ⟨u, i, later, entry⟩⟩
  · rintro ⟨used, ⟨i, entry⟩ | ⟨u, i, later, entry⟩⟩
    · exact ⟨s, i, reached_cons.mpr ⟨used, .inl rfl⟩, entry⟩
    · exact ⟨u, i, reached_cons.mpr ⟨used, .inr later⟩, entry⟩

theorem Reached.congr (reached : Reached slots t s) (same : ∀ u ∈ slots, t'.hash u = t.hash u) :
    Reached slots t' s := by
  obtain ⟨front, rest, rfl, before, used⟩ := reached
  refine ⟨front, rest, rfl, fun u member => ?_, ?_⟩
  · rw [same u (by simp [member])]
    exact before u member
  · rw [same s (by simp)]
    exact used

/-- A change of records and cells that are not found under `h`, or are not `k` before or after. -/
theorem Has.congr (has : Has slots t h k) (same : ∀ s ∈ slots, t'.hash s = t.hash s)
    (kept : ∀ s ∈ slots, t.hash s ≠ 0 → t.hash s = h → ∀ i, t.record (t.cell s i) = k →
      t'.record (t'.cell s i) = k) : Has slots t' h k := by
  obtain ⟨s, i, reached, hash, record⟩ := has
  refine ⟨s, i, reached.congr same, ?_, kept s reached.mem reached.used hash i record⟩
  rw [same s reached.mem]
  exact hash

/-- A scan comes to `s` once slot `s₀` in front of it is used. -/
def Behind (slots : List S) (t : Table S H I A K) (s₀ s : S) : Prop :=
  ∃ front mid rest, slots = front ++ s₀ :: (mid ++ s :: rest) ∧ ∀ u ∈ front ++ (mid ++ [s]), t.hash u ≠ 0

/-- The slots that a change of slot `s₀` between free and used uncovers, or hides, hold no `k` under `h`. -/
def BareBehind (slots : List S) (t : Table S H I A K) (s₀ : S) (h : H) (k : K) : Prop :=
  ∀ s, Behind slots t s₀ s → ∀ i, ¬ Entry t s i h k

/-- A scan that came to `s` before slot `s₀` changed still does, unless `s` is behind `s₀`. -/
theorem Reached.slot (other : ∀ s ∈ slots, s ≠ s₀ → t'.hash s = t.hash s)
    (reached : Reached slots t s) (distinct : s ≠ s₀) : Reached slots t' s ∨ Behind slots t s₀ s := by
  obtain ⟨front, rest, split, before, used⟩ := reached
  by_cases behind : s₀ ∈ front
  · obtain ⟨front, mid, rfl⟩ := List.append_of_mem behind
    refine .inr ⟨front, mid, rest, by rw [split]; simp, fun u member => ?_⟩
    simp only [List.mem_append, List.mem_cons, List.not_mem_nil, or_false] at member before
    rcases member with left | right | rfl
    · exact before u (.inl left)
    · exact before u (.inr (.inr right))
    · exact used
  · refine .inl ⟨front, rest, split, fun u member => ?_, ?_⟩
    · rw [other u (by simp [split, member]) fun same => behind (same ▸ member)]
      exact before u member
    · rw [other s (by simp [split]) distinct]
      exact used

theorem Has.slot (has : Has slots t h k)
    (other : ∀ s ∈ slots, s ≠ s₀ → t'.hash s = t.hash s)
    (kept : ∀ s ∈ slots, s ≠ s₀ → t.hash s ≠ 0 → ∀ i, t'.record (t'.cell s i) = t.record (t.cell s i))
    (foreign : t.hash s₀ ≠ h) (bare : BareBehind slots t s₀ h k) : Has slots t' h k := by
  obtain ⟨s, i, reached, hash, record⟩ := has
  have distinct : s ≠ s₀ := fun same => foreign (same ▸ hash)
  rcases reached.slot other distinct with reached' | behind
  · refine ⟨s, i, reached', ?_, ?_⟩
    · rw [other s reached.mem distinct]
      exact hash
    · rw [kept s reached.mem distinct reached.used]
      exact record
  · exact absurd ⟨hash, record⟩ (bare s behind i)

theorem Behind.congr (behind : Behind slots t' s₀ s) (nodup : slots.Nodup)
    (other : ∀ s ∈ slots, s ≠ s₀ → t'.hash s = t.hash s) :
    Behind slots t s₀ s ∧ s ∈ slots ∧ s ≠ s₀ := by
  obtain ⟨front, mid, rest, split, used⟩ := behind
  have absent : s₀ ∉ front ++ (mid ++ s :: rest) := by
    rw [split, List.nodup_middle] at nodup
    exact (List.nodup_cons.mp nodup).1
  have apart (u : S) (place : u ∈ front ++ (mid ++ [s])) : u ∈ slots ∧ u ≠ s₀ := by
    have member : u ∈ front ++ (mid ++ s :: rest) := by
      simp only [List.mem_append, List.mem_cons, List.not_mem_nil, or_false] at place ⊢
      rcases place with left | right | rfl
      · exact .inl left
      · exact .inr (.inl right)
      · exact .inr (.inr (.inl rfl))
    refine ⟨?_, fun same => absent (same ▸ member)⟩
    rw [split]
    rcases List.mem_append.mp member with left | right
    · exact List.mem_append_left _ left
    · exact List.mem_append_right _ (List.mem_cons_of_mem _ right)
  refine ⟨⟨front, mid, rest, split, fun u member => ?_⟩, apart s (by simp)⟩
  rw [← other u (apart u member).1 (apart u member).2]
  exact used u member

theorem BareBehind.congr (bare : BareBehind slots t s₀ h k) (nodup : slots.Nodup)
    (other : ∀ s ∈ slots, s ≠ s₀ → t'.hash s = t.hash s)
    (kept : ∀ s ∈ slots, s ≠ s₀ → t.hash s ≠ 0 → ∀ i, t'.record (t'.cell s i) = t.record (t.cell s i)) :
    BareBehind slots t' s₀ h k := by
  rintro s behind i ⟨same, record⟩
  obtain ⟨before, member, distinct⟩ := behind.congr nodup other
  have used : t.hash s ≠ 0 := by
    obtain ⟨front, mid, rest, -, used⟩ := before
    exact used s (by simp)
  rw [other s member distinct] at same
  rw [kept s member distinct used] at record
  exact bare s before i ⟨same, record⟩

end Lookups

end ScanTable
