import NeKernel.Lib.LittleEndian

/-!
# Null-terminated lists threaded through memory

Each node's first word holds the address of the next one.
-/

namespace ByteMem

inductive Chain (m : Mem 64) : BitVec 64 → List (BitVec 64) → Prop
  | nil : Chain m 0 []
  | cons {a : BitVec 64} {nodes : List (BitVec 64)} : a ≠ 0 → Chain m (load64 m a) nodes →
      Chain m a (a :: nodes)

variable {m m' : Mem 64} {head a : BitVec 64} {nodes others : List (BitVec 64)}

theorem Chain.unique (first : Chain m head nodes) (second : Chain m head others) : nodes = others := by
  induction first generalizing others with
  | nil =>
      cases second with
      | nil => rfl
      | cons nonnull _ => exact absurd rfl nonnull
  | cons nonnull _ ih =>
      cases second with
      | nil => exact absurd rfl nonnull
      | cons _ rest => rw [ih rest]

theorem Chain.nonnull (chain : Chain m head nodes) : ∀ a ∈ nodes, a ≠ 0 := by
  induction chain with
  | nil => simp
  | cons nonnull _ ih => simpa using ⟨nonnull, ih⟩

/-- A chain survives any change that leaves the link words of its nodes alone. -/
theorem Chain.frame (chain : Chain m head nodes)
    (same : ∀ a ∈ nodes, ∀ x, Within a 8 x → m' x = m x) : Chain m' head nodes := by
  induction chain with
  | nil => exact .nil
  | @cons a nodes nonnull _ ih =>
      have link : load64 m' a = load64 m a := load64_congr (same a (by simp))
      have rest := ih fun b member => same b (by simp [member])
      exact .cons nonnull (link ▸ rest)

theorem Chain.push (chain : Chain m head nodes) (nonnull : a ≠ 0)
    (apart : ∀ b ∈ nodes, Apart b 8 a 8) : Chain (store64 m a head) a (a :: nodes) := by
  refine .cons nonnull ?_
  rw [load64_store64_same]
  exact chain.frame fun b member x inside => store64_outside (apart b member x inside)

end ByteMem
