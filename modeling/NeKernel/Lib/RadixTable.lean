import NeKernel.Lib.LittleEndian

/-!
# Radix tables in memory

A tree of 512-entry tables of 64-bit words. `tableOf` follows the entries an argument selects, one
level a step; two arguments reach the same table exactly as long as they select the same entries.
An update writes one entry and fills at most one page that was no table before.
-/

namespace ByteMem

structure RadixShape (A : Type*) where
  index : Nat → A → BitVec 64
  next : BitVec 64 → Option (BitVec 64)
  small : ∀ d a, (index d a).toNat < 512

def slotAt (table i : BitVec 64) : BitVec 64 := table + i * 8

namespace RadixShape

variable {A : Type*} (s : RadixShape A)

def tableOf (m : Mem 64) (root : BitVec 64) : Nat → A → Option (BitVec 64)
  | 0, _ => some root
  | d + 1, a => (tableOf m root d a).bind fun t => s.next (load64 m (slotAt t (s.index d a)))

def entryOf (m : Mem 64) (root : BitVec 64) (d : Nat) (a : A) : Option (BitVec 64) :=
  (s.tableOf m root d a).map fun t => load64 m (slotAt t (s.index d a))

/-- The two arguments select the same entries at the first `d` levels. -/
def Same (d : Nat) (a b : A) : Prop := ∀ k < d, s.index k a = s.index k b

structure Separate (m : Mem 64) (root : BitVec 64) (depth : Nat) : Prop where
  same : ∀ d d' a b t, d ≤ depth → d' ≤ depth → s.tableOf m root d a = some t →
    s.tableOf m root d' b = some t → d = d' ∧ s.Same d a b
  apart : ∀ d d' a b t t', d ≤ depth → d' ≤ depth → s.tableOf m root d a = some t →
    s.tableOf m root d' b = some t' → t ≠ t' → Apart t 4096 t' 4096

/-- `m'` differs from `m` in the entry `a` selects at level `d` and in the `n` bytes from `fresh`,
which no table meets. -/
structure Updates (m m' : Mem 64) (root : BitVec 64) (depth d : Nat) (a : A)
    (table fresh : BitVec 64) (n : Nat) : Prop where
  level : d ≤ depth
  reached : s.tableOf m root d a = some table
  outside : ∀ x, ¬ Within (slotAt table (s.index d a)) 8 x → ¬ Within fresh n x → m' x = m x
  spare : ∀ k b t, k ≤ depth → s.tableOf m root k b = some t → Apart t 4096 fresh n

variable {s} {m m' : Mem 64} {root table fresh : BitVec 64} {depth d d₀ n : Nat} {a a₀ b : A}

theorem Same.refl : s.Same d a a := fun _ _ => rfl

theorem Same.symm (same : s.Same d a b) : s.Same d b a := fun k below => (same k below).symm

theorem Same.trans {c : A} (first : s.Same d a b) (second : s.Same d b c) : s.Same d a c :=
  fun k below => (first k below).trans (second k below)

theorem Same.mono (same : s.Same d a b) {k : Nat} (le : k ≤ d) : s.Same k a b :=
  fun j below => same j (by omega)

theorem Same.succ (same : s.Same d a b) (last : s.index d a = s.index d b) : s.Same (d + 1) a b := by
  intro k below
  rcases Nat.lt_succ_iff_lt_or_eq.mp below with earlier | rfl
  · exact same k earlier
  · exact last

theorem Same.last (same : s.Same (d + 1) a b) : s.index d a = s.index d b := same d (by omega)

theorem tableOf_same (same : s.Same d a b) : s.tableOf m root d a = s.tableOf m root d b := by
  induction d with
  | zero => rfl
  | succ d ih =>
      rw [tableOf, tableOf, ih (same.mono (by omega)), same.last]

theorem entryOf_same (same : s.Same (d + 1) a b) : s.entryOf m root d a = s.entryOf m root d b := by
  rw [entryOf, entryOf, tableOf_same (same.mono (by omega)), same.last]

theorem tableOf_succ_of_entryOf :
    s.tableOf m root (d + 1) a = (s.entryOf m root d a).bind s.next := by
  rw [tableOf, entryOf]
  cases s.tableOf m root d a <;> rfl

theorem tableOf_none_above (none : s.tableOf m root d a = none) {k : Nat} (above : d ≤ k) :
    s.tableOf m root k a = Option.none := by
  obtain ⟨j, rfl⟩ := Nat.exists_eq_add_of_le above
  induction j with
  | zero => exact none
  | succ j ih => rw [← Nat.add_assoc, tableOf, ih (by omega)]; rfl

theorem tableOf_of_above {t : BitVec 64} {k : Nat} (reached : s.tableOf m root k a = some t) (above : d ≤ k) :
    ∃ t', s.tableOf m root d a = some t' := by
  cases here : s.tableOf m root d a with
  | none =>
      rw [tableOf_none_above here above] at reached
      cases reached
  | some t' => exact ⟨t', rfl⟩

theorem entryOf_some {e : BitVec 64} (found : s.entryOf m root d a = some e) :
    ∃ t, s.tableOf m root d a = some t ∧ e = load64 m (slotAt t (s.index d a)) := by
  obtain ⟨t, reached, rfl⟩ := Option.map_eq_some_iff.mp found
  exact ⟨t, reached, rfl⟩

theorem slotAt_eq (t : BitVec 64) (d : Nat) (a : A) :
    slotAt t (s.index d a) = t + BitVec.ofNat 64 (8 * (s.index d a).toNat) := by
  unfold slotAt
  bv_omega

theorem within_table {t x : BitVec 64} (inside : Within (slotAt t (s.index d a)) 8 x) :
    Within t 4096 x := by
  have small := s.small d a
  rw [slotAt_eq] at inside
  exact inside.of_offset _ (by omega)

theorem slots_apart {t : BitVec 64} (differ : s.index d a ≠ s.index d b) :
    Apart (slotAt t (s.index d a)) 8 (slotAt t (s.index d b)) 8 := by
  have smallA := s.small d a
  have smallB := s.small d b
  have numbers : (s.index d a).toNat ≠ (s.index d b).toNat :=
    fun same => differ (BitVec.eq_of_toNat_eq same)
  rw [slotAt_eq, slotAt_eq]
  rcases Nat.lt_or_gt_of_ne numbers with less | more
  · exact Apart.of_offsets (by omega) (by omega)
  · exact (Apart.of_offsets (by omega) (by omega)).symm

/-- What a memory change leaves of the tables. -/
def SameTables (s : RadixShape A) (m m' : Mem 64) (root : BitVec 64) (depth : Nat) : Prop :=
  ∀ d a t, d ≤ depth → s.tableOf m root d a = some t → ∀ x, Within t 4096 x → m' x = m x

section Congruence
variable (same : s.SameTables m m' root depth)
include same

theorem tableOf_congr (level : d ≤ depth) : s.tableOf m' root d a = s.tableOf m root d a := by
  induction d with
  | zero => rfl
  | succ d ih =>
      rw [tableOf, tableOf, ih (by omega)]
      cases reached : s.tableOf m root d a with
      | none => rfl
      | some t =>
          have entry : load64 m' (slotAt t (s.index d a)) = load64 m (slotAt t (s.index d a)) :=
            load64_congr fun x inside => same d a t (by omega) reached x (within_table inside)
          simp only [Option.bind_some, entry]

theorem entryOf_congr (level : d ≤ depth) : s.entryOf m' root d a = s.entryOf m root d a := by
  rw [entryOf, entryOf, tableOf_congr same level]
  cases reached : s.tableOf m root d a with
  | none => rfl
  | some t => exact congrArg some (load64_congr fun x inside => same d a t level reached x (within_table inside))

theorem Separate.congr (sep : s.Separate m root depth) : s.Separate m' root depth where
  same d d' a b t level level' first second := by
    rw [tableOf_congr same level] at first
    rw [tableOf_congr same level'] at second
    exact sep.same d d' a b t level level' first second
  apart d d' a b t t' level level' first second := by
    rw [tableOf_congr same level] at first
    rw [tableOf_congr same level'] at second
    exact sep.apart d d' a b t t' level level' first second

end Congruence

section Update
variable (sep : s.Separate m root depth) (up : s.Updates m m' root depth d₀ a₀ table fresh n)
include sep up

theorem load_unchanged {t : BitVec 64} (level : d ≤ depth) (reached : s.tableOf m root d a = some t)
    (other : ¬ (d = d₀ ∧ s.Same (d₀ + 1) a a₀)) :
    load64 m' (slotAt t (s.index d a)) = load64 m (slotAt t (s.index d a)) := by
  refine load64_congr fun x inside => up.outside x ?_ ?_
  · by_cases one : t = table
    · subst one
      obtain ⟨rfl, same⟩ := sep.same d d₀ a a₀ t level up.level reached up.reached
      have differ : s.index d a ≠ s.index d a₀ := fun last => other ⟨rfl, same.succ last⟩
      exact slots_apart differ x inside
    · exact fun inTable => sep.apart d d₀ a a₀ t table level up.level reached up.reached one x
        (within_table inside) (within_table inTable)
  · exact up.spare d a t level reached x (within_table inside)

theorem entryOf_unchanged (level : d ≤ depth) (other : ¬ (d = d₀ ∧ s.Same (d₀ + 1) a a₀))
    (tables : s.tableOf m' root d a = s.tableOf m root d a) :
    s.entryOf m' root d a = s.entryOf m root d a := by
  rw [entryOf, entryOf, tables]
  cases reached : s.tableOf m root d a with
  | none => rfl
  | some t => simp only [Option.map_some, load_unchanged sep up level reached other]

theorem tableOf_unchanged (level : d ≤ depth) (other : ¬ (d₀ < d ∧ s.Same (d₀ + 1) a a₀)) :
    s.tableOf m' root d a = s.tableOf m root d a := by
  induction d with
  | zero => rfl
  | succ d ih =>
      have tables := ih (by omega) fun ⟨below, same⟩ => other ⟨by omega, same⟩
      rw [tableOf_succ_of_entryOf, tableOf_succ_of_entryOf,
        entryOf_unchanged sep up (by omega) (fun ⟨here, same⟩ => other ⟨by omega, same⟩) tables]

theorem entryOf_off_path (level : d ≤ depth) (other : ¬ (d₀ ≤ d ∧ s.Same (d₀ + 1) a a₀)) :
    s.entryOf m' root d a = s.entryOf m root d a :=
  entryOf_unchanged sep up level (fun ⟨here, same⟩ => other ⟨by omega, same⟩)
    (tableOf_unchanged sep up level fun ⟨below, same⟩ => other ⟨by omega, same⟩)

theorem entryOf_updated (same : s.Same (d₀ + 1) a a₀) :
    s.entryOf m' root d₀ a = some (load64 m' (slotAt table (s.index d₀ a₀))) := by
  rw [entryOf_same same, entryOf, tableOf_unchanged sep up up.level fun ⟨below, _⟩ => by omega,
    up.reached]
  rfl

end Update

section Relabel
variable (sep : s.Separate m root depth) (up : s.Updates m m' root depth d₀ a₀ table fresh n)
  (keeps : d₀ < depth → s.next (load64 m' (slotAt table (s.index d₀ a₀))) =
    s.next (load64 m (slotAt table (s.index d₀ a₀))))
include sep up keeps

/-- An update of a last-level entry, or one that leads to the same table, keeps every table. -/
theorem tableOf_relabel (level : d ≤ depth) : s.tableOf m' root d a = s.tableOf m root d a := by
  induction d generalizing a with
  | zero => rfl
  | succ d ih =>
      rw [tableOf_succ_of_entryOf, tableOf_succ_of_entryOf]
      by_cases here : d = d₀ ∧ s.Same (d₀ + 1) a a₀
      · obtain ⟨rfl, same⟩ := here
        rw [entryOf_updated sep up same, entryOf_same same, entryOf, up.reached]
        exact keeps (by omega)
      · rw [entryOf_unchanged sep up (by omega) here (ih (by omega))]

theorem Separate.relabel : s.Separate m' root depth where
  same d d' a b t level level' first second := by
    rw [tableOf_relabel sep up keeps level] at first
    rw [tableOf_relabel sep up keeps level'] at second
    exact sep.same d d' a b t level level' first second
  apart d d' a b t t' level level' first second := by
    rw [tableOf_relabel sep up keeps level] at first
    rw [tableOf_relabel sep up keeps level'] at second
    exact sep.apart d d' a b t t' level level' first second

theorem entryOf_relabel (level : d ≤ depth) (other : ¬ (d = d₀ ∧ s.Same (d₀ + 1) a a₀)) :
    s.entryOf m' root d a = s.entryOf m root d a :=
  entryOf_unchanged sep up level other (tableOf_relabel sep up keeps level)

theorem entryOf_relabel_cases {e : BitVec 64} (level : d ≤ depth) (found : s.entryOf m' root d a = some e) :
    (s.entryOf m root d a = some e ∧ ¬ (d = d₀ ∧ s.Same (d₀ + 1) a a₀)) ∨
    (d = d₀ ∧ s.Same (d₀ + 1) a a₀ ∧ e = load64 m' (slotAt table (s.index d₀ a₀))) := by
  by_cases here : d = d₀ ∧ s.Same (d₀ + 1) a a₀
  · obtain ⟨rfl, same⟩ := here
    rw [entryOf_updated sep up same, Option.some.injEq] at found
    exact .inr ⟨rfl, same, found.symm⟩
  · rw [entryOf_relabel sep up keeps level here] at found
    exact .inl ⟨found, here⟩

end Relabel

section Graft
variable (sep : s.Separate m root depth) (up : s.Updates m m' root depth d₀ a₀ table fresh 4096)
  (linked : s.next (load64 m' (slotAt table (s.index d₀ a₀))) = some fresh)
  (leaves : d₀ + 1 < depth → ∀ a, s.next (load64 m' (slotAt fresh (s.index (d₀ + 1) a))) = none)
include sep up linked

theorem tableOf_graft (same : s.Same (d₀ + 1) a a₀) :
    s.tableOf m' root (d₀ + 1) a = some fresh := by
  rw [tableOf_succ_of_entryOf, entryOf_updated sep up same]
  exact linked

theorem entryOf_graft (same : s.Same (d₀ + 1) a a₀) :
    s.entryOf m' root (d₀ + 1) a = some (load64 m' (slotAt fresh (s.index (d₀ + 1) a))) := by
  rw [entryOf, tableOf_graft sep up linked same]
  rfl

include leaves

theorem tableOf_graft_below (same : s.Same (d₀ + 1) a a₀) (deeper : d₀ + 1 < d) (level : d ≤ depth) :
    s.tableOf m' root d a = none := by
  obtain ⟨k, rfl⟩ := Nat.exists_eq_add_of_lt deeper
  induction k with
  | zero =>
      rw [Nat.add_zero, tableOf_succ_of_entryOf, entryOf_graft sep up linked same]
      exact leaves (by omega) a
  | succ k ih =>
      have none := ih (by omega) (by omega)
      rw [show d₀ + 1 + (k + 1) + 1 = (d₀ + 1 + k + 1) + 1 by omega, tableOf, none]
      rfl

theorem tableOf_graft_cases {t : BitVec 64} (level : d ≤ depth)
    (reached : s.tableOf m' root d a = some t) :
    (s.tableOf m root d a = some t ∧ ¬ (d₀ < d ∧ s.Same (d₀ + 1) a a₀)) ∨
    (d = d₀ + 1 ∧ s.Same (d₀ + 1) a a₀ ∧ t = fresh) := by
  by_cases under : d₀ < d ∧ s.Same (d₀ + 1) a a₀
  · obtain ⟨deeper, same⟩ := under
    rcases Nat.lt_or_eq_of_le (Nat.succ_le_of_lt deeper) with far | rfl
    · rw [tableOf_graft_below sep up linked leaves same far level] at reached
      cases reached
    · rw [tableOf_graft sep up linked same] at reached
      cases reached
      exact .inr ⟨rfl, same, rfl⟩
  · rw [tableOf_unchanged sep up level under] at reached
    exact .inl ⟨reached, under⟩

theorem entryOf_graft_cases {e : BitVec 64} (level : d ≤ depth) (found : s.entryOf m' root d a = some e) :
    (s.entryOf m root d a = some e ∧ ¬ (d₀ ≤ d ∧ s.Same (d₀ + 1) a a₀)) ∨
    (d = d₀ ∧ s.Same (d₀ + 1) a a₀ ∧ e = load64 m' (slotAt table (s.index d₀ a₀))) ∨
    (d = d₀ + 1 ∧ s.Same (d₀ + 1) a a₀ ∧ e = load64 m' (slotAt fresh (s.index (d₀ + 1) a))) := by
  by_cases under : d₀ ≤ d ∧ s.Same (d₀ + 1) a a₀
  · obtain ⟨reach, same⟩ := under
    obtain ⟨t, tables, rfl⟩ := entryOf_some found
    rcases Nat.lt_or_eq_of_le reach with deeper | rfl
    · rcases tableOf_graft_cases sep up linked leaves level tables with ⟨-, above⟩ | ⟨rfl, -, rfl⟩
      · exact absurd ⟨deeper, same⟩ above
      · exact .inr (.inr ⟨rfl, same, rfl⟩)
    · rw [entryOf_updated sep up same, Option.some.injEq] at found
      exact .inr (.inl ⟨rfl, same, found.symm⟩)
  · rw [entryOf_off_path sep up level under] at found
    exact .inl ⟨found, under⟩

theorem Separate.graft : s.Separate m' root depth where
  same d d' a b t level level' first second := by
    have distinct {k c} (hk : k ≤ depth) (old : s.tableOf m root k c = some fresh) : False :=
      up.spare k c fresh hk old fresh (within_self (by omega)) (within_self (by omega))
    rcases tableOf_graft_cases sep up linked leaves level first with ⟨oldA, -⟩ | ⟨rfl, sameA, rfl⟩
    · rcases tableOf_graft_cases sep up linked leaves level' second with ⟨oldB, -⟩ | ⟨-, -, rfl⟩
      · exact sep.same d d' a b t level level' oldA oldB
      · exact (distinct level oldA).elim
    · rcases tableOf_graft_cases sep up linked leaves level' second with ⟨oldB, -⟩ | ⟨rfl, sameB, -⟩
      · exact (distinct level' oldB).elim
      · exact ⟨rfl, sameA.trans sameB.symm⟩
  apart d d' a b t t' level level' first second differ := by
    rcases tableOf_graft_cases sep up linked leaves level first with ⟨oldA, -⟩ | ⟨-, -, rfl⟩
    · rcases tableOf_graft_cases sep up linked leaves level' second with ⟨oldB, -⟩ | ⟨-, -, rfl⟩
      · exact sep.apart d d' a b t t' level level' oldA oldB differ
      · exact up.spare d a t level oldA
    · rcases tableOf_graft_cases sep up linked leaves level' second with ⟨oldB, -⟩ | ⟨-, -, rfl⟩
      · exact (up.spare d' b t' level' oldB).symm
      · exact absurd rfl differ

end Graft

end RadixShape

end ByteMem
