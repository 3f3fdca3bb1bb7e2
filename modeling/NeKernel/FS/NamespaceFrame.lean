import NeKernel.FS.NamespaceSteps

/-!
# Calls leave each other's names alone

A lookup stops at the first free directory node, so a call for a directory hides or uncovers the ones
behind its node, and a creation that takes the last address for index nodes hides all of them.
-/

namespace Ne.Kernel.FS
open ByteMem Strides ScanTable Runs
open HefsBootNode hiding size fChecksum
open HefsIndexNodeDirectory hiding size fChecksum

/-! ## Volumes in order -/

/-- The used nodes lie in the region, and each of their slices leads to an index node of its own, of
those that were given away before `cursor`. -/
structure InOrder (mnt : DriveTrait) (disk : Memory) (cursor : Lba) : Prop where
  slots : ∀ s ∈ slotsOf mnt, dirHash disk s ≠ 0 → InRegion mnt s ∧ Live disk s
  cells : ∀ s ∈ slotsOf mnt, dirHash disk s ≠ 0 → ∀ i, sliceOf disk s i ≠ 0 →
    OnCursor mnt (sliceOf disk s i) ∧ (sliceOf disk s i).toNat + 512 ≤ cursor.toNat
  distinct : ∀ s ∈ slotsOf mnt, dirHash disk s ≠ 0 → ∀ s' ∈ slotsOf mnt, dirHash disk s' ≠ 0 → ∀ i i',
    sliceOf disk s i ≠ 0 → sliceOf disk s i = sliceOf disk s' i' → s = s' ∧ i = i'

section Order
variable {mnt : DriveTrait} {disk disk' : Memory} {s s₀ a₀ cursor cursor' : Lba} {hash h : BitVec 64}
  {i i₀ : Fin kOpenHeFSSliceCount} {key k : BitVec 64 × BitVec 64}

theorem InOrder.record (inOrder : InOrder mnt disk cursor) (member : s ∈ slotsOf mnt) (used : dirHash disk s ≠ 0) :
    Record mnt (sliceOf disk s i) := by
  by_cases zero : sliceOf disk s i = 0
  · exact .inl zero
  · exact .inr (inOrder.cells s member used i zero).1

theorem InOrder.slotChanged (inOrder : InOrder mnt disk cursor) (inside : InRegion mnt s₀)
    (changed : SlotChanged mnt disk disk' s₀ hash) : InOrder mnt disk' cursor := by
  have bare {s : Lba} {i : Fin kOpenHeFSSliceCount} (own : s = s₀) : sliceOf disk' s i = 0 := by
    rw [own]
    exact changed.own.2 i
  have used {s : Lba} (member : s ∈ slotsOf mnt) (used : dirHash disk' s ≠ 0) (distinct : s ≠ s₀) :
      dirHash disk s ≠ 0 ∧ InRegion mnt s ∧ Live disk s := by
    rw [changed.others s member distinct] at used
    exact ⟨used, inOrder.slots s member used⟩
  have cell {s : Lba} {i : Fin kOpenHeFSSliceCount} (member : s ∈ slotsOf mnt) (used' : dirHash disk' s ≠ 0)
      (filled : sliceOf disk' s i ≠ 0) : dirHash disk s ≠ 0 ∧ sliceOf disk' s i = sliceOf disk s i := by
    have distinct : s ≠ s₀ := fun own => filled (bare own)
    obtain ⟨before, region, -⟩ := used member used' distinct
    exact ⟨before, changed.cells s region distinct i⟩
  constructor
  · intro s member used'
    by_cases own : s = s₀
    · rw [own] at used' ⊢
      rw [changed.own.1] at used'
      exact ⟨inside, changed.live used'⟩
    · obtain ⟨-, region, live⟩ := used member used' own
      exact ⟨region, changed.lives s region own live⟩
  · intro s member used' i filled
    obtain ⟨before, same⟩ := cell member used' filled
    rw [same] at filled ⊢
    exact inOrder.cells s member before i filled
  · intro s member used' s' member' used'' i i' filled equal
    obtain ⟨before, same⟩ := cell member used' filled
    obtain ⟨before', same'⟩ := cell member' used'' (equal ▸ filled)
    rw [same] at filled
    rw [same, same'] at equal
    exact inOrder.distinct s member before s' member' before' i i' filled equal

theorem InOrder.cellChanged {cell : Lba} (inOrder : InOrder mnt disk cursor)
    (changed : CellChanged mnt disk disk' s₀ i₀ cell a₀ key) (rises : cursor.toNat ≤ cursor'.toNat)
    (new : cell ≠ 0 → OnCursor mnt cell ∧ cursor.toNat ≤ cell.toNat ∧ cell.toNat + 512 ≤ cursor'.toNat) :
    InOrder mnt disk' cursor' := by
  have used {s : Lba} (member : s ∈ slotsOf mnt) (used' : dirHash disk' s ≠ 0) : dirHash disk s ≠ 0 := by
    rwa [changed.hashes s member] at used'
  have old {s : Lba} {i : Fin kOpenHeFSSliceCount} (member : s ∈ slotsOf mnt) (used' : dirHash disk' s ≠ 0)
      (other : ¬ (s = s₀ ∧ i = i₀)) : sliceOf disk' s i = sliceOf disk s i := by
    rw [changed.cells s (inOrder.slots s member (used member used')).1, if_neg other]
  have own {s : Lba} {i : Fin kOpenHeFSSliceCount} (member : s ∈ slotsOf mnt) (used' : dirHash disk' s ≠ 0)
      (here : s = s₀ ∧ i = i₀) : sliceOf disk' s i = cell := by
    rw [changed.cells s (inOrder.slots s member (used member used')).1, if_pos here]
  constructor
  · intro s member used'
    obtain ⟨region, live⟩ := inOrder.slots s member (used member used')
    exact ⟨region, changed.lives s region live⟩
  · intro s member used' i filled
    by_cases here : s = s₀ ∧ i = i₀
    · rw [own member used' here] at filled ⊢
      exact ⟨(new filled).1, (new filled).2.2⟩
    · rw [old member used' here] at filled ⊢
      obtain ⟨onCursor, behind⟩ := inOrder.cells s member (used member used') i filled
      exact ⟨onCursor, behind.trans rises⟩
  · intro s member used' s' member' used'' i i' filled equal
    by_cases here : s = s₀ ∧ i = i₀
    · by_cases here' : s' = s₀ ∧ i' = i₀
      · exact ⟨here.1.trans here'.1.symm, here.2.trans here'.2.symm⟩
      · rw [own member used' here] at filled equal
        rw [old member' used'' here'] at equal
        have behind := (inOrder.cells s' member' (used member' used'') i' (equal ▸ filled)).2
        have ahead := (new filled).2.1
        rw [equal] at ahead
        omega
    · rw [old member used' here] at filled equal
      by_cases here' : s' = s₀ ∧ i' = i₀
      · rw [own member' used'' here'] at equal
        have behind := (inOrder.cells s member (used member used') i filled).2
        have ahead := (new (equal ▸ filled)).2.1
        rw [← equal] at ahead
        omega
      · rw [old member' used'' here'] at equal
        exact inOrder.distinct s member (used member used') s' member' (used member' used'') i i' filled equal

/-! ## Lookups before and after -/

theorem has_core (same : SameCore mnt disk disk') (regions : ∀ s ∈ slotsOf mnt, InRegion mnt s)
    (records : ∀ s ∈ slotsOf mnt, ∀ i, Record mnt (sliceOf disk s i)) :
    Has (slotsOf mnt) (namesOn disk') h k ↔ Has (slotsOf mnt) (namesOn disk) h k := by
  have hashes (s : Lba) (member : s ∈ slotsOf mnt) : dirHash disk' s = dirHash disk s := dirHash_core same member
  have kept (s : Lba) (member : s ∈ slotsOf mnt) (i : Fin kOpenHeFSSliceCount) :
      inodeKey disk' (sliceOf disk' s i) = inodeKey disk (sliceOf disk s i) := by
    rw [sliceOf_core same (regions s member), inodeKey_core same (records s member i)]
  constructor
  · intro has
    exact has.congr (fun s member => (hashes s member).symm)
      fun s member _ _ i found => (kept s member i).symm.trans found
  · intro has
    exact has.congr hashes fun s member _ _ i found => (kept s member i).trans found

/-- A change of one node of another directory is not noticed, unless a node behind it holds the file. -/
theorem has_slotChanged (inOrder : InOrder mnt disk cursor) (changed : SlotChanged mnt disk disk' s₀ hash)
    (before : dirHash disk s₀ ≠ h) (after : hash ≠ h)
    (bare : BareBehind (slotsOf mnt) (namesOn disk) s₀ h k) :
    Has (slotsOf mnt) (namesOn disk') h k ↔ Has (slotsOf mnt) (namesOn disk) h k := by
  have kept (s : Lba) (member : s ∈ slotsOf mnt) (distinct : s ≠ s₀) (used : dirHash disk s ≠ 0)
      (i : Fin kOpenHeFSSliceCount) :
      inodeKey disk' (sliceOf disk' s i) = inodeKey disk (sliceOf disk s i) := by
    rw [changed.cells s (inOrder.slots s member used).1 distinct, changed.keys _ (inOrder.record member used)]
  constructor
  · intro has
    refine has.slot (fun s member distinct => (changed.others s member distinct).symm) ?_ ?_
      (bare.congr slots_nodup changed.others kept)
    · intro s member distinct used i
      have before : dirHash disk s ≠ 0 := by
        rw [← changed.others s member distinct]
        exact used
      exact (kept s member distinct before i).symm
    · intro same
      exact after (changed.own.1.symm.trans same)
  · intro has
    exact has.slot changed.others kept before bare

/-- A change of one slice, and of the index node at `a₀`, that does not lead to the file before or after. -/
theorem has_cellChanged {cell : Lba} (inOrder : InOrder mnt disk cursor)
    (changed : CellChanged mnt disk disk' s₀ i₀ cell a₀ key)
    (alone : ∀ s ∈ slotsOf mnt, dirHash disk s ≠ 0 → ∀ i, ¬ (s = s₀ ∧ i = i₀) → sliceOf disk s i ≠ a₀)
    (own : dirHash disk s₀ = h → inodeKey disk (sliceOf disk s₀ i₀) ≠ k ∧ inodeKey disk' cell ≠ k) :
    Has (slotsOf mnt) (namesOn disk') h k ↔ Has (slotsOf mnt) (namesOn disk) h k := by
  have kept (s : Lba) (member : s ∈ slotsOf mnt) (used : dirHash disk s ≠ 0) (i : Fin kOpenHeFSSliceCount)
      (other : ¬ (s = s₀ ∧ i = i₀)) :
      inodeKey disk' (sliceOf disk' s i) = inodeKey disk (sliceOf disk s i) := by
    rw [changed.cells s (inOrder.slots s member used).1, if_neg other, changed.keys _ (inOrder.record member used),
      if_neg (alone s member used i other)]
  constructor
  · intro has
    refine has.congr (fun s member => (changed.hashes s member).symm) fun s member used' same' i found => ?_
    have used : dirHash disk s ≠ 0 := by
      rw [← changed.hashes s member]
      exact used'
    have same : dirHash disk s = h := (changed.hashes s member).symm.trans same'
    by_cases here : s = s₀ ∧ i = i₀
    · obtain ⟨rfl, rfl⟩ := here
      have cellNow : sliceOf disk' s i = cell := by
        rw [changed.cells s (inOrder.slots s member used).1, if_pos ⟨rfl, rfl⟩]
      exact absurd (cellNow ▸ found : inodeKey disk' cell = k) (own same).2
    · exact (kept s member used i here).symm.trans found
  · intro has
    refine has.congr changed.hashes fun s member used same i found => ?_
    by_cases here : s = s₀ ∧ i = i₀
    · obtain ⟨rfl, rfl⟩ := here
      exact absurd found (own same).1
    · exact (kept s member used i here).trans found

end Order

end Ne.Kernel.FS
