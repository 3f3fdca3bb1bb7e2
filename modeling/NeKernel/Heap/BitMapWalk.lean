import NeKernel.Heap.BitMapMgr

/-!
# What the bitmap allocator's calls do

`findBitMap` is determined by the first free header on the chain of strides from the cursor;
`freeBitMap` clears one used word and gives the block's size back to the cursor.
-/

namespace Ne.Kernel
open ByteMem

/-- `slot` is the first header with a clear used word on the chain of strides from `base`. -/
inductive FreeSlot (mem : Memory) (size pad : SizeT) : UIntPtr → UIntPtr → Prop
  | here {base : UIntPtr} : bitSet mem base kBitMapUsedIdx = 0 → FreeSlot mem size pad base base
  | next {base slot : UIntPtr} : bitSet mem base kBitMapUsedIdx ≠ 0 →
      FreeSlot mem size pad (base + stride mem size pad base) slot →
      FreeSlot mem size pad base slot

theorem FreeSlot.used {mem : Memory} {size pad : SizeT} {base slot : UIntPtr}
    (found : FreeSlot mem size pad base slot) : bitSet mem slot kBitMapUsedIdx = 0 := by
  induction found with
  | here free => exact free
  | next _ _ ih => exact ih

theorem FreeSlot.unique {mem : Memory} {size pad : SizeT} {base slot slot' : UIntPtr}
    (found : FreeSlot mem size pad base slot) (found' : FreeSlot mem size pad base slot') :
    slot = slot' := by
  induction found with
  | here free =>
      cases found' with
      | here _ => rfl
      | next used _ => exact absurd free used
  | next used _ ih =>
      cases found' with
      | here free => exact absurd free used
      | next _ rest => exact ih rest

/-- The state after a request took the header at `slot`. -/
@[irreducible] def takeSlot (slot : UIntPtr) (size pad : SizeT) (σ : BitMapState) : BitMapState :=
  if bitSet σ.mem slot kBitMapMagIdx = kBitMapMagic then reuseHole slot size pad σ
  else claimFresh slot size pad σ

theorem kBitMapSz_bytes : kBitMapSz * 8 = 24 := by decide

section Walk
variable {size pad : SizeT} {base slot p : UIntPtr} {σ σ' : BitMapState} {fuel : Nat}

theorem findBitMapFrom_succ : findBitMapFrom size pad (fuel + 1) base σ =
    if bitSet σ.mem base kBitMapUsedIdx = 0 then some (base + 24, takeSlot base size pad σ)
    else findBitMapFrom size pad fuel (base + stride σ.mem size pad base) σ := by
  simp only [findBitMapFrom, takeSlot, kBitMapSz_bytes]
  by_cases magic : bitSet σ.mem base kBitMapMagIdx = kBitMapMagic
  · simp only [if_pos magic]
  · simp only [if_neg magic]

theorem findBitMapFrom_sound (returned : findBitMapFrom size pad fuel base σ = some (p, σ')) :
    ∃ slot, FreeSlot σ.mem size pad base slot ∧ p = slot + 24 ∧ σ' = takeSlot slot size pad σ := by
  induction fuel generalizing base with
  | zero => cases returned
  | succ fuel ih =>
      rw [findBitMapFrom_succ] at returned
      split at returned
      · rename_i free
        cases returned
        exact ⟨base, .here free, rfl, rfl⟩
      · rename_i used
        obtain ⟨slot, found, rest⟩ := ih returned
        exact ⟨slot, .next used found, rest⟩

theorem findBitMapFrom_complete (found : FreeSlot σ.mem size pad base slot) :
    ∃ fuel, findBitMapFrom size pad fuel base σ = some (slot + 24, takeSlot slot size pad σ) := by
  induction found with
  | @here base free => exact ⟨1, by rw [findBitMapFrom_succ, if_pos free]⟩
  | next used _ ih =>
      obtain ⟨fuel, returned⟩ := ih
      exact ⟨fuel + 1, by rw [findBitMapFrom_succ, if_neg used, returned]⟩

/-- The sizes `FindBitMap` answers with null at once. -/
def refused (size : SizeT) : Prop := size = 0 ∨ size > kBitMapMaxSz

instance (size : SizeT) : Decidable (refused size) := inferInstanceAs (Decidable (_ ∨ _))

theorem findBitMap_refused {wr user : Bool} {start : UIntPtr} (no : refused size) :
    findBitMap fuel start size wr user pad σ = some (0, σ) := by
  unfold findBitMap
  rcases no with zero | large
  · rw [if_pos zero]
  · rw [if_pos large, ite_self]

theorem findBitMap_accepted {wr user : Bool} {start : UIntPtr} (yes : ¬ refused size) :
    findBitMap fuel start size wr user pad σ =
      findBitMapFrom size pad fuel (start + σ.kBitMapCursor) σ := by
  unfold findBitMap
  rw [if_neg fun zero => yes (.inl zero), if_neg fun large => yes (.inr large)]

@[simp] theorem takeSlot_cursor :
    (takeSlot slot size pad σ).kBitMapCursor = σ.kBitMapCursor + (size + pad + kAlign) := by
  unfold takeSlot
  split <;> rfl

theorem setBitSet_sameOutside {mem : Memory} {idx value : UIntPtr} (bound : idx.toNat < 3) :
    SameOutside slot 24 mem (setBitSet mem slot idx value) := by
  have offset : idx * 8 = BitVec.ofNat 64 (idx.toNat * 8) := by bv_omega
  unfold setBitSet
  rw [offset]
  exact store64_offset_sameOutside _ (by omega)

theorem takeSlot_sameOutside : SameOutside slot 24 σ.mem (takeSlot slot size pad σ).mem := by
  unfold takeSlot
  split
  · exact (setBitSet_sameOutside (by decide)).trans (setBitSet_sameOutside (by decide))
  · exact ((setBitSet_sameOutside (by decide)).trans (setBitSet_sameOutside (by decide))).trans
      (setBitSet_sameOutside (by decide))

@[simp] theorem takeSlot_used :
    bitSet (takeSlot slot size pad σ).mem slot kBitMapUsedIdx = 1 := by
  unfold takeSlot
  split <;> exact load64_store64_same

end Walk

section Free
variable {q x : UIntPtr} {σ : BitMapState}

/-- A free that goes through found the magic both at the pointer and three words below it. -/
theorem freeBitMap_cases (q : UIntPtr) (σ : BitMapState) :
    freeBitMap q σ = (false, σ) ∨
    (bitSet σ.mem q kBitMapMagIdx = kBitMapMagic ∧
      bitSet σ.mem (q - 24) kBitMapMagIdx = kBitMapMagic ∧
      freeBitMap q σ = (true, { σ with
        kBitMapCursor := if bitSet σ.mem (q - 24) kBitMapSizeIdx ≤ σ.kBitMapCursor
          then σ.kBitMapCursor - bitSet σ.mem (q - 24) kBitMapSizeIdx else σ.kBitMapCursor
        mem := setBitSet σ.mem (q - 24) kBitMapUsedIdx 0 })) := by
  have magic : isBitMap σ.mem q = true → bitSet σ.mem q kBitMapMagIdx = kBitMapMagic := by
    unfold isBitMap
    split_ifs <;> simp_all
  unfold freeBitMap
  dsimp only
  rw [kBitMapSz_bytes]
  by_cases no : isBitMap σ.mem q = false
  · exact .inl (if_pos no)
  rw [if_neg no]
  by_cases null : q - 24 = 0
  · exact .inl (if_pos null)
  rw [if_neg null]
  by_cases absent : bitSet σ.mem (q - 24) kBitMapMagIdx ≠ kBitMapMagic
  · exact .inl (if_pos absent)
  · exact .inr ⟨magic (by simpa using no), not_not.mp absent, if_neg absent⟩

theorem freeBitMap_zero (zero : σ.mem x = 0) : (freeBitMap q σ).2.mem x = 0 := by
  rcases freeBitMap_cases q σ with same | ⟨-, -, freed⟩
  · rw [same]
    exact zero
  · rw [freed]
    exact store64_zero zero

theorem freeBitMap_cursor_zero (zero : σ.kBitMapCursor = 0) :
    (freeBitMap q σ).2.kBitMapCursor = 0 := by
  rcases freeBitMap_cases q σ with same | ⟨-, -, freed⟩
  · rw [same]
    exact zero
  · rw [freed]
    dsimp only
    rw [zero]
    split
    · bv_omega
    · rfl

end Free

end Ne.Kernel
