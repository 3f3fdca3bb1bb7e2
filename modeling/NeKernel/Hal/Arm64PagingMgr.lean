import NeKernel.Machine
import NeKernel.Lib.RadixTable

/-!
# ARM64 paging

`HALKit/ARM64/HalPagingMgr.cpp`, with the address in `ttbr0_el1` passed as an argument. Both functions stop at the
third of the levels they know, whose entries stand for 2 MiB.
-/

namespace Ne.Kernel.HAL.Arm64
open ByteMem

def levelIndex (va : UIntPtr) (shift : Nat) : UIntPtr := (va >>> shift) &&& 0x1FF

def entryAddr (entry : UIntPtr) : UIntPtr := entry &&& ~~~0xFFF

def mmGetPageAddr (ttbr0 va : UIntPtr) (mem : Memory) : UIntPtr :=
  if va = 0 then 0
  else
    let l1 := load64 mem (slotAt ttbr0 (levelIndex va 39))
    if l1 = 0 then 0
    else
      let l2 := load64 mem (slotAt (entryAddr l1) (levelIndex va 30))
      if l2 = 0 then 0
      else
        let l3 := load64 mem (slotAt (entryAddr l2) (levelIndex va 21))
        if l3 = 0 then 0 else entryAddr l3

/-- The default of `mm_map_page`, which every caller leaves in place. -/
def kDefaultLevel : BitVec 32 := 2

def mmMapPage (ttbr0 va pa : UIntPtr) (flags level : BitVec 32) (mem : Memory) : Int × Memory :=
  if va = 0 ∨ flags = 0 ∨ pa = 0 then (kErrorInvalidData, mem)
  else
    let l1Slot := slotAt ttbr0 (levelIndex va 39)
    let l1 := load64 mem l1Slot
    if l1 = 0 then (kErrorInvalidData, mem)
    else
      let l2 := load64 mem (slotAt (entryAddr l1) (levelIndex va 30))
      if l2 = 0 then (kErrorInvalidData, mem)
      else
        let l3Slot := slotAt (entryAddr l2) (levelIndex va 21)
        let entry := entryAddr pa ||| flags.setWidth 64
        let mem := store64 mem l3Slot entry
        if level = 2 then (kErrorSuccess, store64 mem l3Slot entry)
        else if level = 1 ∨ level = 0 then (kErrorSuccess, store64 mem l1Slot entry)
        else (kErrorInvalidData, mem)

def levels : RadixShape UIntPtr where
  index d va := levelIndex va (39 - 9 * d)
  next e := if e = 0 then none else some (entryAddr e)
  small d va := by
    have mask : (0x1FF : UIntPtr).toNat = 2 ^ 9 - 1 := by decide
    unfold levelIndex
    rw [BitVec.toNat_and, mask, Nat.and_two_pow_sub_one_eq_mod]
    omega

/-- The levels above the one that is written are there. -/
def Present (ttbr0 va : UIntPtr) (mem : Memory) : Prop := ∃ table, levels.tableOf mem ttbr0 2 va = some table

section Levels
variable {ttbr0 a b va pa table : UIntPtr} {flags : BitVec 32} {mem : Memory}

theorem mmGetPageAddr_eq (nonnull : va ≠ 0) :
    mmGetPageAddr ttbr0 va mem = ((levels.entryOf mem ttbr0 2 va).map entryAddr).getD 0 := by
  have null : entryAddr 0 = 0 := by decide
  unfold mmGetPageAddr RadixShape.entryOf
  rw [if_neg nonnull]
  simp only [RadixShape.tableOf, levels, Option.bind_some]
  by_cases none₁ : load64 mem (slotAt ttbr0 (levelIndex va 39)) = 0
  · simp [none₁]
  · rw [if_neg none₁, if_neg none₁, Option.bind_some]
    by_cases none₂ : load64 mem
        (slotAt (entryAddr (load64 mem (slotAt ttbr0 (levelIndex va 39)))) (levelIndex va 30)) = 0
    · simp [none₂]
    · rw [if_neg none₂, if_neg none₂, Option.map_some, Option.map_some, Option.getD_some]
      split
      · rename_i none₃
        rw [none₃, null]
      · rfl

theorem mmMapPage_stores (nonnull : va ≠ 0) (allowed : flags ≠ 0) (frame : pa ≠ 0)
    (reached : levels.tableOf mem ttbr0 2 va = some table) :
    mmMapPage ttbr0 va pa flags kDefaultLevel mem = (kErrorSuccess,
      store64 (store64 mem (slotAt table (levels.index 2 va)) (entryAddr pa ||| flags.setWidth 64))
        (slotAt table (levels.index 2 va)) (entryAddr pa ||| flags.setWidth 64)) := by
  have accepted : ¬ (va = 0 ∨ flags = 0 ∨ pa = 0) := fun bad => bad.elim nonnull fun bad => bad.elim allowed frame
  unfold mmMapPage
  rw [if_neg accepted]
  simp only [RadixShape.tableOf, levels, Option.bind_some] at reached ⊢
  by_cases none₁ : load64 mem (slotAt ttbr0 (levelIndex va 39)) = 0
  · simp [none₁] at reached
  · rw [if_neg none₁, Option.bind_some] at reached
    rw [if_neg none₁]
    by_cases none₂ : load64 mem
        (slotAt (entryAddr (load64 mem (slotAt ttbr0 (levelIndex va 39)))) (levelIndex va 30)) = 0
    · simp [none₂] at reached
    · rw [if_neg none₂, Option.some.injEq] at reached
      rw [if_neg none₂, reached, if_pos (by decide : kDefaultLevel = 2)]

theorem index_toNat (d : Nat) (va : UIntPtr) : (levels.index d va).toNat = va.toNat / 2 ^ (39 - 9 * d) % 512 := by
  have mask : (0x1FF : UIntPtr).toNat = 2 ^ 9 - 1 := by decide
  show (levelIndex va (39 - 9 * d)).toNat = _
  unfold levelIndex
  rw [BitVec.toNat_and, mask, Nat.and_two_pow_sub_one_eq_mod, BitVec.toNat_ushiftRight, Nat.shiftRight_eq_div_pow]

theorem same_iff_block : levels.Same 3 a b ↔ a.toNat / 2 ^ 21 % 2 ^ 27 = b.toNat / 2 ^ 21 % 2 ^ 27 := by
  have digits (k : Nat) : levels.index k a = levels.index k b ↔
      a.toNat / 2 ^ (39 - 9 * k) % 512 = b.toNat / 2 ^ (39 - 9 * k) % 512 := by
    rw [← BitVec.toNat_inj, index_toNat, index_toNat]
  constructor
  · intro same
    have h0 := (digits 0).mp (same 0 (by omega))
    have h1 := (digits 1).mp (same 1 (by omega))
    have h2 := (digits 2).mp (same 2 (by omega))
    simp only [Nat.mul_zero, Nat.sub_zero, Nat.mul_one, Nat.reduceSub, Nat.reduceMul, Nat.reducePow] at h0 h1 h2
    omega
  · intro same k below
    rw [digits]
    have cases : k = 0 ∨ k = 1 ∨ k = 2 := by omega
    rcases cases with rfl | rfl | rfl <;>
      simp only [Nat.mul_zero, Nat.sub_zero, Nat.mul_one, Nat.reduceSub, Nat.reduceMul, Nat.reducePow] <;>
      omega

/-- A page that is mapped shows at every address of its 2 MiB, and at no other. -/
theorem mmMapPage_block (separate : levels.Separate mem ttbr0 2) (nonnull : a ≠ 0) (allowed : flags ≠ 0)
    (frame : pa ≠ 0) (present : Present ttbr0 a mem) (some : va ≠ 0) :
    mmGetPageAddr ttbr0 va (mmMapPage ttbr0 a pa flags kDefaultLevel mem).2 =
      if va.toNat / 2 ^ 21 % 2 ^ 27 = a.toNat / 2 ^ 21 % 2 ^ 27 then entryAddr (entryAddr pa ||| flags.setWidth 64)
      else mmGetPageAddr ttbr0 va mem := by
  obtain ⟨table, reached⟩ := present
  rw [mmMapPage_stores nonnull allowed frame reached]
  generalize entryAddr pa ||| flags.setWidth 64 = entry
  have updates : levels.Updates mem (store64 (store64 mem (slotAt table (levels.index 2 a)) entry)
      (slotAt table (levels.index 2 a)) entry) ttbr0 2 2 a table 0 0 :=
    ⟨le_rfl, reached, fun x outside _ => (store64_outside outside).trans (store64_outside outside),
      fun _ _ _ _ _ _ _ none => absurd none (Nat.not_lt_zero _)⟩
  rw [mmGetPageAddr_eq some, mmGetPageAddr_eq some]
  by_cases same : va.toNat / 2 ^ 21 % 2 ^ 27 = a.toNat / 2 ^ 21 % 2 ^ 27
  · rw [if_pos same, RadixShape.entryOf_updated separate updates (same_iff_block.mpr same), load64_store64_same]
    rfl
  · rw [if_neg same, RadixShape.entryOf_off_path separate updates le_rfl fun ⟨_, here⟩ => same (same_iff_block.mp here)]

/-- What mapping the page `a` to `pa` is to do to the lookups in it and in another page `b`. -/
structure MapsPage (ttbr0 a b pa : UIntPtr) (flags : BitVec 32) (mem : Memory) : Prop where
  others : ∀ o : UIntPtr, o.toNat < kPageSize →
    mmGetPageAddr ttbr0 (b + o) (mmMapPage ttbr0 a pa flags kDefaultLevel mem).2 = mmGetPageAddr ttbr0 (b + o) mem
  here : ∀ o : UIntPtr, o.toNat < kPageSize →
    mmGetPageAddr ttbr0 (a + o) (mmMapPage ttbr0 a pa flags kDefaultLevel mem).2 = pa + o

theorem entryAddr_dvd (e : UIntPtr) : 4096 ∣ (entryAddr e).toNat := by
  have low : entryAddr e &&& 0xFFF = 0 := by
    have apart : ~~~(0xFFF : UIntPtr) &&& 0xFFF = 0 := by decide
    rw [entryAddr, BitVec.and_assoc, apart]
    exact BitVec.and_zero
  have mask : (0xFFF : UIntPtr).toNat = 2 ^ 12 - 1 := by decide
  have rest := congrArg BitVec.toNat low
  rw [BitVec.toNat_and, mask, Nat.and_two_pow_sub_one_eq_mod] at rest
  exact Nat.dvd_of_mod_eq_zero rest

theorem mmGetPageAddr_dvd : 4096 ∣ (mmGetPageAddr ttbr0 va mem).toNat := by
  by_cases null : va = 0
  · rw [mmGetPageAddr, if_pos null]
    exact Nat.dvd_zero _
  · rw [mmGetPageAddr_eq null]
    cases levels.entryOf mem ttbr0 2 va with
    | none => exact Nat.dvd_zero _
    | some e => exact entryAddr_dvd e

/-- No page is mapped as it should be: its second byte is looked up at the address of the first. -/
theorem page_never_mapped (ttbr0 a b pa : UIntPtr) (flags : BitVec 32) (mem : Memory) :
    ¬ MapsPage ttbr0 a b pa flags mem := by
  intro maps
  have first : 4096 ∣ (pa + 0).toNat := maps.here 0 (by decide) ▸ mmGetPageAddr_dvd
  have second : 4096 ∣ (pa + 1).toNat := maps.here 1 (by decide) ▸ mmGetPageAddr_dvd
  have one : (pa + 1).toNat = (pa.toNat + 1) % 2 ^ 64 := BitVec.toNat_add pa 1
  have zero : (pa + 0).toNat = (pa.toNat + 0) % 2 ^ 64 := BitVec.toNat_add pa 0
  have bound := pa.isLt
  omega

end Levels

/-- Three tables, of which the first two lead to the next. -/
def blockTables : Memory := store64 (store64 (fun _ => 0) 0x1000 0x2003) 0x2000 0x3003

/-- A page beside the one that is mapped is looked up at its address. -/
theorem beside_mapped_page : ¬ ∀ (ttbr0 a b pa : UIntPtr) (flags : BitVec 32) (mem : Memory), Present ttbr0 a mem →
    Present ttbr0 b mem → kPageSize ∣ a.toNat → kPageSize ∣ b.toNat → a ≠ b → kPageSize ∣ pa.toNat → pa ≠ 0 →
    MapsPage ttbr0 a b pa flags mem := by
  intro claim
  have maps := claim 0x1000 0x8000 0x9000 0x5000 3 blockTables ⟨0x3000, by decide +kernel⟩ ⟨0x3000, by decide +kernel⟩
    (by decide) (by decide) (by decide) (by decide) (by decide)
  have moved := maps.others 0 (by decide)
  exact absurd moved (by decide +kernel)

end Ne.Kernel.HAL.Arm64
