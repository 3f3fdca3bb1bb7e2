import NeKernel.Machine
import NeKernel.Lib.Packed

/-!
# The memory handed to the kernel

`boot_scan_memory` of `BootEFI.cpp`. The firmware is what its boot services answer. `Boot::Stop` does not return.
-/

namespace Ne.Kernel.Boot
open ByteMem

namespace EfiMemoryDescriptor
def Kind : Field := { off := 0, size := 4 }
def PhysicalStart : Field := { off := 8, size := 8 }
def NumberOfPages : Field := { off := 24, size := 8 }
end EfiMemoryDescriptor

def EfiConventionalMemory : BitVec 64 := 7

def kBootLowMemEnd : UIntPtr := 0x100000

/-- `mib_cast`. -/
def mibCast (x : BitVec 64) : BitVec 64 := x * 1024 * 1024

/-- What `GetMemoryMap` leaves behind: memory with the descriptors in the buffer, and its arguments. -/
structure MapReply where
  mem : Memory
  size : UIntPtr
  mapKey : UIntPtr
  szDesc : UIntPtr

structure MemoryMap extends MapReply where
  structPtr : UIntPtr

structure BootServices where
  /-- `size_struct_ptr` and `sz_desc` after the first call, which has no buffer. -/
  mapSize : UIntPtr × UIntPtr
  allocatePool : UIntPtr → Option UIntPtr
  getMemoryMap : UIntPtr → UIntPtr → Option MapReply

structure Region where
  f_BitMapStart : UIntPtr
  f_BitMapSize : SizeT
  deriving DecidableEq

namespace MemoryMap
variable (map : MemoryMap)

def count : Nat := (map.size / map.szDesc).toNat

def desc (i : Nat) : UIntPtr := map.structPtr + BitVec.ofNat 64 i * map.szDesc

def kind (i : Nat) : BitVec 64 := EfiMemoryDescriptor.Kind.on map.mem (map.desc i)

def start (i : Nat) : UIntPtr := EfiMemoryDescriptor.PhysicalStart.on map.mem (map.desc i)

def pages (i : Nat) : BitVec 64 := EfiMemoryDescriptor.NumberOfPages.on map.mem (map.desc i)

/-- `first_free_page` and `free_pages` after the first `n` turns of the loop. -/
def scan : Nat → UIntPtr × BitVec 64
  | 0 => (0, 0)
  | n + 1 =>
      let (firstFreePage, freePages) := scan n
      if map.kind n ≠ EfiConventionalMemory then (firstFreePage, freePages)
      else if map.start n < kBootLowMemEnd then (firstFreePage, freePages)
      else if map.pages n > freePages then (map.start n, map.pages n)
      else (firstFreePage, freePages)

end MemoryMap

/-- The map, unless the boot loader stops before it has one. -/
def readMap (bs : BootServices) : Option MemoryMap :=
  let size := bs.mapSize.1 + bs.mapSize.2 * 8
  match bs.allocatePool size with
  | none => none
  | some structPtr =>
      if structPtr = 0 then none
      else (bs.getMemoryMap size structPtr).map fun reply => ⟨reply, structPtr⟩

def bootScanMemory (bs : BootServices) : Option (Region × UIntPtr) :=
  match readMap bs with
  | none => none
  | some map =>
      let (firstFreePage, freePages) := map.scan map.count
      if firstFreePage = 0 ∨ freePages < 1 then none
      else some (⟨firstFreePage + mibCast 8, freePages * 4096⟩, map.mapKey)

namespace MemoryMap
variable (map : MemoryMap)

/-- What the firmware's header promises of every descriptor: no page of it begins above 0xfffffffffffff000. -/
def Documented : Prop := ∀ i < map.count, (map.start i).toNat + 4096 * (map.pages i).toNat ≤ 2 ^ 64

/-- The region is above 1 MiB and in one conventional descriptor. -/
def Owns (region : Region) : Prop := kBootLowMemEnd ≤ region.f_BitMapStart ∧
  ∃ i < map.count, map.kind i = EfiConventionalMemory ∧ map.start i ≤ region.f_BitMapStart ∧
    region.f_BitMapStart.toNat + region.f_BitMapSize.toNat ≤ (map.start i).toNat + 4096 * (map.pages i).toNat

def Usable (i : Nat) : Prop := map.kind i = EfiConventionalMemory ∧ kBootLowMemEnd ≤ map.start i

/-- The first of the largest among the first `n` descriptors. -/
structure Chosen (n k : Nat) : Prop where
  below : k < n
  usable : map.Usable k
  some : 0 < (map.pages k).toNat
  most : ∀ j < n, map.Usable j → (map.pages j).toNat ≤ (map.pages k).toNat
  first : ∀ j < k, map.Usable j → (map.pages j).toNat < (map.pages k).toNat

/-- A descriptor of the size of the one that is chosen begins 8 MiB behind it, or one that begins below 1 MiB
reaches over all of that. -/
def Covered : Prop := ∃ k i, map.Chosen map.count k ∧ i < map.count ∧ map.kind i = EfiConventionalMemory ∧
  kBootLowMemEnd ≤ map.start k + mibCast 8 ∧
  ((map.start i = map.start k + mibCast 8 ∧ map.pages i = map.pages k) ∨
    (map.start i < kBootLowMemEnd ∧ (map.start k + mibCast 8).toNat + 4096 * (map.pages k).toNat ≤
      (map.start i).toNat + 4096 * (map.pages i).toNat))

section Scan
variable {map} {n k i : Nat} {bs : BootServices} {region : Region} {key : UIntPtr}

theorem Chosen.unique (first : map.Chosen n k) (second : map.Chosen n i) : k = i := by
  have le := first.most i second.below second.usable
  have ge := second.most k first.below first.usable
  rcases Nat.lt_trichotomy k i with less | same | more
  · exact absurd (second.first k less first.usable) (by omega)
  · exact same
  · exact absurd (first.first i more second.usable) (by omega)

theorem Chosen.succ (chosen : map.Chosen n k) (small : map.Usable n → (map.pages n).toNat ≤ (map.pages k).toNat) :
    map.Chosen (n + 1) k := by
  refine ⟨by have := chosen.below; omega, chosen.usable, chosen.some, fun j below usable => ?_, chosen.first⟩
  rcases Nat.lt_succ_iff_lt_or_eq.mp below with earlier | rfl
  · exact chosen.most j earlier usable
  · exact small usable

theorem scan_succ (n : Nat) : map.scan (n + 1) =
    if map.kind n ≠ EfiConventionalMemory then map.scan n
    else if map.start n < kBootLowMemEnd then map.scan n
    else if map.pages n > (map.scan n).2 then (map.start n, map.pages n) else map.scan n := by
  rw [scan]

theorem scan_cases (n : Nat) : (map.scan n = (0, 0) ∧ ∀ j < n, map.Usable j → (map.pages j).toNat = 0) ∨
    ∃ k, map.Chosen n k ∧ map.scan n = (map.start k, map.pages k) := by
  induction n with
  | zero => exact .inl ⟨rfl, fun j none => absurd none (Nat.not_lt_zero j)⟩
  | succ n ih =>
      have kept (small : map.Usable n → (map.pages n).toNat ≤ (map.scan n).2.toNat)
          (same : map.scan (n + 1) = map.scan n) :
          (map.scan (n + 1) = (0, 0) ∧ ∀ j < n + 1, map.Usable j → (map.pages j).toNat = 0) ∨
          ∃ k, map.Chosen (n + 1) k ∧ map.scan (n + 1) = (map.start k, map.pages k) := by
        rw [same]
        rcases ih with ⟨blank, none⟩ | ⟨k, chosen, best⟩
        · refine .inl ⟨blank, fun j below usable => ?_⟩
          rcases Nat.lt_succ_iff_lt_or_eq.mp below with earlier | rfl
          · exact none j earlier usable
          · rw [blank] at small
            exact Nat.le_zero.mp (small usable)
        · rw [best] at small
          exact .inr ⟨k, chosen.succ small, best⟩
      by_cases other : map.kind n ≠ EfiConventionalMemory
      · exact kept (fun usable => absurd usable.1 other) (by rw [scan_succ, if_pos other])
      by_cases low : map.start n < kBootLowMemEnd
      · exact kept (fun usable => absurd low (BitVec.not_lt.mpr usable.2)) (by rw [scan_succ, if_neg other, if_pos low])
      by_cases larger : map.pages n > (map.scan n).2
      · have usable : map.Usable n := ⟨not_not.mp other, BitVec.not_lt.mp low⟩
        have more : (map.scan n).2.toNat < (map.pages n).toNat := larger
        have earlier : ∀ j < n, map.Usable j → (map.pages j).toNat < (map.pages n).toNat := by
          intro j below seen
          rcases ih with ⟨blank, none⟩ | ⟨k, chosen, best⟩
          · have zero := none j below seen
            omega
          · rw [best] at more
            have le := chosen.most j below seen
            dsimp only at more
            omega
        refine .inr ⟨n, ⟨Nat.lt_succ_self n, usable, by omega, fun j below seen => ?_, earlier⟩, ?_⟩
        · rcases Nat.lt_succ_iff_lt_or_eq.mp below with before | rfl
          · exact Nat.le_of_lt (earlier j before seen)
          · exact le_rfl
        · rw [scan_succ, if_neg other, if_neg low, if_pos larger]
      · exact kept (fun _ => BitVec.not_lt.mp larger) (by rw [scan_succ, if_neg other, if_neg low, if_neg larger])

/-- What the boot loader hands over is behind the start of the chosen descriptor. -/
theorem bootScanMemory_chosen (read : readMap bs = some map) (returned : bootScanMemory bs = some (region, key)) :
    ∃ k, map.Chosen map.count k ∧ region = ⟨map.start k + mibCast 8, map.pages k * 4096⟩ := by
  unfold bootScanMemory at returned
  rw [read] at returned
  dsimp only at returned
  rcases scan_cases map.count with ⟨blank, -⟩ | ⟨k, chosen, best⟩
  · rw [blank] at returned
    cases returned
  · rw [best] at returned
    by_cases stop : map.start k = 0 ∨ map.pages k < 1
    · rw [if_pos stop] at returned
      cases returned
    · rw [if_neg stop, Option.some.injEq, Prod.mk.injEq] at returned
      exact ⟨k, chosen, returned.1.symm⟩

theorem size_toNat (documented : map.Documented) (chosen : map.Chosen map.count k) :
    (map.pages k * 4096).toNat = 4096 * (map.pages k).toNat := by
  have bound := documented k chosen.below
  have high : 0x100000 ≤ (map.start k).toNat := chosen.usable.2
  have factor : (4096 : BitVec 64).toNat = 4096 := rfl
  rw [BitVec.toNat_mul, factor]
  omega

/-- The region is the kernel's to use exactly if a descriptor other than the one it was taken from covers it. -/
theorem region_owned_iff (read : readMap bs = some map) (returned : bootScanMemory bs = some (region, key))
    (documented : map.Documented) : map.Owns region ↔ map.Covered := by
  obtain ⟨k, chosen, rfl⟩ := bootScanMemory_chosen read returned
  have size := size_toNat documented chosen
  unfold Owns
  rw [size]
  constructor
  · rintro ⟨high, i, below, conventional, starts, ends⟩
    refine ⟨k, i, chosen, below, conventional, high, ?_⟩
    by_cases low : map.start i < kBootLowMemEnd
    · exact .inr ⟨low, ends⟩
    · have le := chosen.most i below ⟨conventional, BitVec.not_lt.mp low⟩
      have starts : (map.start i).toNat ≤ (map.start k + mibCast 8).toNat := starts
      have ends : (map.start k + mibCast 8).toNat + 4096 * (map.pages k).toNat ≤
          (map.start i).toNat + 4096 * (map.pages i).toNat := ends
      exact .inl ⟨BitVec.eq_of_toNat_eq (by omega), BitVec.eq_of_toNat_eq (by omega)⟩
  · rintro ⟨k', i, chosen', below, conventional, high, there⟩
    obtain rfl := chosen.unique chosen'
    refine ⟨high, i, below, conventional, ?_⟩
    rcases there with ⟨starts, pages⟩ | ⟨low, ends⟩
    · rw [starts, pages]
      exact ⟨BitVec.le_refl _, le_rfl⟩
    · exact ⟨Nat.le_of_lt (Nat.lt_of_lt_of_le (BitVec.lt_def.mp low) (BitVec.le_def.mp high)), ends⟩

end Scan

end MemoryMap

/-- A map of one conventional descriptor, of 16 MiB from 16 MiB on. -/
def oneDescriptor : MemoryMap where
  mem := write (fun _ => 0) 0x1000
    (leBytes 8 7 ++ leBytes 8 0x1000000 ++ leBytes 8 0 ++ leBytes 8 0x1000 ++ leBytes 8 0)
  size := 40
  mapKey := 1
  szDesc := 40
  structPtr := 0x1000

def oneDescriptorServices : BootServices where
  mapSize := (40, 40)
  allocatePool := fun _ => some 0x1000
  getMemoryMap := fun _ _ => some oneDescriptor.toMapReply

theorem oneDescriptor_documented : oneDescriptor.Documented := by
  intro i below
  have single : oneDescriptor.count = 1 := by decide +kernel
  obtain rfl : i = 0 := by omega
  decide +kernel

theorem region_owned_iff_oneDescriptor : oneDescriptor.Owns ⟨0x1800000, 0x1000000⟩ ↔ oneDescriptor.Covered :=
  @MemoryMap.region_owned_iff oneDescriptor oneDescriptorServices _ 1 rfl (by decide +kernel) oneDescriptor_documented

/-- The size is not cut by the 8 MiB that the start moves. -/
theorem one_descriptor_overrun : ¬ ∀ (bs : BootServices) map region key, readMap bs = some map → map.Documented →
    bootScanMemory bs = some (region, key) → map.Owns region := by
  intro claim
  obtain ⟨-, i, below, -, -, ends⟩ := claim oneDescriptorServices oneDescriptor ⟨0x1800000, 0x1000000⟩ 1 rfl
    oneDescriptor_documented (by decide +kernel)
  have single : oneDescriptor.count = 1 := by decide +kernel
  obtain rfl : i = 0 := by omega
  exact absurd ends (by decide +kernel)

end Ne.Kernel.Boot
