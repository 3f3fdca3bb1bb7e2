import NeKernel.Machine
import Mathlib.Tactic.Ring

/-!
# The descriptor of the kernel's task state segment

`hal_init_platform` spreads the address of the segment over the entries 3 and 4 of the descriptor table.
A 64-bit system descriptor is read from 16 bytes as the processor reads it, from the bytes alone.
-/

namespace Ne.Kernel.HAL
open ByteMem

/-- A packed entry of the table. -/
structure NeGdtEntry where
  fLimitLow : BitVec 16
  fBaseLow : BitVec 16
  fBaseMid : BitVec 8
  fAccessByte : BitVec 8
  fFlags : BitVec 8
  fBaseHigh : BitVec 8

namespace NeGdtEntry

def bytes (entry : NeGdtEntry) : List Byte :=
  leBytes 2 entry.fLimitLow.toNat ++ leBytes 2 entry.fBaseLow.toNat ++
    [entry.fBaseMid, entry.fAccessByte, entry.fFlags, entry.fBaseHigh]

end NeGdtEntry

/-- The sizes of the packed members of `NE_TSS`, `fReserved1` to `fIopb`. -/
def neTssMembers : List Nat := [4, 8, 8, 8, 8, 8, 8, 8, 8, 8, 8, 8, 8, 2, 2]

def sizeofNeTss : Nat := neTssMembers.sum

def kGDTEntriesCount : Nat := 8

/-- The entries as they are initialised; the table has one more than it has initialisers. -/
def kGDTArray : List NeGdtEntry :=
  [⟨0, 0, 0, 0x00, 0x00, 0⟩, ⟨0, 0, 0, 0x9A, 0xAF, 0⟩, ⟨0, 0, 0, 0x92, 0xCF, 0⟩, ⟨0, 0, 0, 0, 0, 0⟩,
    ⟨0, 0, 0, 0, 0, 0⟩, ⟨0, 0, 0, 0xFA, 0xAF, 0⟩, ⟨0, 0, 0, 0xF2, 0xCF, 0⟩, ⟨0, 0, 0, 0, 0, 0⟩]

example : kGDTArray.length = kGDTEntriesCount := rfl

def tssEntryLow (kKernelTSS : UIntPtr) : NeGdtEntry where
  fLimitLow := BitVec.ofNat 16 (sizeofNeTss - 1)
  fBaseLow := (kKernelTSS &&& 0xFFFF).setWidth 16
  fBaseMid := ((kKernelTSS >>> 16) &&& 0xFF).setWidth 8
  fAccessByte := 0x89
  fFlags := ((0x20 : UIntPtr) ||| ((kKernelTSS >>> 24) &&& 0x0F)).setWidth 8
  fBaseHigh := ((kKernelTSS >>> 24) &&& 0xFF).setWidth 8

def tssEntryHigh (kKernelTSS : UIntPtr) : NeGdtEntry where
  fLimitLow := ((kKernelTSS >>> 32) &&& 0xFFFF).setWidth 16
  fBaseLow := 0
  fBaseMid := 0
  fAccessByte := 0
  fFlags := 0
  fBaseHigh := 0

/-- The table that `hal_init_platform` loads. -/
def loadedGDT (kKernelTSS : UIntPtr) : List NeGdtEntry :=
  (kGDTArray.set 3 (tssEntryLow kKernelTSS)).set 4 (tssEntryHigh kKernelTSS)

/-- The selector that `sched_jump_to_task` loads into the task register. -/
def kTssSelector : Nat := 0x18

/-- The 16 bytes of a table from a selector on, as one number. -/
def descriptorAt (table : List NeGdtEntry) (selector : Nat) : Nat :=
  leNat (((table.flatMap NeGdtEntry.bytes).drop selector).take 16)

structure SystemDescriptor where
  base : Nat
  limit : Nat
  kind : Nat
  isPresent : Bool
  deriving DecidableEq

/-- The fields of a 64-bit system descriptor. A limit that counts pages covers each of them whole. -/
def decodeDescriptor (d : Nat) : SystemDescriptor where
  base := d / 2 ^ 16 % 2 ^ 24 + d / 2 ^ 56 % 2 ^ 8 * 2 ^ 24 + d / 2 ^ 64 % 2 ^ 32 * 2 ^ 32
  limit :=
    let raw := d % 2 ^ 16 + d / 2 ^ 48 % 2 ^ 4 * 2 ^ 16
    if d / 2 ^ 55 % 2 = 1 then raw * 2 ^ 12 + (2 ^ 12 - 1) else raw
  kind := d / 2 ^ 40 % 2 ^ 5
  isPresent := d / 2 ^ 47 % 2 = 1

/-- The descriptor that `hal_init_platform` builds, as the processor takes it. -/
def tssDescriptor (kKernelTSS : UIntPtr) : SystemDescriptor :=
  decodeDescriptor (descriptorAt (loadedGDT kKernelTSS) kTssSelector)

section Descriptors
variable {addr : UIntPtr} {k : Nat}

/-- Bits `start` to `start + k` of the address, cut to a member of `w` bits. -/
theorem member_toNat {w : Nat} (addr mask : UIntPtr) (start k : Nat) (low : mask.toNat = 2 ^ k - 1) (narrow : k ≤ w) :
    (((addr >>> start) &&& mask).setWidth w).toNat = addr.toNat / 2 ^ start % 2 ^ k := by
  have small : addr.toNat / 2 ^ start % 2 ^ k < 2 ^ w :=
    lt_of_lt_of_le (Nat.mod_lt _ (Nat.two_pow_pos k)) (Nat.pow_le_pow_right (by decide) narrow)
  rw [BitVec.toNat_setWidth, BitVec.toNat_and, low, Nat.and_two_pow_sub_one_eq_mod, BitVec.toNat_ushiftRight,
    Nat.shiftRight_eq_div_pow, Nat.mod_eq_of_lt small]

theorem entry_leNat (entry : NeGdtEntry) : leNat entry.bytes =
    entry.fLimitLow.toNat + entry.fBaseLow.toNat * 2 ^ 16 + entry.fBaseMid.toNat * 2 ^ 32 +
      entry.fAccessByte.toNat * 2 ^ 40 + entry.fFlags.toNat * 2 ^ 48 + entry.fBaseHigh.toNat * 2 ^ 56 := by
  have limit := entry.fLimitLow.isLt
  have base := entry.fBaseLow.isLt
  simp only [NeGdtEntry.bytes, leBytes, leNat, List.cons_append, List.nil_append, BitVec.toNat_ofNat]
  omega

theorem descriptorAt_tss :
    descriptorAt (loadedGDT addr) kTssSelector =
      leNat (tssEntryLow addr).bytes + 2 ^ 64 * leNat (tssEntryHigh addr).bytes := by
  have bytes : (((loadedGDT addr).flatMap NeGdtEntry.bytes).drop kTssSelector).take 16 =
      (tssEntryLow addr).bytes ++ (tssEntryHigh addr).bytes := rfl
  have width : 256 ^ (tssEntryLow addr).bytes.length = 2 ^ 64 := by
    rw [show (tssEntryLow addr).bytes.length = 8 from rfl]
    norm_num
  rw [descriptorAt, bytes, leNat_append, width]

theorem tssFlags_toNat : (tssEntryLow addr).fFlags.toNat = 2 ^ 5 + addr.toNat / 2 ^ 24 % 2 ^ 4 := by
  have nibble := member_toNat (w := 64) addr 0x0F 24 4 rfl (by decide)
  rw [BitVec.setWidth_eq] at nibble
  have small : addr.toNat / 2 ^ 24 % 2 ^ 4 < 2 ^ 5 := lt_trans (Nat.mod_lt _ (by decide)) (by decide)
  have joined : 0x20 ||| addr.toNat / 2 ^ 24 % 2 ^ 4 = 2 ^ 5 + addr.toNat / 2 ^ 24 % 2 ^ 4 :=
    (Nat.two_pow_add_eq_or_of_lt small 1).symm
  change (((0x20 : UIntPtr) ||| ((addr >>> 24) &&& 0x0F)).setWidth 8).toNat = _
  rw [BitVec.toNat_setWidth, BitVec.toNat_or, nibble, show (0x20 : UIntPtr).toNat = 0x20 from rfl, joined]
  exact Nat.mod_eq_of_lt (by omega)

/-- The fields of a descriptor whose limit has the low half `l` and counts bytes. -/
theorem decodeDescriptor_parts {d l p₀ p₁ nibble p₃ p₄ : Nat} (limit : l < 2 ^ 16) (first : p₀ < 2 ^ 16)
    (second : p₁ < 2 ^ 8) (flags : nibble < 2 ^ 4) (third : p₃ < 2 ^ 8) (upper : p₄ < 2 ^ 32)
    (parts : d =
      l + p₀ * 2 ^ 16 + p₁ * 2 ^ 32 + 0x89 * 2 ^ 40 + (2 ^ 5 + nibble) * 2 ^ 48 + p₃ * 2 ^ 56 + 2 ^ 64 * p₄) :
    decodeDescriptor d =
      { base := p₀ + p₁ * 2 ^ 16 + p₃ * 2 ^ 24 + p₄ * 2 ^ 32,
        limit := l + nibble * 2 ^ 16,
        kind := 9,
        isPresent := true } := by
  have baseLow : d / 2 ^ 16 % 2 ^ 24 = p₀ + p₁ * 2 ^ 16 := by omega
  have baseHigh : d / 2 ^ 56 % 2 ^ 8 = p₃ := by omega
  have baseUpper : d / 2 ^ 64 % 2 ^ 32 = p₄ := by omega
  have limitLow : d % 2 ^ 16 = l := by omega
  have limitHigh : d / 2 ^ 48 % 2 ^ 4 = nibble := by omega
  have bytes : ¬ d / 2 ^ 55 % 2 = 1 := by omega
  have kind : d / 2 ^ 40 % 2 ^ 5 = 9 := by omega
  have present : d / 2 ^ 47 % 2 = 1 := by omega
  rw [decodeDescriptor, baseLow, baseHigh, baseUpper, limitLow, limitHigh, kind, present]
  dsimp only
  rw [if_neg bytes]
  rfl

/-- The processor gets the low 48 bits of the address, and its bits 24 to 27 as the top of the limit. -/
theorem tssDescriptor_eq : tssDescriptor addr =
    { base := addr.toNat % 2 ^ 48,
      limit := sizeofNeTss - 1 + addr.toNat / 2 ^ 24 % 2 ^ 4 * 2 ^ 16,
      kind := 9,
      isPresent := true } := by
  have bound := addr.isLt
  have baseLow : (tssEntryLow addr).fBaseLow.toNat = addr.toNat / 2 ^ 0 % 2 ^ 16 := by
    rw [← member_toNat (w := 16) addr 0xFFFF 0 16 rfl le_rfl, BitVec.ushiftRight_zero]
    rfl
  have baseMid : (tssEntryLow addr).fBaseMid.toNat = addr.toNat / 2 ^ 16 % 2 ^ 8 :=
    member_toNat addr 0xFF 16 8 rfl le_rfl
  have baseHigh : (tssEntryLow addr).fBaseHigh.toNat = addr.toNat / 2 ^ 24 % 2 ^ 8 :=
    member_toNat addr 0xFF 24 8 rfl le_rfl
  have baseUpper : (tssEntryHigh addr).fLimitLow.toNat = addr.toNat / 2 ^ 32 % 2 ^ 16 :=
    member_toNat addr 0xFFFF 32 16 rfl le_rfl
  have limitLow : (tssEntryLow addr).fLimitLow.toNat = sizeofNeTss - 1 := rfl
  have access : (tssEntryLow addr).fAccessByte.toNat = 0x89 := rfl
  have low := entry_leNat (tssEntryLow addr)
  have high := entry_leNat (tssEntryHigh addr)
  rw [baseLow, baseMid, baseHigh, limitLow, access, tssFlags_toNat] at low
  rw [baseUpper, show (tssEntryHigh addr).fBaseLow.toNat = 0 from rfl,
    show (tssEntryHigh addr).fBaseMid.toNat = 0 from rfl,
    show (tssEntryHigh addr).fAccessByte.toNat = 0 from rfl, show (tssEntryHigh addr).fFlags.toNat = 0 from rfl,
    show (tssEntryHigh addr).fBaseHigh.toNat = 0 from rfl] at high
  have size : sizeofNeTss = 104 := rfl
  rw [size] at low
  have mods (k w : Nat) : addr.toNat / 2 ^ k % 2 ^ w < 2 ^ w := Nat.mod_lt _ (Nat.two_pow_pos w)
  rw [tssDescriptor, descriptorAt_tss, low, high, decodeDescriptor_parts (l := 103) (by decide) (mods 0 16) (mods 16 8)
    (mods 24 4) (mods 24 8) (lt_trans (mods 32 16) (by decide)) (by ring)]
  have whole : addr.toNat / 2 ^ 0 % 2 ^ 16 + addr.toNat / 2 ^ 16 % 2 ^ 8 * 2 ^ 16 +
      addr.toNat / 2 ^ 24 % 2 ^ 8 * 2 ^ 24 + addr.toNat / 2 ^ 32 % 2 ^ 16 * 2 ^ 32 = addr.toNat % 2 ^ 48 := by
    omega
  rw [whole, size]

/-- The descriptor names the segment exactly if its address has bits 24 to 27 clear and fits in 48 bits. -/
theorem tssDescriptor_iff : ((tssDescriptor addr).base = addr.toNat ∧ (tssDescriptor addr).limit = sizeofNeTss - 1) ↔
    (addr.toNat / 2 ^ 24 % 2 ^ 4 = 0 ∧ addr.toNat < 2 ^ 48) := by
  rw [tssDescriptor_eq]
  constructor
  · rintro ⟨base, limit⟩
    dsimp only at base limit
    omega
  · rintro ⟨clear, small⟩
    exact ⟨Nat.mod_eq_of_lt small, by rw [clear, Nat.zero_mul, Nat.add_zero]⟩

theorem tssDescriptor_wrong : ¬ ((tssDescriptor 0x1000000).base = (0x1000000 : UIntPtr).toNat ∧
    (tssDescriptor 0x1000000).limit = sizeofNeTss - 1) := by
  decide +kernel

end Descriptors

end Ne.Kernel.HAL
