import NeKernel.Hal.FrameRuns
import NeKernel.Ldr.PEFContainer
import Mathlib.Data.Set.BooleanAlgebra
import Mathlib.Order.CompletePartialOrder
import Mathlib.Order.Interval.Set.Basic

/-!
# Splitting the handover region

`hal_init_platform` cuts the window of the images out of the region the loader hands over, gives one
half of what is left to the heap and the other half to the frame allocator, which rounds it to
pages. The rounding up wraps when the second half begins in the last page of the address space.
-/

namespace Ne.Kernel.HAL
open ByteMem Ldr

def kHandoverMagic : BitVec 64 := 0xBADAA
def kHandoverVersion : BitVec 64 := 0x0120

structure BootInfoHeader where
  f_Magic : BitVec 64
  f_Version : BitVec 64
  f_BitMapStart : UIntPtr
  f_BitMapSize : SizeT
  f_PageStart : UIntPtr

/-- What is set when the page tables are built. -/
structure Platform where
  kKernelVM : UIntPtr
  kBitMapCursor : SizeT
  kKernelBitMpSize : SizeT
  kKernelBitMpStart : UIntPtr
  pmm : PmmState

def kImgWinStart : UIntPtr := kPefBaseOrigin
def kImgWinEnd : UIntPtr := kPefBaseOrigin + kPefMaxImageSz

/-- The larger of the parts below and above the window, the lower one when they are equal. -/
def clearOfWindow (regionBase : UIntPtr) (regionSz : SizeT) : UIntPtr × SizeT :=
  if regionBase < kImgWinEnd ∧ regionBase + regionSz > kImgWinStart then
    let below := if regionBase < kImgWinStart then kImgWinStart - regionBase else 0
    let above := if regionBase + regionSz > kImgWinEnd then regionBase + regionSz - kImgWinEnd else 0
    if below ≥ above then (regionBase, below) else (kImgWinEnd, above)
  else (regionBase, regionSz)

/-- `hal_init_platform` up to the page tables. -/
def halInitPlatform (handoverHdr : BootInfoHeader) (mem : Memory) : Option Platform :=
  if handoverHdr.f_Magic ≠ kHandoverMagic ∨ handoverHdr.f_Version ≠ kHandoverVersion then none
  else if handoverHdr.f_PageStart = 0 then none
  else
    let (regionBase, regionSz) := clearOfWindow handoverHdr.f_BitMapStart handoverHdr.f_BitMapSize
    let usableSz := regionSz / 2
    some {
      kKernelVM := handoverHdr.f_PageStart
      kBitMapCursor := 0
      kKernelBitMpSize := usableSz
      kKernelBitMpStart := regionBase
      pmm := pmmiInit (regionBase + usableSz) (regionSz - usableSz) (pmmBoot mem) }

namespace Platform
variable (p : Platform)

def heap : Set ℕ := Set.Ico p.kKernelBitMpStart.toNat (p.kKernelBitMpStart.toNat + p.kKernelBitMpSize.toNat)

def frames : Set ℕ := Set.Ico p.pmm.kPmmCursor.toNat p.pmm.kPmmEnd.toNat

end Platform

def BootInfoHeader.region (hdr : BootInfoHeader) : Set ℕ :=
  Set.Ico hdr.f_BitMapStart.toNat (hdr.f_BitMapStart.toNat + hdr.f_BitMapSize.toNat)

def imageWindow : Set ℕ := Set.Ico kPefBaseOrigin.toNat (kPefBaseOrigin.toNat + kPefMaxImageSz.toNat)

structure Separates (hdr : BootInfoHeader) (p : Platform) : Prop where
  halves : Disjoint p.heap p.frames
  heapInside : p.heap ⊆ hdr.region
  framesInside : p.frames ⊆ hdr.region
  heapClear : Disjoint p.heap imageWindow
  framesClear : Disjoint p.frames imageWindow

section Regions
variable {base : UIntPtr} {sz : SizeT} {hdr : BootInfoHeader} {mem : Memory} {p : Platform}

theorem kImgWinStart_toNat : kImgWinStart.toNat = 0x40000000 := kPefBaseOrigin_toNat

theorem kImgWinEnd_toNat : kImgWinEnd.toNat = 0x44000000 := by
  rw [kImgWinEnd, BitVec.toNat_add, kPefBaseOrigin_toNat, kPefMaxImageSz_toNat]

theorem clearOfWindow_cases (ends : base.toNat + sz.toNat < 2 ^ 64) :
    (clearOfWindow base sz = (base, sz) ∧
      (0x44000000 ≤ base.toNat ∨ base.toNat + sz.toNat ≤ 0x40000000)) ∨
    (∃ below, clearOfWindow base sz = (base, below) ∧ below.toNat = 0x40000000 - base.toNat ∧
      base.toNat < 0x44000000 ∧ 0x40000000 < base.toNat + sz.toNat) ∨
    (∃ above, clearOfWindow base sz = (kImgWinEnd, above) ∧
      above.toNat = base.toNat + sz.toNat - 0x44000000 ∧ base.toNat < 0x44000000 ∧
      0x44000000 < base.toNat + sz.toNat) := by
  have low := kImgWinStart_toNat
  have high := kImgWinEnd_toNat
  have below : (if base < kImgWinStart then kImgWinStart - base else 0).toNat =
      0x40000000 - base.toNat := by
    split <;> bv_omega
  have above : (if base + sz > kImgWinEnd then base + sz - kImgWinEnd else 0).toNat =
      base.toNat + sz.toNat - 0x44000000 := by
    split <;> bv_omega
  unfold clearOfWindow
  dsimp only
  generalize (if base < kImgWinStart then kImgWinStart - base else 0) = under at below ⊢
  generalize (if base + sz > kImgWinEnd then base + sz - kImgWinEnd else 0) = beyond at above ⊢
  split
  · next touches =>
      split
      · exact .inr (.inl ⟨_, rfl, below, by bv_omega, by bv_omega⟩)
      · next higher =>
          rw [ge_iff_le, BitVec.le_def, below, above] at higher
          exact .inr (.inr ⟨_, rfl, above, by bv_omega, by omega⟩)
  · exact .inl ⟨rfl, by bv_omega⟩

/-- What is left of the region, and that its second half begins in the last page of the address
space exactly when the region's own second half would. -/
theorem clearOfWindow_spec {b : UIntPtr} {s : SizeT} (ends : base.toNat + sz.toNat < 2 ^ 64)
    (cut : clearOfWindow base sz = (b, s)) :
    base.toNat ≤ b.toNat ∧ (s.toNat = 0 ∨ b.toNat + s.toNat ≤ base.toNat + sz.toNat) ∧
    (s.toNat = 0 ∨ b.toNat + s.toNat ≤ 0x40000000 ∨ 0x44000000 ≤ b.toNat) ∧
    b.toNat + s.toNat < 2 ^ 64 ∧
    (b.toNat + s.toNat / 2 + 0xFFF < 2 ^ 64 ↔ base.toNat + sz.toNat / 2 + 0xFFF < 2 ^ 64) := by
  have high := kImgWinEnd_toNat
  rcases clearOfWindow_cases ends with ⟨same, beside⟩ | ⟨below, same, size, starts, reaches⟩ |
    ⟨above, same, size, starts, -⟩ <;> cases same.symm.trans cut <;> omega

/-- The frames are whole pages of the region the allocator is given, unless the rounding wraps. -/
theorem pmmiInit_frames {b : UIntPtr} {s : SizeT} (ends : b.toNat + s.toNat < 2 ^ 64)
    (rounds : b.toNat + 0xFFF < 2 ^ 64) :
    (pmmiInit b s (pmmBoot mem)).kPmmEnd.toNat = 0 ∨
    (b.toNat ≤ (pmmiInit b s (pmmBoot mem)).kPmmCursor.toNat ∧
      (pmmiInit b s (pmmBoot mem)).kPmmEnd.toNat ≤ b.toNat + s.toNat) := by
  have cursor : (pmmiInit b s (pmmBoot mem)).kPmmCursor = (pmmiInit b s (pmmBoot mem)).kPmmBase := by
    rcases pmmiInit_cases mem b s with booted | ⟨start, stop, -, -, -, booted⟩
    · rw [booted]
      rfl
    · rw [booted]
  rcases boot_region mem ends rounds with empty | inside
  · exact .inl (congrArg BitVec.toNat empty)
  · rw [cursor]
    exact .inr inside

/-- Rounded up over the end of the address space, the first frame is at 0. -/
theorem pmmiInit_wraps {b : UIntPtr} {s : SizeT} (ends : b.toNat + s.toNat < 2 ^ 64)
    (wraps : 2 ^ 64 ≤ b.toNat + 0xFFF) :
    (pmmiInit b s (pmmBoot mem)).kPmmCursor.toNat = 0 ∧ 0 < (pmmiInit b s (pmmBoot mem)).kPmmEnd.toNat := by
  have mask : kPmmAlign.toNat = 0xFFF := by decide
  have start := and_not_kPmmAlign (b + kPmmAlign)
  have stop := and_not_kPmmAlign (b + s)
  have first : (b + kPmmAlign).toNat = b.toNat + 0xFFF - 2 ^ 64 := by bv_omega
  have last : (b + s).toNat = b.toNat + s.toNat := by bv_omega
  rw [first] at start
  rw [last] at stop
  unfold kPageSize at start stop
  have room : ¬ (b + s) &&& ~~~kPmmAlign ≤ (b + kPmmAlign) &&& ~~~kPmmAlign := by
    rw [BitVec.le_def]
    omega
  unfold pmmiInit
  dsimp only
  rw [if_neg room]
  dsimp only
  omega

end Regions

section Platforms
variable {hdr : BootInfoHeader} {mem : Memory} {p : Platform}

/-- The region that is split, and what the split of it is. -/
theorem halInitPlatform_cases (ends : hdr.f_BitMapStart.toNat + hdr.f_BitMapSize.toNat < 2 ^ 64)
    (booted : halInitPlatform hdr mem = some p) :
    ∃ b half rest : BitVec 64, clearOfWindow hdr.f_BitMapStart hdr.f_BitMapSize = (b, half + rest) ∧
      b.toNat + half.toNat + rest.toNat < 2 ^ 64 ∧ half.toNat = (half + rest).toNat / 2 ∧
      p = ⟨hdr.f_PageStart, 0, half, b, pmmiInit (b + half) rest (pmmBoot mem)⟩ := by
  unfold halInitPlatform at booted
  split at booted
  · cases booted
  split at booted
  · cases booted
  cases cut : clearOfWindow hdr.f_BitMapStart hdr.f_BitMapSize with
  | mk b s =>
      rw [cut] at booted
      cases booted
      obtain ⟨-, -, -, small, -⟩ := clearOfWindow_spec ends cut
      have half : (s / 2).toNat = s.toNat / 2 := BitVec.toNat_udiv
      have whole : s / 2 + (s - s / 2) = s := by rw [BitVec.add_comm, BitVec.sub_add_cancel]
      have rest : (s - s / 2).toNat = s.toNat - s.toNat / 2 := by
        rw [BitVec.toNat_sub_of_le (by rw [BitVec.le_def, half]; omega), half]
      refine ⟨b, s / 2, s - s / 2, by rw [whole], by omega, by rw [whole, half], rfl⟩

theorem halInitPlatform_wraps (ends : hdr.f_BitMapStart.toNat + hdr.f_BitMapSize.toNat < 2 ^ 64)
    (booted : halInitPlatform hdr mem = some p)
    (wraps : 2 ^ 64 ≤ hdr.f_BitMapStart.toNat + hdr.f_BitMapSize.toNat / 2 + 0xFFF) :
    0 ∈ p.frames ∧ 0 ∉ hdr.region := by
  obtain ⟨b, half, rest, cut, fits, halved, rfl⟩ := halInitPlatform_cases ends booted
  obtain ⟨-, -, -, -, rounds⟩ := clearOfWindow_spec ends cut
  have front : (b + half).toNat = b.toNat + half.toNat := by bv_omega
  obtain ⟨first, last⟩ := @pmmiInit_wraps mem (b + half) rest (by omega) (by omega)
  refine ⟨⟨first.le, last⟩, fun low => ?_⟩
  have below : hdr.f_BitMapStart.toNat ≤ 0 := low.1
  omega

theorem halInitPlatform_separates (ends : hdr.f_BitMapStart.toNat + hdr.f_BitMapSize.toNat < 2 ^ 64)
    (booted : halInitPlatform hdr mem = some p)
    (rounds : hdr.f_BitMapStart.toNat + hdr.f_BitMapSize.toNat / 2 + 0xFFF < 2 ^ 64) :
    Separates hdr p := by
  obtain ⟨b, half, rest, cut, fits, halved, rfl⟩ := halInitPlatform_cases ends booted
  obtain ⟨starts, inside, clear, -, wraps⟩ := clearOfWindow_spec ends cut
  have front : (b + half).toNat = b.toNat + half.toNat := by bv_omega
  have whole : (half + rest).toNat = half.toNat + rest.toNat := by bv_omega
  have frames := @pmmiInit_frames mem (b + half) rest (by omega) (by omega)
  have low := kPefBaseOrigin_toNat
  have size := kPefMaxImageSz_toNat
  constructor
  case halves =>
    rw [Set.disjoint_left]
    rintro x ⟨-, below⟩ ⟨above, within⟩
    dsimp only at below above within
    omega
  case heapInside =>
    rintro x ⟨above, below⟩
    dsimp only at above below
    exact ⟨by omega, by omega⟩
  case framesInside =>
    rintro x ⟨above, below⟩
    dsimp only at above below
    exact ⟨by omega, by omega⟩
  case heapClear =>
    rw [Set.disjoint_left]
    rintro x ⟨above, below⟩ ⟨enters, leaves⟩
    dsimp only at above below
    omega
  case framesClear =>
    rw [Set.disjoint_left]
    rintro x ⟨above, below⟩ ⟨enters, leaves⟩
    dsimp only at above below
    omega

end Platforms

theorem halInitPlatform_separates_iff {hdr : BootInfoHeader} {mem : Memory} {p : Platform}
    (ends : hdr.f_BitMapStart.toNat + hdr.f_BitMapSize.toNat < 2 ^ 64)
    (booted : halInitPlatform hdr mem = some p) :
    Separates hdr p ↔ hdr.f_BitMapStart.toNat + hdr.f_BitMapSize.toNat / 2 + 0xFFF < 2 ^ 64 := by
  constructor
  · intro separates
    by_contra wraps
    obtain ⟨taken, outside⟩ := halInitPlatform_wraps ends booted (by omega)
    exact outside (separates.framesInside taken)
  · exact halInitPlatform_separates ends booted

/-- One MiB from 16 MiB on, with the magic, the version and the page tables of a loader. -/
def lowRegion : BootInfoHeader := ⟨kHandoverMagic, kHandoverVersion, 0x1000000, 0x100000, 0x1000⟩

theorem halInitPlatform_separates_iff_low :
    ∃ p, halInitPlatform lowRegion (fun _ => 0) = some p ∧ Separates lowRegion p :=
  ⟨_, rfl, (halInitPlatform_separates_iff (by decide) rfl).mpr (by decide)⟩

/-- A region in the last page of the address space: the frames run from 0 over the image window. -/
def lastRegion : BootInfoHeader :=
  ⟨kHandoverMagic, kHandoverVersion, 0xFFFFFFFFFFFFF800, 0x700, 0x1000⟩

theorem halInitPlatform_overlaps :
    ¬ ∀ (hdr : BootInfoHeader) (mem : Memory) (p : Platform),
      hdr.f_BitMapStart.toNat + hdr.f_BitMapSize.toNat < 2 ^ 64 →
      halInitPlatform hdr mem = some p → Separates hdr p := by
  intro separates
  obtain ⟨p, booted⟩ : ∃ p, halInitPlatform lastRegion (fun _ => 0) = some p := ⟨_, rfl⟩
  have ends : lastRegion.f_BitMapStart.toNat + lastRegion.f_BitMapSize.toNat < 2 ^ 64 := by decide
  obtain ⟨taken, outside⟩ := halInitPlatform_wraps ends booted (by decide)
  exact outside ((separates lastRegion _ p ends booted).framesInside taken)

end Ne.Kernel.HAL
