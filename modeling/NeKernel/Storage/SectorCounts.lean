import NeKernel.Machine
import NeKernel.Lib.Loop

/-!
# The transfer sizes of the disk drivers

The AHCI, ATA-PIO and ATA-DMA drivers as far as the number of sectors they ask for and the bytes that the
PIO driver moves.
-/

namespace Ne.Kernel.Storage
open ByteMem Loops

def kAHCISectorSize : SizeT := 512
def kATASectorSize : SizeT := 512

/-- The largest buffer of the DMA driver. -/
def kDmaBufferSz : SizeT := 64 * 1024

namespace ATA_REG
def DATA : BitVec 16 := 0x00
def SEC_COUNT0 : BitVec 16 := 0x02
def LBA0 : BitVec 16 := 0x03
def LBA1 : BitVec 16 := 0x04
def LBA2 : BitVec 16 := 0x05
def HDDEVSEL : BitVec 16 := 0x06
def COMMAND : BitVec 16 := 0x07
def LBA3 : BitVec 16 := 0x09
end ATA_REG

def ATA_CMD_READ_PIO : BitVec 64 := 0x20
def ATA_CMD_WRITE_PIO : BitVec 64 := 0x30

def ATA_PRIMARY_IO : BitVec 16 := 0x1F0
def ATA_PRIMARY_SEL : BitVec 64 := 0xA0
def ATA_SECONDARY_SEL : BitVec 64 := 0xB0

/-- A value on its way to a port. `rt_out8` drops all but its low byte. -/
structure PortWrite where
  port : BitVec 16
  value : BitVec 64

/-- `drv_pio_std_select` and `drv_std_select`. -/
def selectBus (bus : BitVec 16) : PortWrite :=
  ⟨bus + ATA_REG.HDDEVSEL, if bus = ATA_PRIMARY_IO then ATA_PRIMARY_SEL else ATA_SECONDARY_SEL⟩

/-- The writes that place a transfer, the sector count among them. -/
def placeTransfer (lba : Lba) (io : BitVec 16) (master : Byte) (sectors : SizeT) : List PortWrite :=
  let command : BitVec 64 := if master = 0 then 0xE0 else 0xF0
  [⟨io + ATA_REG.HDDEVSEL, command ||| ((lba >>> 24) &&& 0x0F)⟩, ⟨io + ATA_REG.SEC_COUNT0, sectors⟩,
    ⟨io + ATA_REG.LBA0, lba &&& 0xFF⟩, ⟨io + ATA_REG.LBA1, lba >>> 8⟩, ⟨io + ATA_REG.LBA2, lba >>> 16⟩,
    ⟨io + ATA_REG.LBA3, lba >>> 24⟩]

/-! ## The AHCI driver -/

/-- The count whose two low bytes go to the command. -/
def ahciSectors (identify : Bool) (sizeBuffer : SizeT) : SizeT :=
  if identify then 1 else sizeBuffer / kAHCISectorSize

/-! ## The PIO driver -/

def pioSectors (sectorSz size : SizeT) : SizeT := (size + sectorSz) / sectorSz

structure PioRead where
  indexOff : SizeT
  words : Nat
  stores : List (UIntPtr × Byte)

/-- A round of the loop over the buffer. `data` gives the words in the order they come from the port. -/
def pioReadRound (data : Nat → BitVec 16) (buf : UIntPtr) (size : SizeT) (s : PioRead) :
    Turn PioRead (List (UIntPtr × Byte)) :=
  if s.indexOff < size then
    let word := data s.words
    .again ⟨s.indexOff + 2, s.words + 1,
      s.stores ++ [(buf + s.indexOff, word.setWidth 8), (buf + s.indexOff + 1, (word >>> 8).setWidth 8)]⟩
  else .done s.stores

structure PioReading where
  writes : List PortWrite
  stores : Option (List (UIntPtr × Byte))

/-- `drv_pio_std_read` on a drive that gets ready. -/
def drvPioStdRead (fuel : Nat) (data : Nat → BitVec 16) (lba : Lba) (io : BitVec 16) (master : Byte) (buf : UIntPtr)
    (sectorSz size : SizeT) : PioReading :=
  ⟨selectBus io :: placeTransfer (lba / sectorSz) io master (pioSectors sectorSz size) ++
      [⟨io + ATA_REG.COMMAND, ATA_CMD_READ_PIO⟩],
    loop (pioReadRound data buf size) fuel ⟨0, 0, []⟩⟩

structure PioWrite where
  indexOff : SizeT
  sent : List (BitVec 16)

def pioWriteRound (mem : Memory) (buf : UIntPtr) (size : SizeT) (s : PioWrite) : Turn PioWrite (List (BitVec 16)) :=
  if s.indexOff < size then
    let low := mem (buf + s.indexOff)
    let high := if s.indexOff + 1 < size then mem (buf + s.indexOff + 1) else 0
    .again ⟨s.indexOff + 2, s.sent ++ [(high.setWidth 16 <<< 8) ||| low.setWidth 16]⟩
  else .done s.sent

structure PioWriting where
  writes : List PortWrite
  sent : Option (List (BitVec 16))

/-- `drv_pio_std_write` on a drive that gets ready. -/
def drvPioStdWrite (fuel : Nat) (mem : Memory) (lba : Lba) (io : BitVec 16) (master : Byte) (buf : UIntPtr)
    (sectorSz size : SizeT) : PioWriting :=
  ⟨selectBus io :: placeTransfer (lba / sectorSz) io master (pioSectors sectorSz size) ++
      [⟨io + ATA_REG.COMMAND, ATA_CMD_WRITE_PIO⟩],
    loop (pioWriteRound mem buf size) fuel ⟨0, []⟩⟩

/-! ## The DMA driver -/

/-- The placement of `drv_std_read`. A buffer that is too large is dropped before it. -/
def drvStdRead (lba : Lba) (io : BitVec 16) (master : Byte) (sectorSz size : SizeT) : Option (List PortWrite) :=
  if size > kDmaBufferSz then none
  else some (selectBus io :: placeTransfer (lba / sectorSz) io master ((size + sectorSz - 1) / sectorSz))

/-- The placement of `drv_std_write`. -/
def drvStdWrite (lba : Lba) (io : BitVec 16) (master : Byte) (sectorSz size : SizeT) : Option (List PortWrite) :=
  if size > kDmaBufferSz then none
  else some (placeTransfer (lba / sectorSz) io master ((size + (sectorSz - 1)) / sectorSz))

/-! ## What the drivers should ask for -/

/-- The sectors that a buffer takes up. -/
def sectorsOf (size : SizeT) : SizeT := BitVec.ofNat 64 ((size.toNat + 511) / 512)

/-- The value written to the sector count register. -/
def countWritten (io : BitVec 16) (writes : List PortWrite) : Option SizeT :=
  (writes.find? fun write => decide (write.port = io + ATA_REG.SEC_COUNT0)).map PortWrite.value

def AhciExact (size : SizeT) : Prop := ahciSectors false size = sectorsOf size

def PioExact (size : SizeT) : Prop := ∀ fuel data mem lba io master buf,
  countWritten io (drvPioStdRead fuel data lba io master buf kATASectorSize size).writes = some (sectorsOf size) ∧
  countWritten io (drvPioStdWrite fuel mem lba io master buf kATASectorSize size).writes = some (sectorsOf size)

def DmaExact (size : SizeT) : Prop := ∀ lba io master,
  (drvStdRead lba io master kATASectorSize size).bind (countWritten io) = some (sectorsOf size) ∧
  (drvStdWrite lba io master kATASectorSize size).bind (countWritten io) = some (sectorsOf size)

/-- A PIO read stores into the buffer, byte by byte, and nowhere else. -/
def PioReadsExactly (size : SizeT) : Prop := ∀ data lba io master buf, ∃ fuel stores,
  (drvPioStdRead fuel data lba io master buf kATASectorSize size).stores = some stores ∧
  stores.map Prod.fst = (List.range size.toNat).map fun i => buf + BitVec.ofNat 64 i

section Counts
variable {size sectors : SizeT} {lba : Lba} {io : BitVec 16} {master : Byte} {rest : List PortWrite}
  {data : Nat → BitVec 16} {buf : UIntPtr}

theorem countWritten_place : countWritten io (placeTransfer lba io master sectors ++ rest) = some sectors := by
  have apart : ¬ io + ATA_REG.HDDEVSEL = io + ATA_REG.SEC_COUNT0 := by
    rw [BitVec.add_right_inj]
    decide
  simp [countWritten, placeTransfer, apart]

theorem countWritten_select : countWritten io (selectBus io :: rest) = countWritten io rest := by
  have apart : ¬ io + ATA_REG.HDDEVSEL = io + ATA_REG.SEC_COUNT0 := by
    rw [BitVec.add_right_inj]
    decide
  simp [countWritten, selectBus, apart]

theorem sectorsOf_toNat : (sectorsOf size).toNat = (size.toNat + 511) / 512 := by
  have bound := size.isLt
  rw [sectorsOf, BitVec.toNat_ofNat]
  omega

theorem ahciExact_iff : AhciExact size ↔ 512 ∣ size.toNat := by
  have bound := size.isLt
  have sector : kAHCISectorSize.toNat = 512 := rfl
  unfold AhciExact ahciSectors
  rw [if_neg (by decide), ← BitVec.toNat_inj, BitVec.toNat_udiv, sector, sectorsOf_toNat]
  omega

theorem pioSectors_iff : pioSectors kATASectorSize size = sectorsOf size ↔
    ¬ 512 ∣ size.toNat ∧ size.toNat < 2 ^ 64 - 512 := by
  have bound := size.isLt
  have sector : kATASectorSize.toNat = 512 := rfl
  unfold pioSectors
  rw [← BitVec.toNat_inj, BitVec.toNat_udiv, BitVec.toNat_add, sector, sectorsOf_toNat]
  omega

theorem pioExact_iff : PioExact size ↔ ¬ 512 ∣ size.toNat ∧ size.toNat < 2 ^ 64 - 512 := by
  rw [← pioSectors_iff]
  unfold PioExact drvPioStdRead drvPioStdWrite
  simp [countWritten_select, countWritten_place]

theorem dmaSectors_eq (small : ¬ size > kDmaBufferSz) :
    (size + kATASectorSize - 1) / kATASectorSize = sectorsOf size ∧
    (size + (kATASectorSize - 1)) / kATASectorSize = sectorsOf size := by
  have sector : kATASectorSize.toNat = 512 := rfl
  have less : (kATASectorSize - 1).toNat = 511 := rfl
  have low : size.toNat ≤ 65536 := BitVec.not_lt.mp small
  constructor
  · rw [← BitVec.toNat_inj, BitVec.toNat_udiv, BitVec.toNat_sub, BitVec.toNat_add, sector, sectorsOf_toNat]
    show (2 ^ 64 - 1 + _) % _ / _ = _
    omega
  · rw [← BitVec.toNat_inj, BitVec.toNat_udiv, BitVec.toNat_add, sector, less, sectorsOf_toNat]
    omega

theorem dmaExact_iff : DmaExact size ↔ size ≤ kDmaBufferSz := by
  unfold DmaExact drvStdRead drvStdWrite
  by_cases large : size > kDmaBufferSz
  · refine iff_of_false (fun exact' => ?_) (BitVec.not_le.mpr large)
    have none := (exact' 0 0 0).1
    rw [if_pos large] at none
    cases none
  · obtain ⟨read, write⟩ := dmaSectors_eq large
    refine iff_of_true (fun lba io master => ?_) (BitVec.not_lt.mp large)
    have placed := @countWritten_place (sectorsOf size) (lba / kATASectorSize) io master []
    rw [List.append_nil] at placed
    rw [if_neg large, if_neg large, read, write]
    exact ⟨countWritten_select.trans placed, placed⟩

theorem pioRead_even {fuel : Nat} {stores : List (UIntPtr × Byte)}
    (ends : loop (pioReadRound data buf size) fuel ⟨0, 0, []⟩ = some stores) : stores.length % 2 = 0 := by
  apply loop_invariant (I := fun s => s.stores.length % 2 = 0) (Q := fun stores => stores.length % 2 = 0) _ _ rfl ends
  · intro s s' even turn
    unfold pioReadRound at turn
    split at turn
    · obtain rfl := Turn.again.inj turn
      simpa using even
    · cases turn
  · intro s stores even turn
    unfold pioReadRound at turn
    split at turn
    · cases turn
    · obtain rfl := Turn.done.inj turn
      exact even

theorem pioRead_rounds {n k left : Nat} {stores : List (UIntPtr × Byte)} (even : size.toNat = 2 * n)
    (here : k + left = n) (before : stores.map Prod.fst = (List.range (2 * k)).map fun i => buf + BitVec.ofNat 64 i) :
    ∃ result, loop (pioReadRound data buf size) (left + 1) ⟨BitVec.ofNat 64 (2 * k), k, stores⟩ = some result ∧
      result.map Prod.fst = (List.range (2 * n)).map fun i => buf + BitVec.ofNat 64 i := by
  have bound := size.isLt
  have offset : (BitVec.ofNat 64 (2 * k)).toNat = 2 * k := by
    rw [BitVec.toNat_ofNat]
    omega
  induction left generalizing k stores with
  | zero =>
      refine ⟨stores, loop_done ?_, by rw [before, ← here, Nat.add_zero]⟩
      unfold pioReadRound
      rw [if_neg]
      rw [BitVec.lt_def, offset]
      omega
  | succ left ih =>
      have inside : BitVec.ofNat 64 (2 * k) < size := by
        rw [BitVec.lt_def, offset]
        omega
      have turn : pioReadRound data buf size ⟨BitVec.ofNat 64 (2 * k), k, stores⟩ =
          .again ⟨BitVec.ofNat 64 (2 * k) + 2, k + 1, _⟩ := if_pos inside
      have next : BitVec.ofNat 64 (2 * k) + 2 = BitVec.ofNat 64 (2 * (k + 1)) := by
        rw [Nat.mul_succ, BitVec.ofNat_add]
        rfl
      rw [next] at turn
      rw [loop_again turn]
      refine ih (by omega) ?_ ?_
      · rw [List.map_append, before, Nat.mul_succ, List.range_succ, List.range_succ]
        simp [BitVec.ofNat_add, BitVec.add_assoc]
      · rw [BitVec.toNat_ofNat]
        omega

theorem pioReadsExactly_iff : PioReadsExactly size ↔ 2 ∣ size.toNat := by
  constructor
  · intro exact'
    obtain ⟨fuel, stores, ends, places⟩ := exact' (fun _ => 0) 0 0 0 0
    have even := pioRead_even ends
    have length := congrArg List.length places
    rw [List.length_map, List.length_map, List.length_range] at length
    omega
  · rintro ⟨n, even⟩ data lba io master buf
    obtain ⟨stores, ends, places⟩ := @pioRead_rounds size data buf n 0 n [] even (Nat.zero_add n) rfl
    exact ⟨n + 1, stores, ends, by rw [places, even]⟩

end Counts

/-- The AHCI driver asks for the whole sectors of a buffer and the PIO driver for one more, the DMA driver
for what the buffer takes up unless it is larger than 64 KiB. No size suits all of them. -/
theorem sector_counts_iff (size : SizeT) :
    (AhciExact size ↔ 512 ∣ size.toNat) ∧
    (PioExact size ↔ ¬ 512 ∣ size.toNat ∧ size.toNat < 2 ^ 64 - 512) ∧
    (DmaExact size ↔ size ≤ kDmaBufferSz) ∧
    (PioReadsExactly size ↔ 2 ∣ size.toNat) ∧
    ¬ (AhciExact size ∧ PioExact size ∧ DmaExact size ∧ PioReadsExactly size) := by
  refine ⟨ahciExact_iff, pioExact_iff, dmaExact_iff, pioReadsExactly_iff, ?_⟩
  rintro ⟨ahci, pio, -, -⟩
  exact (pioExact_iff.mp pio).1 (ahciExact_iff.mp ahci)

/-- For one sector the PIO driver asks for two. -/
theorem one_sector_counted_twice : ¬ ∀ size : SizeT, 0 < size →
    AhciExact size ∧ PioExact size ∧ DmaExact size ∧ PioReadsExactly size := by
  intro claim
  have pio := (claim 512 (by decide)).2.1
  have two := (pio 0 (fun _ => 0) (fun _ => 0) 0 0 0 0).1
  exact absurd two (by decide)

end Ne.Kernel.Storage
