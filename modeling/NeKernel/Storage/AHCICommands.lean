import NeKernel.Storage.SectorCounts
import NeKernel.Dma.DmaPool

/-!
# The commands of the AHCI driver

`drv_std_input_output_ahci` up to the command it issues: the list of the ranges that the controller
reads or writes, the table they are put into, and the sector they go to. StorageKit and the drive
manager call it with the addresses of their packets.
-/

namespace Ne.Kernel.Storage
open Dma

def kErrorDisk : Int := 55
def kSATAPortCnt : ℕ := 0x20
def kSlotTimeout : ℕ := 0x8000
def kSATALBAMode : BitVec 8 := 1 <<< 6
def kFISTypeRegH2D : BitVec 8 := 0x27
def kAHCICmdIdentify : BitVec 8 := 0xEC
def kAHCICmdReadDmaEx : BitVec 8 := 0x25
def kAHCICmdWriteDmaEx : BitVec 8 := 0x35
def kPrdMaxBytes : SizeT := 32 * 1024
def kCommandTableSize : ℕ := 4096

structure HbaPrdtEntry where
  Dba : BitVec 32
  Dbau : BitVec 32
  Dbc : BitVec 22
  Ie : Bool

namespace HbaPrdtEntry

def size : ℕ := 16

/-- `offsetof(HbaCmdTbl, Prdt)`. -/
def first : ℕ := 64 + 16 + 48

/-- What the controller takes the entry for: the count is one less than the bytes. -/
def base (e : HbaPrdtEntry) : UIntPtr := e.Dbau ++ e.Dba

def bytes (e : HbaPrdtEntry) : ℕ := e.Dbc.toNat + 1

end HbaPrdtEntry

structure FisRegH2D where
  FisType : BitVec 8
  CmdOrCtrl : Bool
  Command : BitVec 8
  Lba0 : BitVec 8
  Lba1 : BitVec 8
  Lba2 : BitVec 8
  Device : BitVec 8
  Lba3 : BitVec 8
  Lba4 : BitVec 8
  Lba5 : BitVec 8
  CountLow : BitVec 8
  CountHigh : BitVec 8

/-- The sector a command goes to. -/
def FisRegH2D.sector (fis : FisRegH2D) : ℕ :=
  fis.Lba0.toNat + 2 ^ 8 * fis.Lba1.toNat + 2 ^ 16 * fis.Lba2.toNat + 2 ^ 24 * fis.Lba3.toNat +
    2 ^ 32 * fis.Lba4.toNat + 2 ^ 40 * fis.Lba5.toNat

/-- The header, the table and the FIS of a command. -/
structure AhciCommand where
  slot : ℕ
  Prdtl : BitVec 16
  Cfl : BitVec 5
  Write : Bool
  Prdt : List HbaPrdtEntry
  Cfis : FisRegH2D

inductive AhciOutcome
  | failed (errGlobal : Int)
  | stopped
  | issued (command : AhciCommand)

/-- The port the driver has selected. `slots i` is what the `i`th look at `Sact` and `Ci` finds. -/
structure HbaPort where
  slots : ℕ → BitVec 32
  Clb : BitVec 32
  Ctba : ℕ → BitVec 32
  Ctbau : ℕ → BitVec 32

namespace HbaPort

def header (port : HbaPort) (slot : ℕ) : UIntPtr := port.Clb.setWidth 64 + BitVec.ofNat 64 (32 * slot)

def table (port : HbaPort) (slot : ℕ) : UIntPtr := port.Ctbau slot ++ port.Ctba slot

/-- `drv_init_command_structures_ahci` has succeeded. -/
structure Ready (port : HbaPort) : Prop where
  header : ∀ slot < kSATAPortCnt, port.header slot ≠ 0
  table : ∀ slot < kSATAPortCnt, port.table slot ≠ 0

end HbaPort

def drvFindCmdSlotAhci (slots : BitVec 32) : Option ℕ :=
  (List.range kSATAPortCnt).find? fun i => slots &&& (1 <<< i) = 0

/-- The looks at the slots until one is free. -/
def waitCmdSlot (slots : ℕ → BitVec 32) : ℕ → ℕ → Option ℕ
  | 0, _ => none
  | left + 1, i =>
      match drvFindCmdSlotAhci (slots i) with
      | some slot => some slot
      | none => waitCmdSlot slots left (i + 1)

/-- The bytes of the next entry. -/
def chunkSize (bytesRemaining : SizeT) : SizeT :=
  if bytesRemaining > kPrdMaxBytes then kPrdMaxBytes else bytesRemaining

theorem chunkSize_toNat (bytesRemaining : SizeT) :
    (chunkSize bytesRemaining).toNat = min bytesRemaining.toNat 32768 := by
  have most : kPrdMaxBytes.toNat = 32768 := by decide
  unfold chunkSize
  split
  · next longer =>
      rw [gt_iff_lt, BitVec.lt_def] at longer
      omega
  · next fits =>
      rw [gt_iff_lt, BitVec.lt_def] at fits
      omega

theorem rest_toNat (bytesRemaining : SizeT) :
    (bytesRemaining - chunkSize bytesRemaining).toNat = bytesRemaining.toNat - 32768 := by
  have chunk := chunkSize_toNat bytesRemaining
  rw [BitVec.toNat_sub_of_le (by rw [BitVec.le_def]; omega)]
  omega

def prdtOf (bufferPhys : UIntPtr) (bytesRemaining : SizeT) : List HbaPrdtEntry :=
  if bytesRemaining = 0 then []
  else
    ⟨bufferPhys.setWidth 32, (bufferPhys >>> 32).setWidth 32, (chunkSize bytesRemaining - 1).setWidth 22, false⟩ ::
      prdtOf (bufferPhys + chunkSize bytesRemaining) (bytesRemaining - chunkSize bytesRemaining)
termination_by bytesRemaining.toNat
decreasing_by
  have positive : 0 < bytesRemaining.toNat := by bv_omega
  rw [rest_toNat]
  omega

def markLast : List HbaPrdtEntry → List HbaPrdtEntry
  | [] => []
  | [e] => [{ e with Ie := true }]
  | e :: rest => e :: markLast rest

def hostToDevice (write commandOrCtrl identify : Bool) (lba : Lba) (sizeBuffer : SizeT) : FisRegH2D where
  FisType := kFISTypeRegH2D
  CmdOrCtrl := commandOrCtrl
  Command :=
    if identify then kAHCICmdIdentify else if write then kAHCICmdWriteDmaEx else kAHCICmdReadDmaEx
  Lba0 := lba.setWidth 8
  Lba1 := (lba >>> 8).setWidth 8
  Lba2 := (lba >>> 16).setWidth 8
  Lba3 := (lba >>> 24).setWidth 8
  Lba4 := (lba >>> 32).setWidth 8
  Lba5 := (lba >>> 40).setWidth 8
  Device := if identify then 0 else kSATALBAMode
  CountLow := (ahciSectors identify sizeBuffer).setWidth 8
  CountHigh := (ahciSectors identify sizeBuffer >>> 8).setWidth 8

/-- The list is built from the address that the allocator returned, whatever it is. -/
def commandFor (write commandOrCtrl identify : Bool) (slot : ℕ) (ptr : UIntPtr) (lba : Lba)
    (sizeBuffer : SizeT) : AhciCommand where
  slot := slot
  Prdtl := BitVec.ofNat 16 (prdtOf ptr sizeBuffer).length
  Cfl := 5
  Write := write
  Prdt := markLast (prdtOf ptr sizeBuffer)
  Cfis := hostToDevice write commandOrCtrl identify lba sizeBuffer

/-- `drv_std_input_output_ahci` up to the command. Its test for bytes that are left finds none. -/
def drvStdInputOutputAhci (write commandOrCtrl identify : Bool) (port : HbaPort) (pool : DmaPool) (lba : Lba)
    (buffer : UIntPtr) (sectorSz sizeBuffer : SizeT) : AhciOutcome :=
  if sectorSz = 0 then .failed kErrorDisk
  else
    let lba := lba / sectorSz
    if buffer = 0 ∨ sizeBuffer = 0 then .failed kErrorDisk
    else
      match waitCmdSlot port.slots (kSlotTimeout + 2) 0 with
      | none => .failed kErrorDisk
      | some slot =>
          if port.header slot = 0 ∨ port.table slot = 0 then .stopped
          else
            let ptr := (rtlDmaAlloc sizeBuffer 4096 pool).1
            .issued (commandFor write commandOrCtrl identify slot ptr lba sizeBuffer)

/-- The entries are `size` bytes from `start` on, one after the other, none of more than 32 KiB. -/
inductive Tiles : UIntPtr → ℕ → List HbaPrdtEntry → Prop
  | none {start : UIntPtr} : Tiles start 0 []
  | next {start : UIntPtr} {size : ℕ} {e : HbaPrdtEntry} {rest : List HbaPrdtEntry} :
      e.base = start → e.bytes ≤ 32768 → Tiles (start + BitVec.ofNat 64 e.bytes) size rest →
      Tiles start (e.bytes + size) (e :: rest)

section Lists
variable {start : UIntPtr} {size : SizeT} {n : ℕ} {entries : List HbaPrdtEntry}

theorem prdtOf_tiles (start : UIntPtr) (size : SizeT) : Tiles start size.toNat (prdtOf start size) := by
  induction start, size using prdtOf.induct with
  | case1 start =>
      rw [prdtOf, if_pos rfl]
      exact .none
  | case2 start size more ih =>
      have positive : 0 < size.toNat := by bv_omega
      have chunk := chunkSize_toNat size
      rw [prdtOf, if_neg more]
      let e : HbaPrdtEntry :=
        ⟨start.setWidth 32, (start >>> 32).setWidth 32, (chunkSize size - 1).setWidth 22, false⟩
      have bytes : e.bytes = (chunkSize size).toNat := by
        have less : (chunkSize size - 1).toNat = (chunkSize size).toNat - 1 := by bv_omega
        show ((chunkSize size - 1).setWidth 22).toNat + 1 = _
        rw [BitVec.toNat_setWidth, less]
        omega
      have base : e.base = start := by
        show (start >>> 32).setWidth 32 ++ start.setWidth 32 = start
        apply BitVec.eq_of_getLsbD_eq
        intro i less
        rw [BitVec.getLsbD_append]
        split
        · next low => simp [low]
        · next high => simp [show i - 32 < 32 by omega, show 32 + (i - 32) = i by omega]
      have whole : size.toNat = e.bytes + (size - chunkSize size).toNat := by
        rw [bytes, rest_toNat]
        omega
      rw [whole]
      refine .next base (by omega) ?_
      rw [bytes, BitVec.ofNat_toNat, BitVec.setWidth_eq]
      exact ih

theorem prdtOf_length (start : UIntPtr) (size : SizeT) :
    (prdtOf start size).length = (size.toNat + 32767) / 32768 := by
  induction start, size using prdtOf.induct with
  | case1 start => rw [prdtOf, if_pos rfl]; rfl
  | case2 start size more ih =>
      have positive : 0 < size.toNat := by bv_omega
      rw [prdtOf, if_neg more, List.length_cons, ih, rest_toNat]
      omega

theorem markLast_length (entries : List HbaPrdtEntry) : (markLast entries).length = entries.length := by
  induction entries using markLast.induct with
  | case1 => rfl
  | case2 e => rfl
  | case3 e rest longer ih =>
      rw [markLast]
      · rw [List.length_cons, List.length_cons, ih]
      · exact longer

theorem Tiles.markLast (tiles : Tiles start n entries) : Tiles start n (markLast entries) := by
  induction tiles with
  | none => exact .none
  | @next start size e rest base bytes later ih =>
      cases rest with
      | nil =>
          cases later
          exact @Tiles.next start 0 { e with Ie := true } [] base bytes .none
      | cons second rest => exact .next base bytes ih

end Lists

/-- The arguments and the slots with which a command is issued. -/
def Issues (port : HbaPort) (buffer : UIntPtr) (sectorSz sizeBuffer : SizeT) (slot : ℕ) : Prop :=
  sectorSz ≠ 0 ∧ buffer ≠ 0 ∧ sizeBuffer ≠ 0 ∧ waitCmdSlot port.slots (kSlotTimeout + 2) 0 = some slot ∧
    port.header slot ≠ 0 ∧ port.table slot ≠ 0

/-- What makes the driver report an error instead. -/
def Rejects (port : HbaPort) (buffer : UIntPtr) (sectorSz sizeBuffer : SizeT) : Prop :=
  sectorSz = 0 ∨ buffer = 0 ∨ sizeBuffer = 0 ∨ waitCmdSlot port.slots (kSlotTimeout + 2) 0 = none

def AhciOutcome.sector : AhciOutcome → Option ℕ
  | .issued command => some command.Cfis.sector
  | _ => none

section Commands
variable {write commandOrCtrl identify : Bool} {port : HbaPort} {pool : DmaPool} {lba : Lba} {buffer : UIntPtr}
  {sectorSz sizeBuffer : SizeT} {slot left i : ℕ} {slots : ℕ → BitVec 32}

theorem waitCmdSlot_lt (free : waitCmdSlot slots left i = some slot) : slot < kSATAPortCnt := by
  induction left generalizing i with
  | zero => cases free
  | succ left ih =>
      rw [waitCmdSlot] at free
      split at free
      · next found =>
          cases free
          exact List.mem_range.mp (List.mem_of_find?_eq_some found)
      · exact ih free

theorem drvStdInputOutputAhci_rejects (rejects : Rejects port buffer sectorSz sizeBuffer) :
    drvStdInputOutputAhci write commandOrCtrl identify port pool lba buffer sectorSz sizeBuffer =
      .failed kErrorDisk := by
  unfold drvStdInputOutputAhci
  split
  · rfl
  · next sized =>
      split
      · rfl
      · next given =>
          rcases rejects with none | none | none | busy
          · exact absurd none sized
          · exact absurd (.inl none) given
          · exact absurd (.inr none) given
          · rw [busy]

theorem drvStdInputOutputAhci_issues (issues : Issues port buffer sectorSz sizeBuffer slot) :
    drvStdInputOutputAhci write commandOrCtrl identify port pool lba buffer sectorSz sizeBuffer =
      .issued (commandFor write commandOrCtrl identify slot (rtlDmaAlloc sizeBuffer 4096 pool).1
        (lba / sectorSz) sizeBuffer) := by
  obtain ⟨sized, given, filled, free, header, table⟩ := issues
  unfold drvStdInputOutputAhci
  rw [if_neg sized]
  dsimp only
  rw [if_neg (not_or.mpr ⟨given, filled⟩), free]
  dsimp only
  rw [if_neg (not_or.mpr ⟨header, table⟩)]

theorem commandFor_sector {ptr : UIntPtr} :
    (commandFor write commandOrCtrl identify slot ptr lba sizeBuffer).Cfis.sector = lba.toNat % 2 ^ 48 := by
  unfold commandFor hostToDevice FisRegH2D.sector
  simp only [BitVec.toNat_setWidth, BitVec.toNat_ushiftRight, Nat.shiftRight_eq_div_pow]
  omega

theorem issues_of_ready (ready : port.Ready) (accepted : ¬ Rejects port buffer sectorSz sizeBuffer) :
    ∃ slot, Issues port buffer sectorSz sizeBuffer slot := by
  unfold Rejects at accepted
  obtain ⟨sized, given, filled, free⟩ := not_or.mp accepted |>.imp_right fun rest =>
    not_or.mp rest |>.imp_right not_or.mp
  obtain ⟨slot, free⟩ := Option.ne_none_iff_exists'.mp free
  have low := waitCmdSlot_lt free
  exact ⟨slot, sized, given, filled, free, ready.header slot low, ready.table slot low⟩

end Commands

/-! ## The list and its table -/

structure Scatters (chunk : UIntPtr) (size : SizeT) (command : AhciCommand) : Prop where
  granted : chunk ≠ 0
  tiles : Tiles chunk size.toNat command.Prdt
  counted : command.Prdtl.toNat = command.Prdt.length
  fits : HbaPrdtEntry.first + HbaPrdtEntry.size * command.Prdt.length ≤ kCommandTableSize

/-- An error comes before the command, or the list is over the chunk of the pool that was handed out. -/
def ScattersOrFails (pool : DmaPool) (size : SizeT) : AhciOutcome → Prop
  | .failed _ => True
  | .stopped => False
  | .issued command => Scatters (rtlDmaAlloc size 4096 pool).1 size command

theorem drvStdInputOutputAhci_scatters_iff {port : HbaPort} (ready : port.Ready)
    (write commandOrCtrl identify : Bool) (pool : DmaPool) (lba : Lba) (buffer : UIntPtr)
    (sectorSz sizeBuffer : SizeT) :
    ScattersOrFails pool sizeBuffer
        (drvStdInputOutputAhci write commandOrCtrl identify port pool lba buffer sectorSz sizeBuffer) ↔
      Rejects port buffer sectorSz sizeBuffer ∨
      ((rtlDmaAlloc sizeBuffer 4096 pool).1 ≠ 0 ∧ sizeBuffer.toNat ≤ 248 * 32768) := by
  by_cases rejects : Rejects port buffer sectorSz sizeBuffer
  · rw [drvStdInputOutputAhci_rejects rejects]
    exact iff_of_true trivial (.inl rejects)
  obtain ⟨slot, issues⟩ := issues_of_ready ready rejects
  rw [drvStdInputOutputAhci_issues issues]
  have entries : (commandFor write commandOrCtrl identify slot (rtlDmaAlloc sizeBuffer 4096 pool).1
      (lba / sectorSz) sizeBuffer).Prdt.length = (sizeBuffer.toNat + 32767) / 32768 :=
    (markLast_length _).trans (prdtOf_length _ _)
  constructor
  · intro scatters
    have room := scatters.fits
    rw [entries] at room
    unfold HbaPrdtEntry.first HbaPrdtEntry.size kCommandTableSize at room
    exact .inr ⟨scatters.granted, by omega⟩
  · intro small
    obtain ⟨granted, small⟩ := small.resolve_left rejects
    constructor
    case granted => exact granted
    case tiles => exact (prdtOf_tiles _ _).markLast
    case counted =>
      show (BitVec.ofNat 16 (prdtOf _ _).length).toNat = _
      rw [entries, prdtOf_length, BitVec.toNat_ofNat]
      omega
    case fits =>
      rw [entries]
      unfold HbaPrdtEntry.first HbaPrdtEntry.size kCommandTableSize
      omega

/-- A port with free slots and the structures of its initialisation. -/
def idlePort : HbaPort :=
  ⟨fun _ => 0, 0x1000000, fun slot => BitVec.ofNat 32 (0x1001000 + 4096 * slot), fun _ => 0⟩

theorem idlePort_ready : idlePort.Ready := ⟨by decide, by decide⟩

theorem idlePort_slot : waitCmdSlot idlePort.slots (kSlotTimeout + 2) 0 = some 0 := by
  rw [waitCmdSlot]
  rfl

theorem drvStdInputOutputAhci_scatters_iff_sector :
    ScattersOrFails start.pool 512
      (drvStdInputOutputAhci false true false idlePort start.pool 1024 0x5000 512 512) :=
  (drvStdInputOutputAhci_scatters_iff idlePort_ready _ _ _ _ _ _ _ _).mpr (.inr ⟨by decide, by decide⟩)

/-- One byte more than the table has entries for. -/
theorem drvStdInputOutputAhci_overruns :
    ¬ ∀ (port : HbaPort), port.Ready → ∀ (write commandOrCtrl identify : Bool) (pool : DmaPool) (lba : Lba)
      (buffer : UIntPtr) (sectorSz sizeBuffer : SizeT), ScattersOrFails pool sizeBuffer
        (drvStdInputOutputAhci write commandOrCtrl identify port pool lba buffer sectorSz sizeBuffer) := by
  intro scatters
  have issues : Issues idlePort 0x5000 512 8126465 0 :=
    ⟨by decide, by decide, by decide, idlePort_slot, by decide, by decide⟩
  have wrong := scatters idlePort idlePort_ready false true false start.pool 1024 0x5000 512 8126465
  rw [drvStdInputOutputAhci_issues issues] at wrong
  have room := Scatters.fits wrong
  have entries := (markLast_length _).trans (prdtOf_length (rtlDmaAlloc 8126465 4096 start.pool).1 8126465)
  unfold commandFor at room
  dsimp only at room
  rw [entries] at room
  exact absurd room (by decide)

/-! ## StorageKit and the drive manager -/

structure DrivePacket where
  fPacketContent : UIntPtr
  fPacketSize : SizeT
  fPacketLba : Lba
  fPacketReadOnly : Bool

/-- The packets of the mounted drives. -/
structure IMountpoint where
  mA : DrivePacket
  mB : DrivePacket
  mC : DrivePacket
  mD : DrivePacket

def IMountpoint.getAddressOf (mnt : IMountpoint) (index : BitVec 32) : Option DrivePacket :=
  if index = 0 then some mnt.mA
  else if index = 1 then some mnt.mB
  else if index = 2 then some mnt.mC
  else if index = 3 then some mnt.mD
  else none

namespace AHCI

def drvStdRead (port : HbaPort) (pool : DmaPool) (lba : Lba) (buffer : UIntPtr)
    (sectorSz sizeBuffer : SizeT) : AhciOutcome :=
  drvStdInputOutputAhci false true false port pool lba buffer sectorSz sizeBuffer

def drvStdWrite (port : HbaPort) (pool : DmaPool) (lba : Lba) (buffer : UIntPtr)
    (sectorSz sizeBuffer : SizeT) : AhciOutcome :=
  drvStdInputOutputAhci true true false port pool lba buffer sectorSz sizeBuffer

end AHCI

/-- `io_drv_input` of a kernel that is built for AHCI. -/
def ioDrvInput (port : HbaPort) (pool : DmaPool) (pckt : DrivePacket) : AhciOutcome :=
  AHCI.drvStdRead port pool pckt.fPacketLba pckt.fPacketContent kAHCISectorSize pckt.fPacketSize

/-- `none` for a packet that is only marked as not good. -/
def ioDrvOutput (port : HbaPort) (pool : DmaPool) (pckt : DrivePacket) : Option AhciOutcome :=
  if pckt.fPacketReadOnly then none
  else if ¬ pckt.fPacketReadOnly ∧ pckt.fPacketLba = 0 then none
  else some (AHCI.drvStdWrite port pool pckt.fPacketLba pckt.fPacketContent kAHCISectorSize pckt.fPacketSize)

/-- `sk_io_read_ahci` of a device, which holds the index of its drive. -/
def skIoReadAhci (port : HbaPort) (pool : DmaPool) (dev : Option (BitVec 32)) (mnt : IMountpoint) :
    Option AhciOutcome := do
  let index ← dev
  let disk ← mnt.getAddressOf index
  some (drvStdInputOutputAhci false true false port pool (disk.fPacketLba / kAHCISectorSize)
    disk.fPacketContent kAHCISectorSize disk.fPacketSize)

def skIoWriteAhci (port : HbaPort) (pool : DmaPool) (dev : Option (BitVec 32)) (mnt : IMountpoint) :
    Option AhciOutcome := do
  let index ← dev
  let disk ← mnt.getAddressOf index
  some (drvStdInputOutputAhci true true false port pool (disk.fPacketLba / kAHCISectorSize)
    disk.fPacketContent kAHCISectorSize disk.fPacketSize)

/-- The packet of the drive goes to the same sector both ways, or to none. -/
structure Agree (port : HbaPort) (pool : DmaPool) (mnt : IMountpoint) (index : BitVec 32)
    (pckt : DrivePacket) : Prop where
  reads : (skIoReadAhci port pool (some index) mnt).bind AhciOutcome.sector = (ioDrvInput port pool pckt).sector
  writes : (skIoWriteAhci port pool (some index) mnt).bind AhciOutcome.sector =
    (ioDrvOutput port pool pckt).bind AhciOutcome.sector

/-- The sector of the byte address is 0, or so far out that dividing it by 512 once more only drops what the
48 bits of a command drop. -/
def SameSector (lba : Lba) : Prop := ∃ k < 128, lba.toNat / 512 = k * 2 ^ 48 + k * 2 ^ 48 / 511

section Agreement
variable {write commandOrCtrl identify : Bool} {port : HbaPort} {pool : DmaPool} {lba : Lba} {buffer : UIntPtr}
  {sectorSz sizeBuffer : SizeT} {slot : ℕ} {mnt : IMountpoint} {index : BitVec 32} {pckt : DrivePacket}

/-- A remainder of 511 would make 511 a divisor of `k * 2 ^ 48`. -/
theorem remainder_proper {a k r : ℕ} (less : k < 128) (parts : 511 * a + r = k * 2 ^ 48) (small : r < 512) :
    r < 511 := by
  by_contra full
  obtain rfl : r = 511 := Nat.le_antisymm (Nat.le_of_lt_succ small) (Nat.not_lt.mp full)
  have divides : 511 ∣ k * 2 ^ 48 := ⟨a + 1, parts.symm⟩
  have least : 511 ∣ k := (by decide : Nat.Coprime 511 (2 ^ 48)).dvd_of_dvd_mul_right divides
  obtain rfl := Nat.eq_zero_of_dvd_of_lt least (Nat.lt_trans less (by decide))
  rw [Nat.zero_mul] at parts
  exact absurd parts (by simp)

theorem wrap_iff {q : ℕ} (small : q < 2 ^ 55) :
    q / 512 % 2 ^ 48 = q % 2 ^ 48 ↔ ∃ k < 128, q = k * 2 ^ 48 + k * 2 ^ 48 / 511 := by
  constructor
  · intro same
    have low : q / 512 % 2 ^ 48 = q / 512 :=
      Nat.mod_eq_of_lt (Nat.div_lt_of_lt_mul (Nat.lt_trans small (by decide)))
    rw [low] at same
    have parts := Nat.div_add_mod q (2 ^ 48)
    generalize q / 2 ^ 48 = k at parts
    have less : k < 128 := by omega
    have ninths : 511 * (q / 512) + q % 512 = k * 2 ^ 48 := by omega
    have proper := remainder_proper less ninths (Nat.mod_lt q (by decide))
    have quotient : k * 2 ^ 48 / 511 = q / 512 := by omega
    exact ⟨k, less, by omega⟩
  · rintro ⟨k, less, place⟩
    have split := Nat.div_add_mod (k * 2 ^ 48) 511
    have proper := Nat.mod_lt (k * 2 ^ 48) (by decide : 511 > 0)
    generalize k * 2 ^ 48 / 511 = a at *
    have quotient : q / 512 = a := by omega
    rw [quotient, place, Nat.mul_comm, Nat.mul_add_mod]

theorem sameSector_iff : (lba / 512 / 512).toNat % 2 ^ 48 = (lba / 512).toNat % 2 ^ 48 ↔ SameSector lba := by
  have bound := lba.isLt
  have sector : (512 : BitVec 64).toNat = 512 := rfl
  rw [BitVec.toNat_udiv, BitVec.toNat_udiv, sector]
  exact wrap_iff (by omega)

theorem sector_none (idle : ∀ slot, ¬ Issues port buffer sectorSz sizeBuffer slot) :
    (drvStdInputOutputAhci write commandOrCtrl identify port pool lba buffer sectorSz sizeBuffer).sector =
      none := by
  by_cases rejects : Rejects port buffer sectorSz sizeBuffer
  · rw [drvStdInputOutputAhci_rejects rejects]
    rfl
  unfold Rejects at rejects
  obtain ⟨sized, rest⟩ := not_or.mp rejects
  obtain ⟨given, rest⟩ := not_or.mp rest
  obtain ⟨filled, free⟩ := not_or.mp rest
  obtain ⟨slot, free⟩ := Option.ne_none_iff_exists'.mp free
  have stops : port.header slot = 0 ∨ port.table slot = 0 := by
    by_contra live
    obtain ⟨header, table⟩ := not_or.mp live
    exact idle slot ⟨sized, given, filled, free, header, table⟩
  unfold drvStdInputOutputAhci
  rw [if_neg sized]
  dsimp only
  rw [if_neg (not_or.mpr ⟨given, filled⟩), free]
  dsimp only
  rw [if_pos stops]
  rfl

theorem sector_some (issues : Issues port buffer sectorSz sizeBuffer slot) :
    (drvStdInputOutputAhci write commandOrCtrl identify port pool lba buffer sectorSz sizeBuffer).sector =
      some ((lba / sectorSz).toNat % 2 ^ 48) := by
  rw [drvStdInputOutputAhci_issues issues]
  exact congrArg some commandFor_sector

theorem reads_agree_iff (mounted : mnt.getAddressOf index = some pckt) :
    (skIoReadAhci port pool (some index) mnt).bind AhciOutcome.sector = (ioDrvInput port pool pckt).sector ↔
      (∀ slot, ¬ Issues port pckt.fPacketContent kAHCISectorSize pckt.fPacketSize slot) ∨
      SameSector pckt.fPacketLba := by
  have read : skIoReadAhci port pool (some index) mnt = some (drvStdInputOutputAhci false true false port pool
      (pckt.fPacketLba / kAHCISectorSize) pckt.fPacketContent kAHCISectorSize pckt.fPacketSize) := by
    simp [skIoReadAhci, mounted]
  rw [read, Option.bind_some, ioDrvInput, AHCI.drvStdRead]
  by_cases idle : ∀ slot, ¬ Issues port pckt.fPacketContent kAHCISectorSize pckt.fPacketSize slot
  · rw [sector_none idle, sector_none idle]
    exact iff_of_true rfl (.inl idle)
  · obtain ⟨slot, issues⟩ := not_forall_not.mp idle
    rw [sector_some issues, sector_some issues, Option.some_inj, or_iff_right idle]
    exact sameSector_iff

theorem writes_agree_iff (mounted : mnt.getAddressOf index = some pckt) :
    (skIoWriteAhci port pool (some index) mnt).bind AhciOutcome.sector =
        (ioDrvOutput port pool pckt).bind AhciOutcome.sector ↔
      (∀ slot, ¬ Issues port pckt.fPacketContent kAHCISectorSize pckt.fPacketSize slot) ∨
      (pckt.fPacketReadOnly = false ∧ pckt.fPacketLba ≠ 0 ∧ SameSector pckt.fPacketLba) := by
  have write : skIoWriteAhci port pool (some index) mnt = some (drvStdInputOutputAhci true true false port pool
      (pckt.fPacketLba / kAHCISectorSize) pckt.fPacketContent kAHCISectorSize pckt.fPacketSize) := by
    simp [skIoWriteAhci, mounted]
  rw [write, Option.bind_some, ioDrvOutput, AHCI.drvStdWrite]
  by_cases idle : ∀ slot, ¬ Issues port pckt.fPacketContent kAHCISectorSize pckt.fPacketSize slot
  · refine iff_of_true ?_ (.inl idle)
    rw [sector_none idle]
    split
    · rfl
    · split
      · rfl
      · exact (sector_none idle).symm
  · obtain ⟨slot, issues⟩ := not_forall_not.mp idle
    rw [sector_some issues, or_iff_right idle]
    split
    · next fixed => simp [fixed]
    · next writable =>
        split
        · next zero => simp [zero]
        · next started =>
            rw [Option.bind_some, sector_some issues, Option.some_inj]
            have plain : pckt.fPacketReadOnly = false := by simpa using writable
            have above : pckt.fPacketLba ≠ 0 := fun zero => started ⟨writable, zero⟩
            rw [and_iff_right plain, and_iff_right above]
            exact sameSector_iff

end Agreement

theorem sk_drv_agree_iff {port : HbaPort} {pool : DmaPool} {mnt : IMountpoint} {index : BitVec 32}
    {pckt : DrivePacket} (mounted : mnt.getAddressOf index = some pckt) :
    Agree port pool mnt index pckt ↔
      (∀ slot, ¬ Issues port pckt.fPacketContent kAHCISectorSize pckt.fPacketSize slot) ∨
      (pckt.fPacketReadOnly = false ∧ pckt.fPacketLba ≠ 0 ∧ SameSector pckt.fPacketLba) := by
  constructor
  · intro agree
    exact (writes_agree_iff mounted).mp agree.writes
  · intro meets
    exact ⟨(reads_agree_iff mounted).mpr (meets.imp_right fun same => same.2.2),
      (writes_agree_iff mounted).mpr meets⟩

/-- The byte behind the first two sectors, and one of the first sector. -/
def thirdSector : DrivePacket := ⟨0x5000, 512, 1024, false⟩
def firstSector : DrivePacket := ⟨0x5000, 512, 7, false⟩

theorem sk_drv_agree_iff_first :
    Agree idlePort start.pool ⟨firstSector, thirdSector, thirdSector, thirdSector⟩ 0 firstSector :=
  (sk_drv_agree_iff rfl).mpr (.inr ⟨rfl, by decide, 0, by decide, by decide⟩)

theorem sk_divides_twice :
    ¬ ∀ (port : HbaPort) (pool : DmaPool) (mnt : IMountpoint) (index : BitVec 32) (pckt : DrivePacket),
      mnt.getAddressOf index = some pckt → Agree port pool mnt index pckt := by
  intro agree
  have issues : Issues idlePort 0x5000 512 512 0 :=
    ⟨by decide, by decide, by decide, idlePort_slot, by decide, by decide⟩
  have reads := (agree idlePort start.pool ⟨thirdSector, thirdSector, thirdSector, thirdSector⟩ 0 thirdSector
    rfl).reads
  have kit := @sector_some false true false idlePort start.pool (1024 / 512) 0x5000 512 512 0 issues
  have manager := @sector_some false true false idlePort start.pool 1024 0x5000 512 512 0 issues
  exact absurd (kit.symm.trans (reads.trans manager)) (by decide)

end Ne.Kernel.Storage
