import NeKernel.Lib.Cells
import NeKernel.Ldr.NameMangling
import NeKernel.Lib.Moves
import NeKernel.Storage.AHCICommands

/-!
# The structures of the AHCI driver in memory

The header and the table of a command as the driver stores them into the command list of its port, and what a
controller finds there.
-/

namespace Ne.Kernel.Storage
open ByteMem Dma
open Ldr (rtCopyMemory)

/-! ## Layouts -/

namespace HbaCmdHeader
def size : ℕ := 32
def Flags : Field := { off := 0, size := 1 }
abbrev Cfl : BitMember := { field := Flags, low := 0, width := 5 }
abbrev Write : BitMember := { field := Flags, low := 6, width := 1 }
abbrev Prdtl : BitMember := { field := { off := 2, size := 2 }, low := 0, width := 16 }
def Ctba : Field := { off := 8, size := 4 }
def Ctbau : Field := { off := 12, size := 4 }
end HbaCmdHeader

namespace HbaCmdTbl
/-- With one entry. -/
def size : ℕ := 144
end HbaCmdTbl

namespace PrdtCell
abbrev Dba : BitMember := { field := { off := 0, size := 4 }, low := 0, width := 32 }
abbrev Dbau : BitMember := { field := { off := 4, size := 4 }, low := 0, width := 32 }
def dword3 : Field := { off := 12, size := 4 }
abbrev Dbc : BitMember := { field := dword3, low := 0, width := 22 }
abbrev Ie : BitMember := { field := dword3, low := 31, width := 1 }
end PrdtCell

namespace FisCell
def size : ℕ := 20
abbrev byte (off : ℕ) (fits : (off + 1).ble (2 ^ 16) = true := by exact Eq.refl true) : BitMember :=
  { field := { off := off, size := 1, doesFit := fits }, low := 0, width := 8 }
abbrev FisType : BitMember := byte 0
abbrev CmdOrCtrl : BitMember := { field := { off := 1, size := 1 }, low := 7, width := 1 }
abbrev Command : BitMember := byte 2
abbrev Lba0 : BitMember := byte 4
abbrev Lba1 : BitMember := byte 5
abbrev Lba2 : BitMember := byte 6
abbrev Device : BitMember := byte 7
abbrev Lba3 : BitMember := byte 8
abbrev Lba4 : BitMember := byte 9
abbrev Lba5 : BitMember := byte 10
abbrev CountLow : BitMember := byte 12
abbrev CountHigh : BitMember := byte 13
end FisCell

/-! ## Cells -/

def HbaPrdtEntry.members (e : HbaPrdtEntry) : List (Σ b : BitMember, BitVec b.width) :=
  [⟨PrdtCell.Dba, e.Dba⟩, ⟨PrdtCell.Dbau, e.Dbau⟩, ⟨PrdtCell.Dbc, e.Dbc⟩, ⟨PrdtCell.Ie, BitVec.ofBool e.Ie⟩]

def HbaPrdtEntry.at (m : Memory) (a : UIntPtr) : HbaPrdtEntry where
  Dba := PrdtCell.Dba.on m a
  Dbau := PrdtCell.Dbau.on m a
  Dbc := PrdtCell.Dbc.on m a
  Ie := (PrdtCell.Ie.on m a).getLsbD 0

def FisRegH2D.members (fis : FisRegH2D) : List (Σ b : BitMember, BitVec b.width) :=
  [⟨FisCell.FisType, fis.FisType⟩, ⟨FisCell.CmdOrCtrl, BitVec.ofBool fis.CmdOrCtrl⟩, ⟨FisCell.Command, fis.Command⟩,
    ⟨FisCell.Lba0, fis.Lba0⟩, ⟨FisCell.Lba1, fis.Lba1⟩, ⟨FisCell.Lba2, fis.Lba2⟩, ⟨FisCell.Lba3, fis.Lba3⟩,
    ⟨FisCell.Lba4, fis.Lba4⟩, ⟨FisCell.Lba5, fis.Lba5⟩, ⟨FisCell.Device, fis.Device⟩,
    ⟨FisCell.CountLow, fis.CountLow⟩, ⟨FisCell.CountHigh, fis.CountHigh⟩]

def FisRegH2D.at (m : Memory) (a : UIntPtr) : FisRegH2D where
  FisType := FisCell.FisType.on m a
  CmdOrCtrl := (FisCell.CmdOrCtrl.on m a).getLsbD 0
  Command := FisCell.Command.on m a
  Lba0 := FisCell.Lba0.on m a
  Lba1 := FisCell.Lba1.on m a
  Lba2 := FisCell.Lba2.on m a
  Device := FisCell.Device.on m a
  Lba3 := FisCell.Lba3.on m a
  Lba4 := FisCell.Lba4.on m a
  Lba5 := FisCell.Lba5.on m a
  CountLow := FisCell.CountLow.on m a
  CountHigh := FisCell.CountHigh.on m a

theorem prdt_apart : ([PrdtCell.Dba, PrdtCell.Dbau, PrdtCell.Dbc, PrdtCell.Ie] : List BitMember).Pairwise
    BitMember.Apart := by decide

theorem fis_apart : ([FisCell.FisType, FisCell.CmdOrCtrl, FisCell.Command, FisCell.Lba0, FisCell.Lba1, FisCell.Lba2,
    FisCell.Lba3, FisCell.Lba4, FisCell.Lba5, FisCell.Device, FisCell.CountLow, FisCell.CountHigh] :
    List BitMember).Pairwise BitMember.Apart := by decide

def HbaPrdtEntry.cell : Cell HbaPrdtEntry where
  size := HbaPrdtEntry.size
  put e := BitMember.putAll e.members
  get := HbaPrdtEntry.at
  got e a m := by
    have stored := @BitMember.on_putAll a m e.members prdt_apart
    generalize BitMember.putAll e.members a m = m' at stored
    simp only [members, List.forall_mem_cons] at stored
    obtain ⟨dba, dbau, dbc, ie, -⟩ := stored
    unfold HbaPrdtEntry.at
    rw [dba, dbau, dbc, ie]
    simp
  frame e a m := BitMember.putAll_sameOutside (by simp [members, HbaPrdtEntry.size, PrdtCell.dword3])
  depends a m m' same := by
    unfold HbaPrdtEntry.at
    rw [BitMember.on_of_same (by decide) same, BitMember.on_of_same (by decide) same,
      BitMember.on_of_same (by decide) same, BitMember.on_of_same (by decide) same]

def FisRegH2D.cell : Cell FisRegH2D where
  size := FisCell.size
  put fis := BitMember.putAll fis.members
  get := FisRegH2D.at
  got fis a m := by
    have stored := @BitMember.on_putAll a m fis.members fis_apart
    generalize BitMember.putAll fis.members a m = m' at stored
    simp only [members, List.forall_mem_cons] at stored
    obtain ⟨type, control, command, lba0, lba1, lba2, lba3, lba4, lba5, device, low, high, -⟩ := stored
    unfold FisRegH2D.at
    rw [type, control, command, lba0, lba1, lba2, lba3, lba4, lba5, device, low, high]
    simp
  frame fis a m := BitMember.putAll_sameOutside (by simp [members, FisCell.size])
  depends a m m' same := by
    unfold FisRegH2D.at
    iterate 12 rw [BitMember.on_of_same (by decide) same]

/-! ## Commands -/

/-- What `drv_std_input_output_ahci` is instantiated for. -/
inductive AhciKind where
  | identify
  | read
  | write
  deriving DecidableEq

structure AhciIo where
  kind : AhciKind
  lba : Lba
  buffer : UIntPtr
  sectorSz : SizeT
  sizeBuffer : SizeT

def AhciCommand.headerMembers (command : AhciCommand) : List (Σ b : BitMember, BitVec b.width) :=
  [⟨HbaCmdHeader.Prdtl, command.Prdtl⟩, ⟨HbaCmdHeader.Cfl, command.Cfl⟩,
    ⟨HbaCmdHeader.Write, BitVec.ofBool command.Write⟩]

/-- The list, the header and the FIS of a command. -/
def AhciCommand.put (command : AhciCommand) (header table : UIntPtr) (mem : Memory) : Memory :=
  FisRegH2D.cell.put command.Cfis table
    (BitMember.putAll command.headerMembers header
      (HbaPrdtEntry.cell.putList command.Prdt (table + BitVec.ofNat 64 HbaPrdtEntry.first) mem))

/-- The table is cleared, and what is to be written is copied into the chunk of the pool. -/
def AhciIo.stage (io : AhciIo) (table ptr : UIntPtr) (mem : Memory) : Memory :=
  let mem := rtSetMemory table 0 HbaCmdTbl.size mem
  if io.kind = .write then (rtCopyMemory io.buffer ptr io.sizeBuffer.toNat mem).val else mem

def ctbaOf (mem : Memory) (header : UIntPtr) : BitVec 32 := (HbaCmdHeader.Ctba.on mem header).setWidth 32
def ctbauOf (mem : Memory) (header : UIntPtr) : BitVec 32 := (HbaCmdHeader.Ctbau.on mem header).setWidth 32

/-- What a controller finds for a slot of the command list at `clb`. -/
def AhciCommand.at (mem : Memory) (clb : UIntPtr) (slot : ℕ) : AhciCommand :=
  let header := clb + BitVec.ofNat 64 (HbaCmdHeader.size * slot)
  let table : UIntPtr := ctbauOf mem header ++ ctbaOf mem header
  let Prdtl := HbaCmdHeader.Prdtl.on mem header
  { slot, Prdtl
    Cfl := HbaCmdHeader.Cfl.on mem header
    Write := (HbaCmdHeader.Write.on mem header).getLsbD 0
    Prdt := HbaPrdtEntry.cell.getList mem (table + BitVec.ofNat 64 HbaPrdtEntry.first) Prdtl.toNat
    Cfis := FisRegH2D.cell.get mem table }

theorem header_apart : ([HbaCmdHeader.Prdtl, HbaCmdHeader.Cfl, HbaCmdHeader.Write] : List BitMember).Pairwise
    BitMember.Apart := by decide

section Stores
variable {io : AhciIo} {header table ptr clb x : UIntPtr} {command : AhciCommand} {mem : Memory}

theorem rtSetMemory_outside {len n : ℕ} (inside : len ≤ n) (outside : ¬ Within table n x) :
    rtSetMemory table 0 len mem x = mem x := by
  unfold rtSetMemory
  split_ifs
  · rfl
  · exact write_outside fun cleared => outside (by simpa using cleared.mono (by simpa using inside))

theorem rtCopyMemory_outside {dst src : UIntPtr} {len : ℕ} (outside : ¬ Within dst len x) :
    (rtCopyMemory src dst len mem).val x = mem x := by
  unfold rtCopyMemory
  split_ifs
  · rfl
  · rfl
  · have kept := @copyWords_same dst src len 1 mem x
    rw [Nat.mul_one] at kept
    exact kept outside

theorem stage_outside (noTable : ¬ Within table kCommandTableSize x) (noChunk : ¬ Within ptr io.sizeBuffer.toNat x) :
    io.stage table ptr mem x = mem x := by
  unfold AhciIo.stage
  split_ifs
  · rw [rtCopyMemory_outside noChunk, rtSetMemory_outside (by decide) noTable]
  · exact rtSetMemory_outside (by decide) noTable

theorem header_same : SameOutside header 4 mem (BitMember.putAll command.headerMembers header mem) :=
  BitMember.putAll_sameOutside (by simp [AhciCommand.headerMembers, HbaCmdHeader.Flags])

/-- A command is stored into its header and its table. -/
theorem put_outside (short : command.Prdt.length ≤ 248) (noHeader : ¬ Within header 4 x)
    (noTable : ¬ Within table kCommandTableSize x) : command.put header table mem x = mem x := by
  have list : 128 + 16 * command.Prdt.length ≤ 4096 := by omega
  unfold AhciCommand.put
  rw [FisRegH2D.cell.frame _ _ _ x fun inside => noTable (inside.mono (by decide)), header_same x noHeader,
    Cell.putList_sameOutside x fun inside => noTable (inside.of_offset _ list)]

variable (apart : Apart header HbaCmdHeader.size table kCommandTableSize) (short : command.Prdt.length ≤ 248)
include apart

theorem put_header : ∀ member ∈ command.headerMembers,
    member.1.on (command.put header table mem) header = member.2 := by
  intro member among
  have small : member.1.field.off + member.1.field.size ≤ 4 := by
    have bounds : ∀ m ∈ command.headerMembers, m.1.field.off + m.1.field.size ≤ 4 := by
      simp [AhciCommand.headerMembers, HbaCmdHeader.Flags]
    exact bounds member among
  unfold AhciCommand.put
  rw [BitMember.on_of_same small fun x inside => FisRegH2D.cell.frame _ _ _ x fun other =>
    apart x (inside.mono (by decide)) (other.mono (by decide))]
  exact @BitMember.on_putAll header _ command.headerMembers header_apart member among

include short in
theorem put_list : HbaPrdtEntry.cell.getList (command.put header table mem)
    (table + BitVec.ofNat 64 HbaPrdtEntry.first) command.Prdt.length = command.Prdt := by
  have behind : Apart table 20 (table + BitVec.ofNat 64 128) (16 * command.Prdt.length) :=
    Apart.behind (by decide) (by omega)
  have inTable : 128 + 16 * command.Prdt.length ≤ 4096 := by omega
  have stored := @Cell.getList_putList _ HbaPrdtEntry.cell (table + BitVec.ofNat 64 HbaPrdtEntry.first) mem
    command.Prdt (by show 16 * command.Prdt.length ≤ _; omega)
  unfold AhciCommand.put
  refine (Cell.getList_congr fun x inside => ?_).trans stored
  have noFis := FisRegH2D.cell.frame command.Cfis table (BitMember.putAll command.headerMembers header
    (HbaPrdtEntry.cell.putList command.Prdt (table + BitVec.ofNat 64 HbaPrdtEntry.first) mem)) x
      fun early => behind x early inside
  rw [noFis, header_same x fun other => apart x (other.mono (by decide)) (inside.of_offset 128 inTable)]

include short in
theorem put_pointer : ctbauOf (command.put header table mem) header ++ ctbaOf (command.put header table mem) header =
    ctbauOf mem header ++ ctbaOf mem header := by
  have kept (f : Field) (low : 4 ≤ f.off) (high : f.off + f.size ≤ 32) :
      f.on (command.put header table mem) header = f.on mem header := by
    have front : Apart header 4 (header + BitVec.ofNat 64 f.off) f.size := Apart.behind low (by omega)
    exact Field.on_congr fun x inside => put_outside short (fun early => front x early inside)
      (apart x (inside.of_offset f.off high))
  rw [ctbauOf, ctbaOf, kept HbaCmdHeader.Ctba (by decide) (by decide), kept HbaCmdHeader.Ctbau (by decide) (by decide)]
  rfl

include short in
/-- A controller finds the command that was stored. -/
theorem at_put (counted : command.Prdtl.toNat = command.Prdt.length)
    (start : header = clb + BitVec.ofNat 64 (32 * command.slot))
    (listed : ctbauOf mem header ++ ctbaOf mem header = table) :
    AhciCommand.at (command.put header table mem) clb command.slot = command := by
  have same := (@put_pointer header table command mem apart short).trans listed
  have list := @put_list header table command mem apart short
  have stored := @put_header header table command mem apart
  have fis : FisRegH2D.cell.get (command.put header table mem) table = command.Cfis := FisRegH2D.cell.got _ _ _
  simp only [AhciCommand.headerMembers, List.forall_mem_cons] at stored
  obtain ⟨prdtl, cfl, write, -⟩ := stored
  unfold AhciCommand.at HbaCmdHeader.size
  dsimp only
  rw [← start, same, prdtl, cfl, write, fis, counted, list]
  simp

end Stores

end Ne.Kernel.Storage
