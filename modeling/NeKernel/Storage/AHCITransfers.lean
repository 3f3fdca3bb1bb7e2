import NeKernel.Lib.Runs
import NeKernel.Storage.AHCIStructures

/-!
# Transfers of the AHCI driver

The driver beside a controller that finds its commands in the memory of the kernel and serves them in any order. The
driver waits for one command, but it gives up after a while, and the command may be served later.
-/

namespace Ne.Kernel.Storage
open ByteMem Dma Runs
open Ldr (rtCopyMemory)

def kErrorDiskIsCorrupted : Int := 54

/-! ## The structures -/

/-- The tables from a slot on: each is put into its header and cleared. -/
def initTables (mmGetPageAddr : UIntPtr → UIntPtr) (clbMem : UIntPtr) :
    ℕ → ℕ → Memory × DmaPool → Bool × Memory × DmaPool
  | 0, _, s => (true, s)
  | left + 1, i, (mem, pool) =>
      let (ctMem, pool) := rtlDmaAlloc 4096 128 pool
      if ctMem = 0 then (false, mem, pool)
      else
        let ctPhys := mmGetPageAddr ctMem
        let header := clbMem + BitVec.ofNat 64 (HbaCmdHeader.size * i)
        let mem := HbaCmdHeader.Ctba.put (ctPhys &&& 0xFFFFFFFF) header mem
        let mem := HbaCmdHeader.Ctbau.put (ctPhys >>> 32) header mem
        initTables mmGetPageAddr clbMem left (i + 1) (rtSetMemory ctMem 0 4096 mem, pool)

theorem initTables_succ {mmGetPageAddr : UIntPtr → UIntPtr} {clbMem : UIntPtr} {left i : ℕ} {mem : Memory}
    {pool : DmaPool} : initTables mmGetPageAddr clbMem (left + 1) i (mem, pool) =
      if (rtlDmaAlloc 4096 128 pool).1 = 0 then (false, mem, (rtlDmaAlloc 4096 128 pool).2)
      else
        initTables mmGetPageAddr clbMem left (i + 1)
          (rtSetMemory (rtlDmaAlloc 4096 128 pool).1 0 4096
            (HbaCmdHeader.Ctbau.put (mmGetPageAddr (rtlDmaAlloc 4096 128 pool).1 >>> 32)
              (clbMem + BitVec.ofNat 64 (HbaCmdHeader.size * i))
              (HbaCmdHeader.Ctba.put (mmGetPageAddr (rtlDmaAlloc 4096 128 pool).1 &&& 0xFFFFFFFF)
                (clbMem + BitVec.ofNat 64 (HbaCmdHeader.size * i)) mem)), (rtlDmaAlloc 4096 128 pool).2) := by
  simp only [initTables]

/-- `drv_init_command_structures_ahci`, with the `Clb` of the port. -/
def drvInitCommandStructuresAhci (mmGetPageAddr : UIntPtr → UIntPtr) (mem : Memory) (pool : DmaPool) :
    Bool × BitVec 32 × Memory × DmaPool :=
  let (clbMem, pool) := rtlDmaAlloc 4096 1024 pool
  if clbMem = 0 then (false, 0, mem, pool)
  else
    let clbPhys := mmGetPageAddr clbMem
    let mem := rtSetMemory clbMem 0 4096 mem
    let (done, mem, pool) := initTables mmGetPageAddr clbMem kSATAPortCnt 0 (mem, pool)
    (done, clbPhys.setWidth 32, mem, pool)

/-! ## The controller -/

namespace AhciCommand

/-- The bytes of the sectors that a command asks for. A count of zero stands for all that the register could hold. -/
def transferred (command : AhciCommand) : ℕ :=
  let count := command.Cfis.CountLow.toNat + 2 ^ 8 * command.Cfis.CountHigh.toNat
  512 * if count = 0 then 2 ^ 16 else count

def offset (command : AhciCommand) : UIntPtr := BitVec.ofNat 64 (512 * command.Cfis.sector)

end AhciCommand

/-- The bytes of the ranges of a list, one after the other. -/
def gather (mem : Memory) (entries : List HbaPrdtEntry) : List Byte :=
  entries.flatMap fun e => read mem e.base e.bytes

def scatter : List HbaPrdtEntry → List Byte → Memory → Memory
  | [], _, mem => mem
  | e :: rest, bytes, mem => scatter rest (bytes.drop e.bytes) (write mem e.base (bytes.take e.bytes))

/-- The disk, and what it answers to an identification. -/
structure Medium where
  disk : Mem 64
  identity : List Byte

/-- What a controller does for a command. -/
def AhciCommand.serve (command : AhciCommand) (mem : Memory) (medium : Medium) : Memory × Medium :=
  if command.Cfis.Command = kAHCICmdIdentify then
    (scatter command.Prdt (medium.identity.take command.transferred) mem, medium)
  else if command.Cfis.Command = kAHCICmdWriteDmaEx then
    let bytes := (gather mem command.Prdt).take command.transferred
    (mem, { medium with disk := write medium.disk command.offset bytes })
  else if command.Cfis.Command = kAHCICmdReadDmaEx then
    (scatter command.Prdt (read medium.disk command.offset command.transferred) mem, medium)
  else (mem, medium)

/-! ## The driver -/

/-- A call that waits for its command. -/
structure Waiting where
  io : AhciIo
  slot : ℕ
  ptr : UIntPtr

structure AhciMachine where
  mem : Memory
  pool : DmaPool
  clb : BitVec 32
  ci : BitVec 32
  medium : Medium
  waiting : Option Waiting
  /-- The last command of each slot. -/
  issued : ℕ → Option AhciCommand

namespace AhciMachine

def header (s : AhciMachine) (slot : ℕ) : UIntPtr := s.clb.setWidth 64 + BitVec.ofNat 64 (HbaCmdHeader.size * slot)

/-- The port as the next call finds it. `Sact` is never set. -/
def port (s : AhciMachine) : HbaPort where
  slots _ := s.ci
  Clb := s.clb
  Ctba slot := ctbaOf s.mem (s.header slot)
  Ctbau slot := ctbauOf s.mem (s.header slot)

end AhciMachine

inductive AhciEvent
  | call (io : AhciIo)
  /-- The controller serves a command. -/
  | serve (slot : ℕ)
  /-- The driver finds its command served. -/
  | done (taskFile : Bool)
  | timeout

def AhciIo.write (io : AhciIo) : Bool := io.kind = .write
def AhciIo.identify (io : AhciIo) : Bool := io.kind = .identify

/-- The command is stored over a chunk of the pool and started. -/
def AhciIo.issue (io : AhciIo) (command : AhciCommand) (s : AhciMachine) : AhciMachine :=
  { s with
    mem := command.put (s.header command.slot) (s.port.table command.slot)
      (io.stage (s.port.table command.slot) (rtlDmaAlloc io.sizeBuffer 4096 s.pool).1 s.mem)
    pool := (rtlDmaAlloc io.sizeBuffer 4096 s.pool).2
    ci := s.ci ||| (1 : BitVec 32) <<< command.slot
    waiting := some ⟨io, command.slot, (rtlDmaAlloc io.sizeBuffer 4096 s.pool).1⟩
    issued := Function.update s.issued command.slot (some command) }

/-- Up to the start of a command. -/
def AhciIo.start (io : AhciIo) (s : AhciMachine) : Option AhciMachine :=
  match drvStdInputOutputAhci io.write true io.identify s.port s.pool io.lba io.buffer io.sectorSz io.sizeBuffer with
  | .failed error => some { s with pool := { s.pool with errGlobal := error } }
  | .stopped => none
  | .issued command => some (io.issue command s)

/-- The end of a call whose command was served. -/
def Waiting.finish (w : Waiting) (taskFile : Bool) (s : AhciMachine) : AhciMachine :=
  if taskFile then
    { s with pool := { rtlDmaFree w.io.sizeBuffer s.pool with errGlobal := kErrorDiskIsCorrupted }, waiting := none }
  else
    { s with
      mem := if w.io.write then s.mem else (rtCopyMemory w.ptr w.io.buffer w.io.sizeBuffer.toNat s.mem).val
      pool := { rtlDmaFree w.io.sizeBuffer s.pool with errGlobal := kErrorSuccess }
      waiting := none }

/-- A call that comes back before the command does. -/
def Waiting.giveUp (w : Waiting) (s : AhciMachine) : AhciMachine :=
  { s with
    pool := rtlDmaFree w.io.sizeBuffer { s.pool with errGlobal := kErrorDiskIsCorrupted }
    waiting := none }

/-- The controller serves what it finds for the slot. -/
def AhciMachine.serve (slot : ℕ) (s : AhciMachine) : AhciMachine :=
  { s with
    mem := ((AhciCommand.at s.mem (s.clb.setWidth 64) slot).serve s.mem s.medium).1
    medium := ((AhciCommand.at s.mem (s.clb.setWidth 64) slot).serve s.mem s.medium).2
    ci := s.ci &&& ~~~((1 : BitVec 32) <<< slot) }

def AhciEvent.step (event : AhciEvent) (s : AhciMachine) : Option AhciMachine :=
  match event, s.waiting with
  | .call io, none => io.start s
  | .serve slot, _ => if slot < kSATAPortCnt ∧ s.ci.getLsbD slot then some (s.serve slot) else none
  | .done taskFile, some w => if s.ci.getLsbD w.slot then none else some (w.finish taskFile s)
  | .timeout, some w => some (w.giveUp s)
  | _, _ => none

def AhciSteps (event : AhciEvent) (s s' : AhciMachine) : Prop := event.step s = some s'

/-- The machine behind a successful initialisation. -/
def AhciMachine.ready (mmGetPageAddr : UIntPtr → UIntPtr) (mem : Memory) (pool : DmaPool) (medium : Medium) :
    Option AhciMachine :=
  match drvInitCommandStructuresAhci mmGetPageAddr mem pool with
  | (true, clb, mem, pool) => some ⟨mem, pool, clb, 0, medium, none, fun _ => none⟩
  | (false, _) => none

/-! ## Where the structures lie -/

def kStructuresSize : ℕ := 4096 * (kSATAPortCnt + 1)

/-- The table of a slot, behind the command list. -/
def tableAt (b slot : ℕ) : UIntPtr := BitVec.ofNat 64 (b + 4096 * (slot + 1))

/-- The first headers designate their tables. -/
def Listed (b : ℕ) (clb : UIntPtr) (n : ℕ) (mem : Memory) : Prop :=
  ∀ slot < n, ctbauOf mem (clb + BitVec.ofNat 64 (HbaCmdHeader.size * slot)) ++
    ctbaOf mem (clb + BitVec.ofNat 64 (HbaCmdHeader.size * slot)) = tableAt b slot

section Layout
variable {b slot n : ℕ} {clb x : UIntPtr} {mem mem' : Memory} {pool : DmaPool}

theorem aligned_toNat {k : ℕ} {ptr : UIntPtr} (small : k < 64) (low : ptr.toNat + 2 ^ k ≤ 2 ^ 64) :
    (aligned (BitVec.ofNat 64 (2 ^ k)) ptr).toNat = BumpStack.alignUp (2 ^ k) ptr.toNat :=
  have positive := Nat.two_pow_pos k
  BumpStack.roundUp_toNat small (by omega)

theorem within_ofNat (fits : b + n ≤ 2 ^ 63) : Within (BitVec.ofNat 64 b) n x ↔ b ≤ x.toNat ∧ x.toNat < b + n := by
  have base : (BitVec.ofNat 64 b).toNat = b := by rw [BitVec.toNat_ofNat, Nat.mod_eq_of_lt (by omega)]
  rw [within_iff (by omega), base]

theorem halves_append (v : BitVec 64) : (v >>> 32).setWidth 32 ++ v.setWidth 32 = v := by
  apply BitVec.eq_of_getLsbD_eq
  intro i bound
  rw [BitVec.getLsbD_append]
  split
  · next low => simp [low]
  · next high => simp [show i - 32 < 32 by omega, show 32 + (i - 32) = i by omega]

/-- The header of a slot keeps the two halves of an address that are put into it. -/
theorem header_pointer {header v : UIntPtr} :
    let mem' := HbaCmdHeader.Ctbau.put (v >>> 32) header (HbaCmdHeader.Ctba.put (v &&& 0xFFFFFFFF) header mem)
    ctbauOf mem' header ++ ctbaOf mem' header = v := by
  intro mem'
  have word : (256 : ℕ) ^ 4 = 2 ^ 32 := rfl
  have low : ctbaOf mem' header = v.setWidth 32 := by
    have mask : (v &&& 0xFFFFFFFF).toNat = v.toNat % 2 ^ 32 := by
      rw [BitVec.toNat_and]
      exact Nat.and_two_pow_sub_one_eq_mod _ 32
    have kept : HbaCmdHeader.Ctba.on mem' header = BitVec.ofNat 64 ((v &&& 0xFFFFFFFF).toNat % 256 ^ 4) :=
      (Field.on_put_other (by decide)).trans Field.on_put_same
    apply BitVec.eq_of_toNat_eq
    rw [ctbaOf, kept, mask, word, BitVec.toNat_setWidth, BitVec.toNat_ofNat, BitVec.toNat_setWidth]
    omega
  have high : ctbauOf mem' header = (v >>> 32).setWidth 32 := by
    have kept : HbaCmdHeader.Ctbau.on mem' header = BitVec.ofNat 64 ((v >>> 32).toNat % 256 ^ 4) :=
      Field.on_put_same
    apply BitVec.eq_of_toNat_eq
    rw [ctbauOf, kept, word, BitVec.toNat_setWidth, BitVec.toNat_ofNat, BitVec.toNat_setWidth]
    omega
  rw [low, high, halves_append]

/-- An allocation that succeeds takes the bytes from the next multiple of the alignment on. -/
theorem alloc_taken {size align : SizeT} (k : ℕ) (power : align = BitVec.ofNat 64 (2 ^ k)) (small : k < 13)
    (low : pool.kDmaPoolPtr ≤ kDmaPoolEnd) (sized : size.toNat ≤ 0x1000000)
    (granted : (rtlDmaAlloc size align pool).1 ≠ 0) :
    let start := BumpStack.alignUp (2 ^ k) pool.kDmaPoolPtr.toNat
    (rtlDmaAlloc size align pool).1.toNat = start ∧
      (rtlDmaAlloc size align pool).2.kDmaPoolPtr.toNat = start + size.toNat ∧ start + size.toNat ≤ 0x2000000 := by
  intro start
  have least : 2 ^ k ≤ 2 ^ 12 := Nat.pow_le_pow_right (by decide) (by omega)
  have bound : pool.kDmaPoolPtr.toNat ≤ 0x2000000 := low
  have address : (aligned align pool.kDmaPoolPtr).toNat = start := by
    rw [power]
    exact aligned_toNat (by omega) (by omega)
  have near : start ≤ pool.kDmaPoolPtr.toNat + (2 ^ k - 1) := Nat.div_mul_le_self _ _
  rcases rtlDmaAlloc_cases size align pool with ⟨null, -, -⟩ | ⟨-, -, fits, taken⟩
  · exact absurd null granted
  · have sum : (aligned align pool.kDmaPoolPtr + size).toNat = start + size.toNat := by
      rw [BitVec.toNat_add, address, Nat.mod_eq_of_lt (by omega)]
    rw [taken]
    refine ⟨address, sum, ?_⟩
    rw [BitVec.le_def, sum] at fits
    exact fits

theorem alloc_granted {size align : SizeT} (k : ℕ) (power : align = BitVec.ofNat 64 (2 ^ k)) (small : k < 13)
    (eight : align % kNeDMABestAlign = 0) (filled : size ≠ 0)
    (fits : BumpStack.alignUp (2 ^ k) pool.kDmaPoolPtr.toNat + size.toNat ≤ 0x2000000) :
    (rtlDmaAlloc size align pool).1.toNat = BumpStack.alignUp (2 ^ k) pool.kDmaPoolPtr.toNat ∧
      (rtlDmaAlloc size align pool).2.kDmaPoolPtr.toNat =
        BumpStack.alignUp (2 ^ k) pool.kDmaPoolPtr.toNat + size.toNat := by
  have least : 2 ^ k ≤ 2 ^ 12 := Nat.pow_le_pow_right (by decide) (by omega)
  have below := @BumpStack.le_alignUp (2 ^ k) pool.kDmaPoolPtr.toNat (Nat.two_pow_pos k)
  have address : (aligned align pool.kDmaPoolPtr).toNat = BumpStack.alignUp (2 ^ k) pool.kDmaPoolPtr.toNat := by
    rw [power]
    exact aligned_toNat (by omega) (by omega)
  have sum : (aligned align pool.kDmaPoolPtr + size).toNat =
      BumpStack.alignUp (2 ^ k) pool.kDmaPoolPtr.toNat + size.toNat := by
    rw [BitVec.toNat_add, address, Nat.mod_eq_of_lt (by omega)]
  rcases rtlDmaAlloc_cases size align pool with ⟨-, -, none | odd | full⟩ | ⟨-, -, -, taken⟩
  · exact absurd none filled
  · exact absurd eight odd
  · rw [BitVec.lt_def, sum, kDmaPoolEnd_toNat] at full
    omega
  · rw [taken]
    exact ⟨address, sum⟩

theorem apart_ofNat {c k : ℕ} (fits : b + n ≤ 2 ^ 63) (fits' : c + k ≤ 2 ^ 63) (order : b + n ≤ c ∨ c + k ≤ b) :
    Apart (BitVec.ofNat 64 b) n (BitVec.ofNat 64 c) k := by
  intro x first second
  rw [within_ofNat fits] at first
  rw [within_ofNat fits'] at second
  omega

theorem header_ofNat (b slot : ℕ) : BitVec.ofNat 64 b + BitVec.ofNat 64 (HbaCmdHeader.size * slot) =
    BitVec.ofNat 64 (b + 32 * slot) := (BitVec.ofNat_add b (32 * slot)).symm

/-- The header that designates a table depends on its bytes alone. -/
theorem pointer_congr {header : UIntPtr} (same : ∀ x, Within header HbaCmdHeader.size x → mem' x = mem x) :
    ctbauOf mem' header ++ ctbaOf mem' header = ctbauOf mem header ++ ctbaOf mem header := by
  rw [ctbauOf, ctbauOf, ctbaOf, ctbaOf, Field.on_of_same (by decide) same, Field.on_of_same (by decide) same]

variable {mmGetPageAddr : UIntPtr → UIntPtr}

/-- The pool is mapped where it is. -/
def MapsPool (mmGetPageAddr : UIntPtr → UIntPtr) : Prop := ∀ a, Dma.InPool a → mmGetPageAddr a = a

/-- There is a table for every slot if the pool has the room. -/
theorem initTables_done {left i : ℕ} (positive : 0 < pool.kDmaPoolPtr.toNat) (multiple : 128 ∣ pool.kDmaPoolPtr.toNat)
    (room : pool.kDmaPoolPtr.toNat + 4096 * left ≤ 0x2000000) :
    (initTables mmGetPageAddr clb left i (mem, pool)).1 = true := by
  induction left generalizing i mem pool with
  | zero => rfl
  | succ left ih =>
      have here : BumpStack.alignUp (2 ^ 7) pool.kDmaPoolPtr.toNat = pool.kDmaPoolPtr.toNat :=
        BumpStack.alignUp_of_dvd (by decide) multiple
      have sized : (4096 : SizeT).toNat = 4096 := rfl
      have first := (Nat.add_le_add_left (Nat.le_mul_of_pos_right 4096 left.succ_pos) _).trans room
      obtain ⟨address, taken⟩ := @alloc_granted pool 4096 128 7 (by decide) (by decide) (by decide) (by decide)
        (by rw [here, sized]; exact first)
      have granted : (rtlDmaAlloc 4096 128 pool).1 ≠ 0 := by
        intro null
        rw [null, here] at address
        simp only [BitVec.ofNat_eq_ofNat, BitVec.toNat_ofNat] at address
        omega
      rw [here, sized] at taken
      rw [initTables_succ, if_neg granted]
      refine ih (by omega) ?_ ?_
      · rw [taken]
        exact Nat.dvd_add multiple (by decide)
      · rw [taken, Nat.add_assoc, Nat.add_comm 4096, ← Nat.mul_succ]
        exact room

variable (maps : MapsPool mmGetPageAddr)
include maps

/-- Each table is put behind the one before it. -/
theorem initTables_listed {left i : ℕ} (low : 0x1000000 ≤ b) (multiple : 1024 ∣ b) (few : i + left ≤ kSATAPortCnt)
    (at_table : pool.kDmaPoolPtr.toNat = b + 4096 * (i + 1)) (high : pool.kDmaPoolPtr ≤ kDmaPoolEnd)
    (listed : Listed b (BitVec.ofNat 64 b) i mem) {pool' : DmaPool}
    (done : initTables mmGetPageAddr (BitVec.ofNat 64 b) left i (mem, pool) = (true, mem', pool')) :
    Listed b (BitVec.ofNat 64 b) (i + left) mem' ∧ pool'.kDmaPoolPtr.toNat = b + 4096 * (i + left + 1) ∧
      pool'.kDmaPoolPtr ≤ kDmaPoolEnd := by
  induction left generalizing i mem pool with
  | zero =>
      cases done
      exact ⟨listed, at_table, high⟩
  | succ left ih =>
      rw [initTables_succ] at done
      by_cases granted : (rtlDmaAlloc 4096 128 pool).1 = 0
      · rw [if_pos granted] at done
        cases done
      rw [if_neg granted] at done
      have bound : pool.kDmaPoolPtr.toNat ≤ 0x2000000 := high
      obtain ⟨address, taken, fits⟩ := alloc_taken 7 (by decide) (by decide) high (by decide) granted
      rw [at_table, BumpStack.alignUp_of_dvd (by decide) (by omega)] at address taken fits
      have sized : (4096 : SizeT).toNat = 4096 := rfl
      rw [sized] at taken fits
      have table : (rtlDmaAlloc 4096 128 pool).1 = tableAt b i := by
        apply BitVec.eq_of_toNat_eq
        rw [tableAt, BitVec.toNat_ofNat, Nat.mod_eq_of_lt (by omega)]
        exact address
      have physical : mmGetPageAddr (rtlDmaAlloc 4096 128 pool).1 = tableAt b i := by
        have inPool : Dma.InPool (rtlDmaAlloc 4096 128 pool).1 := by
          rw [Dma.InPool, BitVec.le_def, BitVec.le_def, kNeDMAPoolStart_toNat, kDmaPoolEnd_toNat, address]
          omega
        rw [maps _ inPool, table]
      rw [physical, table] at done
      have few' : i < 32 := by
        have limit : i + (left + 1) ≤ 32 := few
        omega
      have next : (rtlDmaAlloc 4096 128 pool).2.kDmaPoolPtr ≤ kDmaPoolEnd := by
        rw [BitVec.le_def, taken]
        exact fits
      rw [show i + (left + 1) = i + 1 + left by omega]
      refine ih (by omega) (taken.trans (by omega)) next ?_ done
      · intro slot earlier
        have untouched : Apart (BitVec.ofNat 64 b + BitVec.ofNat 64 (HbaCmdHeader.size * slot)) 32
            (tableAt b i) 4096 := by
          rw [header_ofNat, tableAt]
          have reach : b + 4096 * (i + 1) + 4096 ≤ 2 ^ 63 := fits.trans (by decide)
          exact apart_ofNat (by omega) reach (.inl (by omega))
        refine (pointer_congr fun x inside => rtSetMemory_outside le_rfl (untouched x inside)).trans ?_
        rcases Nat.lt_succ_iff_lt_or_eq.mp earlier with before | rfl
        · have other : Apart (BitVec.ofNat 64 b + BitVec.ofNat 64 (HbaCmdHeader.size * slot)) 32
              (BitVec.ofNat 64 b + BitVec.ofNat 64 (HbaCmdHeader.size * i)) 32 := by
            rw [header_ofNat, header_ofNat]
            exact apart_ofNat (by omega) (by omega) (.inl (by omega))
          refine (pointer_congr fun x inside => ?_).trans (listed slot before)
          have beside := other x inside
          rw [Field.put_sameOutside (by decide) x beside, Field.put_sameOutside (by decide) x beside]
        · exact header_pointer

end Layout

/-- The command list and its tables lie in the pool, and the list designates the tables. -/
structure Structures (b : ℕ) (s : AhciMachine) : Prop where
  low : 0x1000000 ≤ b
  high : b + kStructuresSize ≤ 0x2000000
  clb : s.clb.setWidth 64 = BitVec.ofNat 64 b
  listed : Listed b (BitVec.ofNat 64 b) kSATAPortCnt s.mem

/-- The driver behind its initialisation: nothing is in flight, and the structures end where the pool goes on. -/
structure Fresh (b : ℕ) (s : AhciMachine) : Prop extends Structures b s where
  ci : s.ci = 0
  waiting : s.waiting = none
  pointer : s.pool.kDmaPoolPtr.toNat = b + kStructuresSize

section Initialisation
variable {mmGetPageAddr : UIntPtr → UIntPtr} {mem : Memory} {pool : DmaPool} {medium : Medium} {s : AhciMachine}

theorem ready_fresh (maps : MapsPool mmGetPageAddr) (inPool : Dma.InPool pool.kDmaPoolPtr)
    (ready : AhciMachine.ready mmGetPageAddr mem pool medium = some s) :
    Fresh (BumpStack.alignUp (2 ^ 10) pool.kDmaPoolPtr.toNat) s := by
  unfold AhciMachine.ready drvInitCommandStructuresAhci at ready
  rcases alloc : rtlDmaAlloc 4096 1024 pool with ⟨clbMem, pool₁⟩
  rw [alloc] at ready
  dsimp only at ready
  by_cases null : clbMem = 0
  · rw [if_pos null] at ready
    cases ready
  rw [if_neg null] at ready
  have granted : (rtlDmaAlloc 4096 1024 pool).1 ≠ 0 := by rwa [alloc]
  obtain ⟨address, taken, fits⟩ := alloc_taken 10 (by decide) (by decide) inPool.2 (by decide) granted
  rw [alloc] at address taken
  dsimp only at address taken
  have above := inPool.1
  rw [BitVec.le_def, kNeDMAPoolStart_toNat] at above
  have later := @BumpStack.le_alignUp (2 ^ 10) pool.kDmaPoolPtr.toNat (by decide)
  have multiple : 1024 ∣ BumpStack.alignUp (2 ^ 10) pool.kDmaPoolPtr.toNat := BumpStack.dvd_alignUp
  generalize BumpStack.alignUp (2 ^ 10) pool.kDmaPoolPtr.toNat = b at address taken fits later multiple
  have low := above.trans later
  rw [show (4096 : SizeT).toNat = 4096 from rfl] at taken fits
  have list : clbMem = BitVec.ofNat 64 b := by
    apply BitVec.eq_of_toNat_eq
    rw [address, BitVec.toNat_ofNat, Nat.mod_eq_of_lt (by omega)]
  have inside : Dma.InPool clbMem := by
    rw [Dma.InPool, BitVec.le_def, BitVec.le_def, kNeDMAPoolStart_toNat, kDmaPoolEnd_toNat, address]
    omega
  have bound : pool₁.kDmaPoolPtr ≤ kDmaPoolEnd := by
    rw [BitVec.le_def, taken]
    exact fits
  have none : Listed b (BitVec.ofNat 64 b) 0 (rtSetMemory (BitVec.ofNat 64 b) 0 4096 mem) := by
    intro slot less
    cases less
  rw [maps _ inside, list] at ready
  rcases tables : initTables mmGetPageAddr (BitVec.ofNat 64 b) kSATAPortCnt 0
    (rtSetMemory (BitVec.ofNat 64 b) 0 4096 mem, pool₁) with ⟨done, mem', pool'⟩
  rw [tables] at ready
  dsimp only at ready
  cases done with
  | false => cases ready
  | true =>
      cases ready
      obtain ⟨listed, pointer, last⟩ := initTables_listed maps low multiple (by decide) (by omega) bound none
        tables
      have kept : ((BitVec.ofNat 64 b).setWidth 32).setWidth 64 = BitVec.ofNat 64 b := by
        apply BitVec.eq_of_toNat_eq
        rw [BitVec.toNat_setWidth, BitVec.toNat_setWidth, BitVec.toNat_ofNat]
        omega
      rw [Nat.zero_add] at listed pointer
      rw [BitVec.le_def, pointer, kDmaPoolEnd_toNat] at last
      exact ⟨⟨low, last, kept, listed⟩, rfl, rfl, pointer⟩

theorem ready_medium (ready : AhciMachine.ready mmGetPageAddr mem pool medium = some s) : s.medium = medium := by
  unfold AhciMachine.ready at ready
  split at ready
  · cases ready
    rfl
  · cases ready

theorem ready_of_room (positive : 0 < pool.kDmaPoolPtr.toNat)
    (room : BumpStack.alignUp (2 ^ 10) pool.kDmaPoolPtr.toNat + kStructuresSize ≤ 0x2000000) :
    ∃ s, AhciMachine.ready mmGetPageAddr mem pool medium = some s := by
  have sized : (4096 : SizeT).toNat = 4096 := rfl
  have enough : kStructuresSize = 4096 + 4096 * kSATAPortCnt := rfl
  rw [enough, ← Nat.add_assoc] at room
  obtain ⟨address, taken⟩ := @alloc_granted pool 4096 1024 10 (by decide) (by decide) (by decide) (by decide)
    ((Nat.le_add_right _ _).trans room)
  have below := @BumpStack.le_alignUp (2 ^ 10) pool.kDmaPoolPtr.toNat (by decide)
  have multiple : 128 ∣ BumpStack.alignUp (2 ^ 10) pool.kDmaPoolPtr.toNat :=
    (by decide : 128 ∣ 2 ^ 10).trans BumpStack.dvd_alignUp
  rcases alloc : rtlDmaAlloc 4096 1024 pool with ⟨clbMem, pool₁⟩
  rw [alloc] at address taken
  dsimp only at address taken
  rw [sized] at taken
  have granted : clbMem ≠ 0 := by
    intro null
    rw [null] at address
    simp only [BitVec.ofNat_eq_ofNat, BitVec.toNat_ofNat] at address
    omega
  have done := @initTables_done clbMem (rtSetMemory clbMem 0 4096 mem) pool₁ mmGetPageAddr kSATAPortCnt 0
    (by rw [taken]; omega) (by rw [taken]; exact Nat.dvd_add multiple (by decide)) (by rw [taken]; exact room)
  rcases tables : initTables mmGetPageAddr clbMem kSATAPortCnt 0 (rtSetMemory clbMem 0 4096 mem, pool₁) with
    ⟨all, mem', pool'⟩
  rw [tables] at done
  dsimp only at done
  subst done
  unfold AhciMachine.ready drvInitCommandStructuresAhci
  rw [alloc]
  dsimp only
  rw [if_neg granted, tables]
  exact ⟨_, rfl⟩

end Initialisation

end Ne.Kernel.Storage
