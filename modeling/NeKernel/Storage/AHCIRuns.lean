import NeKernel.Storage.AHCITransfers

/-!
# Runs of the AHCI driver

What a controller finds for a command does not change as long as the command is in flight, and without time-outs the
calls do to the disk and to the memory what they are called for.
-/

namespace Ne.Kernel.Storage
open ByteMem Dma Runs
open Ldr (rtCopyMemory)

/-- Where every chunk begins. -/
def chunkAt (b : ℕ) : ℕ := BumpStack.alignUp 4096 (b + kStructuresSize)

/-- The header and the table of a slot. -/
def OwnArea (b slot : ℕ) (x : UIntPtr) : Prop :=
  Within (BitVec.ofNat 64 b + BitVec.ofNat 64 (HbaCmdHeader.size * slot)) HbaCmdHeader.size x ∨
    Within (tableAt b slot) kCommandTableSize x

/-- What the driver asks of its callers and does not check: the list has room for the buffer, the pool does, and the
buffer lies elsewhere. -/
structure AhciIo.Fits (chunk : ℕ) (io : AhciIo) : Prop where
  listed : io.sizeBuffer.toNat ≤ 248 * 32768
  pooled : chunk + io.sizeBuffer.toNat ≤ kDmaPoolEnd.toNat
  outside : ByteMem.Apart io.buffer io.sizeBuffer.toNat kNeDMAPoolStart kNeDMAPoolSize.toNat

/-- A controller finds the command for the slot, over a chunk. -/
structure Found (b : ℕ) (mem : Memory) (slot : ℕ) (command : AhciCommand) : Prop where
  same : AhciCommand.at mem (BitVec.ofNat 64 b) slot = command
  counted : command.Prdtl.toNat = command.Prdt.length
  few : command.Prdt.length ≤ 248
  tiles : ∃ size, Tiles (BitVec.ofNat 64 (chunkAt b)) size command.Prdt ∧ chunkAt b + size ≤ kDmaPoolEnd.toNat

/-- Where the pool goes on while a call waits or none does. -/
def Pointed (b : ℕ) (pool : DmaPool) : Option Waiting → Prop
  | none => b + kStructuresSize ≤ pool.kDmaPoolPtr.toNat ∧ pool.kDmaPoolPtr.toNat ≤ chunkAt b ∧
      pool.kDmaPoolPtr ≤ kDmaPoolEnd
  | some w => w.slot < kSATAPortCnt ∧ w.ptr = BitVec.ofNat 64 (chunkAt b) ∧ w.io.sizeBuffer ≠ 0 ∧
      w.io.Fits (chunkAt b) ∧ pool.kDmaPoolPtr.toNat = chunkAt b + w.io.sizeBuffer.toNat

structure Kept (b : ℕ) (s : AhciMachine) : Prop extends Structures b s where
  pointed : Pointed b s.pool s.waiting
  flying : ∀ slot < kSATAPortCnt, s.ci.getLsbD slot →
    ∃ command, s.issued slot = some command ∧ Found b s.mem slot command

section Areas
variable {b slot slot' n : ℕ} {x a : UIntPtr} {mem mem' : Memory} {command : AhciCommand} {entries : List HbaPrdtEntry}
  {bytes : List Byte}

theorem chunkAt_low (b : ℕ) : b + kStructuresSize ≤ chunkAt b := BumpStack.le_alignUp (by decide)

theorem own_iff (fits : b + kStructuresSize ≤ 0x2000000) (low : slot < kSATAPortCnt) : OwnArea b slot x ↔
    b + 32 * slot ≤ x.toNat ∧ x.toNat < b + 32 * slot + 32 ∨
      b + 4096 * (slot + 1) ≤ x.toNat ∧ x.toNat < b + 4096 * (slot + 1) + 4096 := by
  unfold kStructuresSize at fits
  unfold kSATAPortCnt at fits low
  have header : b + 32 * slot + 32 ≤ 0x2000000 := by omega
  have table : b + 4096 * (slot + 1) + 4096 ≤ 0x2000000 := by
    rw [show b + 4096 * (slot + 1) + 4096 = b + 4096 * slot + 8192 by ring]
    omega
  rw [OwnArea, header_ofNat, tableAt]
  exact or_congr (within_ofNat (header.trans (by decide))) (within_ofNat (table.trans (by decide)))

theorem own_inside (fits : b + kStructuresSize ≤ 0x2000000) (low : slot < kSATAPortCnt) (own : OwnArea b slot x) :
    b ≤ x.toNat ∧ x.toNat < b + kStructuresSize := by
  rw [own_iff fits low] at own
  unfold kStructuresSize at *
  unfold kSATAPortCnt at *
  omega

theorem own_apart (fits : b + kStructuresSize ≤ 0x2000000) (low : slot < kSATAPortCnt) (low' : slot' < kSATAPortCnt)
    (different : slot ≠ slot') (own : OwnArea b slot x) : ¬ OwnArea b slot' x := by
  rw [own_iff fits low] at own
  rw [own_iff fits low']
  unfold kSATAPortCnt at *
  omega

theorem getList_length {α : Type*} {c : Cell α} : (c.getList mem a n).length = n := by
  rw [Cell.getList, List.length_map, List.length_range]

/-- What is found for a slot depends on its header and on its table. -/
theorem at_congr (low : slot < kSATAPortCnt) (listed : Listed b (BitVec.ofNat 64 b) kSATAPortCnt mem)
    (few : (AhciCommand.at mem (BitVec.ofNat 64 b) slot).Prdtl.toNat ≤ 248)
    (same : ∀ x, OwnArea b slot x → mem' x = mem x) :
    AhciCommand.at mem' (BitVec.ofNat 64 b) slot = AhciCommand.at mem (BitVec.ofNat 64 b) slot := by
  have header : ∀ x, Within (BitVec.ofNat 64 b + BitVec.ofNat 64 (HbaCmdHeader.size * slot)) HbaCmdHeader.size x →
      mem' x = mem x := fun x inside => same x (.inl inside)
  have pointer := (pointer_congr header).trans (listed slot low)
  have table := listed slot low
  have list : HbaPrdtEntry.first + HbaPrdtEntry.cell.size *
      (AhciCommand.at mem (BitVec.ofNat 64 b) slot).Prdtl.toNat ≤ kCommandTableSize := by
    show 128 + 16 * _ ≤ 4096
    omega
  unfold AhciCommand.at at *
  dsimp only at *
  rw [pointer, table, BitMember.on_of_same (by decide) header, BitMember.on_of_same (by decide) header,
    BitMember.on_of_same (by decide) header]
  congr 1
  · exact Cell.getList_congr fun x inside => same x (.inr (inside.of_offset HbaPrdtEntry.first list))
  · exact FisRegH2D.cell.depends _ _ _ fun x inside => same x (.inr (inside.mono (by decide)))

theorem Found.mono (low : slot < kSATAPortCnt) (listed : Listed b (BitVec.ofNat 64 b) kSATAPortCnt mem)
    (found : Found b mem slot command) (same : ∀ x, OwnArea b slot x → mem' x = mem x) :
    Found b mem' slot command := by
  have few := found.few
  rw [← found.counted, ← found.same] at few
  exact { found with same := (at_congr low listed few same).trans found.same }

theorem Listed.mono (listed : Listed b (BitVec.ofNat 64 b) kSATAPortCnt mem)
    (same : ∀ slot < kSATAPortCnt,
      ∀ x, Within (BitVec.ofNat 64 b + BitVec.ofNat 64 (HbaCmdHeader.size * slot)) HbaCmdHeader.size x →
        mem' x = mem x) :
    Listed b (BitVec.ofNat 64 b) kSATAPortCnt mem' :=
  fun slot low => (pointer_congr (same slot low)).trans (listed slot low)

/-- Nothing is stored beside the ranges of a list. -/
theorem scatter_outside {start : UIntPtr} (tiles : Tiles start n entries) (outside : ¬ Within start n x) :
    scatter entries bytes mem x = mem x := by
  induction tiles generalizing bytes mem with
  | none => rfl
  | @next start size e rest base _ _ ih =>
      rw [scatter]
      refine (ih fun later => outside (later.of_offset e.bytes le_rfl)).trans ?_
      rw [base]
      refine write_outside fun early => outside (early.mono ?_)
      rw [List.length_take]
      omega

end Areas

/-! ## Slots -/

section Slots
variable {ci : BitVec 32} {slot i left : ℕ} {slots : ℕ → BitVec 32}

theorem bit_iff (low : i < kSATAPortCnt) : ((1 : BitVec 32) <<< slot).getLsbD i = decide (i = slot) := by
  unfold kSATAPortCnt at low
  have one : (1 : BitVec 32) = BitVec.ofNat 32 (2 ^ 0) := rfl
  rw [BitVec.getLsbD_shiftLeft, one, BitVec.getLsbD_ofNat, Nat.testBit_two_pow]
  by_cases same : i = slot
  · simp [same, show slot < 32 by omega]
  · simp [same]
    omega

theorem ci_set (low : i < kSATAPortCnt) :
    (ci ||| (1 : BitVec 32) <<< slot).getLsbD i = (ci.getLsbD i || decide (i = slot)) := by
  rw [BitVec.getLsbD_or, bit_iff low]

theorem ci_clear (low : i < kSATAPortCnt) :
    (ci &&& ~~~((1 : BitVec 32) <<< slot)).getLsbD i = (ci.getLsbD i && decide (i ≠ slot)) := by
  have bound : i < 32 := low
  rw [BitVec.getLsbD_and, BitVec.getLsbD_not, bit_iff low]
  simp [bound]

theorem drvFindCmdSlotAhci_free (found : drvFindCmdSlotAhci ci = some slot) : ci.getLsbD slot = false := by
  have low : slot < kSATAPortCnt := List.mem_range.mp (List.mem_of_find?_eq_some found)
  have clear : ci &&& (1 <<< slot) = 0 := by simpa using List.find?_some found
  have shifted : BitVec.ofNat 32 (1 <<< slot) = (1 : BitVec 32) <<< slot := by
    rw [BitVec.shiftLeft_eq_mul_twoPow]
    apply BitVec.eq_of_toNat_eq
    simp [Nat.shiftLeft_eq]
  have bit := congrArg (·.getLsbD slot) clear
  have bound : slot < 32 := low
  simpa [shifted, bit_iff low, bound] using bit

theorem waitCmdSlot_free (found : waitCmdSlot slots left i = some slot) : ∃ j, (slots j).getLsbD slot = false := by
  induction left generalizing i with
  | zero => cases found
  | succ left ih =>
      rw [waitCmdSlot] at found
      split at found
      · next free =>
          cases found
          exact ⟨i, drvFindCmdSlotAhci_free free⟩
      · exact ih found

theorem idle_slot {s : AhciMachine} (idle : s.ci = 0) : waitCmdSlot s.port.slots (kSlotTimeout + 2) 0 = some 0 := by
  rw [waitCmdSlot, show s.port.slots 0 = 0 from idle]
  rfl

end Slots

/-! ## The pool -/

section Pool
variable {b : ℕ} {pool : DmaPool} {w : Waiting} {io : AhciIo}

theorem chunk_granted (pointed : Pointed b pool none) (fits : io.Fits (chunkAt b)) (filled : io.sizeBuffer ≠ 0) :
    (rtlDmaAlloc io.sizeBuffer 4096 pool).1 = BitVec.ofNat 64 (chunkAt b) ∧
      (rtlDmaAlloc io.sizeBuffer 4096 pool).2.kDmaPoolPtr.toNat = chunkAt b + io.sizeBuffer.toNat := by
  obtain ⟨low, high, -⟩ := pointed
  have place : BumpStack.alignUp (2 ^ 12) pool.kDmaPoolPtr.toNat = chunkAt b :=
    BumpStack.alignUp_between (by decide) low high
  obtain ⟨address, taken⟩ := @alloc_granted pool io.sizeBuffer 4096 12 (by decide) (by decide) (by decide) filled
    (by rw [place]; exact fits.pooled)
  rw [place] at address taken
  refine ⟨?_, taken⟩
  rw [← address, BitVec.ofNat_toNat, BitVec.setWidth_eq]

theorem chunk_freed (low : 0x1000000 ≤ b) (pointed : Pointed b pool (some w)) :
    Pointed b (rtlDmaFree w.io.sizeBuffer pool) none := by
  obtain ⟨-, -, filled, fits, taken⟩ := pointed
  have structures := chunkAt_low b
  have pooled : chunkAt b + w.io.sizeBuffer.toNat ≤ 0x2000000 := fits.pooled
  have back : (pool.kDmaPoolPtr - w.io.sizeBuffer).toNat = chunkAt b := by
    rw [BitVec.toNat_sub_of_le (by rw [BitVec.le_def]; omega)]
    omega
  have inPool : ¬ (pool.kDmaPoolPtr - w.io.sizeBuffer = 0 ∨ pool.kDmaPoolPtr - w.io.sizeBuffer < kNeDMAPoolStart) := by
    rintro (null | under)
    · rw [null] at back
      simp only [BitVec.ofNat_eq_ofNat, BitVec.toNat_ofNat] at back
      omega
    · rw [BitVec.lt_def, back, kNeDMAPoolStart_toNat] at under
      omega
  rw [rtlDmaFree, if_neg filled]
  dsimp only
  rw [if_neg inPool]
  refine ⟨?_, ?_, ?_⟩
  · exact structures.trans (le_of_eq back.symm)
  · exact le_of_eq back
  · show (pool.kDmaPoolPtr - w.io.sizeBuffer).toNat ≤ 0x2000000
    omega

end Pool

/-! ## Steps -/

section Steps
variable {b slot : ℕ} {s s' : AhciMachine} {io : AhciIo} {w : Waiting} {event : AhciEvent} {taskFile : Bool}

theorem Structures.header_eq (laid : Structures b s) (slot : ℕ) :
    s.header slot = BitVec.ofNat 64 b + BitVec.ofNat 64 (HbaCmdHeader.size * slot) := by
  rw [AhciMachine.header, laid.clb]

theorem Structures.table_eq (laid : Structures b s) (low : slot < kSATAPortCnt) :
    s.port.table slot = tableAt b slot := by
  have listed := laid.listed slot low
  rw [← laid.header_eq] at listed
  exact listed

theorem Structures.portReady (laid : Structures b s) : s.port.Ready := by
  have start := laid.low
  have last := laid.high
  unfold kStructuresSize kSATAPortCnt at last
  constructor
  case header =>
    intro slot low null
    unfold kSATAPortCnt at low
    have place : (s.header slot).toNat = b + 32 * slot := by
      rw [laid.header_eq, header_ofNat, BitVec.toNat_ofNat, Nat.mod_eq_of_lt (by omega)]
    rw [show s.header slot = 0 from null] at place
    simp only [BitVec.ofNat_eq_ofNat, BitVec.toNat_ofNat] at place
    omega
  case table =>
    intro slot low null
    have place : (s.port.table slot).toNat = b + 4096 * (slot + 1) := by
      unfold kSATAPortCnt at low
      rw [laid.table_eq low, tableAt, BitVec.toNat_ofNat, Nat.mod_eq_of_lt (by omega)]
    rw [null] at place
    simp only [BitVec.ofNat_eq_ofNat, BitVec.toNat_ofNat] at place
    omega

def AhciIo.command (io : AhciIo) (slot : ℕ) (ptr : UIntPtr) : AhciCommand :=
  commandFor io.write true io.identify slot ptr (io.lba / io.sectorSz) io.sizeBuffer

theorem start_issues (issues : Issues s.port io.buffer io.sectorSz io.sizeBuffer slot) :
    io.start s = some (io.issue (io.command slot (rtlDmaAlloc io.sizeBuffer 4096 s.pool).1) s) := by
  rw [AhciIo.start, drvStdInputOutputAhci_issues issues]
  rfl

/-- A call is turned down, or it starts its command in a free slot. -/
theorem start_cases (laid : Structures b s) (started : io.start s = some s') :
    (Rejects s.port io.buffer io.sectorSz io.sizeBuffer ∧
      s' = { s with pool := { s.pool with errGlobal := kErrorDisk } }) ∨
    ∃ slot, Issues s.port io.buffer io.sectorSz io.sizeBuffer slot ∧
      s' = io.issue (io.command slot (rtlDmaAlloc io.sizeBuffer 4096 s.pool).1) s := by
  by_cases rejects : Rejects s.port io.buffer io.sectorSz io.sizeBuffer
  · rw [AhciIo.start, drvStdInputOutputAhci_rejects rejects] at started
    exact .inl ⟨rejects, (Option.some.inj started).symm⟩
  · obtain ⟨slot, issues⟩ := issues_of_ready laid.portReady rejects
    rw [start_issues issues] at started
    exact .inr ⟨slot, issues, (Option.some.inj started).symm⟩

/-- A change beside the structures leaves what is in flight as it is. -/
theorem Kept.elsewhere (kept : Kept b s) (clb : s'.clb = s.clb) (issued : s'.issued = s.issued)
    (ci : ∀ slot < kSATAPortCnt, s'.ci.getLsbD slot → s.ci.getLsbD slot)
    (same : ∀ x, b ≤ x.toNat → x.toNat < b + kStructuresSize → s'.mem x = s.mem x)
    (pointed : Pointed b s'.pool s'.waiting) : Kept b s' := by
  have own : ∀ slot < kSATAPortCnt, ∀ x, OwnArea b slot x → s'.mem x = s.mem x := by
    intro slot low x inside
    obtain ⟨above, below⟩ := own_inside kept.high low inside
    exact same x above below
  refine ⟨⟨kept.low, kept.high, by rw [clb, kept.clb], ?_⟩, pointed, ?_⟩
  · exact kept.listed.mono fun slot low x inside => own slot low x (.inl inside)
  · intro slot low flies
    obtain ⟨command, last, found⟩ := kept.flying slot low (ci slot low flies)
    exact ⟨command, by rw [issued, last], found.mono low kept.listed (own slot low)⟩

theorem AhciIo.command_length {ptr : UIntPtr} :
    (io.command slot ptr).Prdt.length = (io.sizeBuffer.toNat + 32767) / 32768 :=
  (markLast_length _).trans (prdtOf_length _ _)

theorem AhciIo.Fits.few {chunk : ℕ} {ptr : UIntPtr} (fits : io.Fits chunk) :
    (io.command slot ptr).Prdt.length ≤ 248 := by
  have listed := fits.listed
  rw [AhciIo.command_length]
  omega

theorem AhciIo.Fits.counted {chunk : ℕ} {ptr : UIntPtr} (fits : io.Fits chunk) :
    (io.command slot ptr).Prdtl.toNat = (io.command slot ptr).Prdt.length := by
  have listed := fits.listed
  rw [AhciIo.command_length]
  show (BitVec.ofNat 16 (prdtOf _ _).length).toNat = _
  rw [prdtOf_length, BitVec.toNat_ofNat]
  omega

theorem AhciIo.Fits.beyond (fits : io.Fits (chunkAt b)) {x : UIntPtr} (below : x.toNat < b + kStructuresSize) :
    ¬ Within (BitVec.ofNat 64 (chunkAt b)) io.sizeBuffer.toNat x := by
  have structures := chunkAt_low b
  have pooled : chunkAt b + io.sizeBuffer.toNat ≤ 0x2000000 := fits.pooled
  rw [within_ofNat (pooled.trans (by decide))]
  omega

theorem Structures.apart (laid : Structures b s) (low : slot < kSATAPortCnt) :
    ByteMem.Apart (s.header slot) HbaCmdHeader.size (s.port.table slot) kCommandTableSize := by
  have last := laid.high
  rw [laid.header_eq, laid.table_eq low, header_ofNat, tableAt]
  unfold kStructuresSize kSATAPortCnt at last
  unfold kSATAPortCnt at low
  have header : b + 32 * slot + 32 ≤ b + 4096 * (slot + 1) := by omega
  have table : b + 4096 * (slot + 1) + 4096 ≤ 0x2000000 := by
    rw [show b + 4096 * (slot + 1) + 4096 = b + 4096 * slot + 8192 by ring]
    omega
  exact apart_ofNat ((header.trans (Nat.le_add_right _ _)).trans (table.trans (by decide))) (table.trans (by decide))
    (.inl header)

section Issues
variable (kept : Kept b s) (low : slot < kSATAPortCnt) (fits : io.Fits (chunkAt b))
  (chunk : (rtlDmaAlloc io.sizeBuffer 4096 s.pool).1 = BitVec.ofNat 64 (chunkAt b))
include kept low fits chunk

/-- Of the structures only those of the slot change. -/
theorem issue_same {x : UIntPtr} (below : x.toNat < b + kStructuresSize) (other : ¬ OwnArea b slot x) :
    (io.issue (io.command slot (BitVec.ofNat 64 (chunkAt b))) s).mem x = s.mem x := by
  have noHeader : ¬ Within (s.header slot) 4 x := by
    rw [kept.header_eq]
    exact fun inside => other (.inl (inside.mono (by decide)))
  have noTable : ¬ Within (s.port.table slot) kCommandTableSize x := by
    rw [kept.table_eq low]
    exact fun inside => other (.inr inside)
  have noChunk := fits.beyond below
  rw [← chunk] at noChunk
  exact (put_outside fits.few noHeader noTable).trans (stage_outside noTable noChunk)

theorem staged_pointer : ctbauOf (io.stage (s.port.table slot) (rtlDmaAlloc io.sizeBuffer 4096 s.pool).1 s.mem)
      (s.header slot) ++
    ctbaOf (io.stage (s.port.table slot) (rtlDmaAlloc io.sizeBuffer 4096 s.pool).1 s.mem) (s.header slot) =
      s.port.table slot := by
  refine pointer_congr fun x inside => stage_outside (kept.apart low x inside) ?_
  rw [chunk]
  rw [kept.header_eq] at inside
  exact fits.beyond (own_inside kept.high low (.inl inside)).2

theorem issue_listed : Listed b (BitVec.ofNat 64 b) kSATAPortCnt
    (io.issue (io.command slot (BitVec.ofNat 64 (chunkAt b))) s).mem := by
  intro slot' low'
  by_cases same : slot' = slot
  · subst same
    rw [← kept.header_eq]
    exact (put_pointer (kept.apart low) fits.few).trans
      ((staged_pointer kept low fits chunk).trans (kept.table_eq low))
  · refine (pointer_congr fun x inside => ?_).trans (kept.listed slot' low')
    exact issue_same kept low fits chunk (own_inside kept.high low' (.inl inside)).2
      (own_apart kept.high low' low same (.inl inside))

theorem issue_found : Found b (io.issue (io.command slot (BitVec.ofNat 64 (chunkAt b))) s).mem slot
    (io.command slot (BitVec.ofNat 64 (chunkAt b))) := by
  constructor
  case same =>
    exact at_put (kept.apart low) fits.few fits.counted (kept.header_eq slot) (staged_pointer kept low fits chunk)
  case counted => exact fits.counted
  case few => exact fits.few
  case tiles => exact ⟨io.sizeBuffer.toNat, (prdtOf_tiles _ _).markLast, fits.pooled⟩

end Issues

/-- The command is stored, what is in flight stays. -/
theorem Kept.issue (kept : Kept b s) (idle : s.waiting = none) (fits : io.Fits (chunkAt b))
    (issues : Issues s.port io.buffer io.sectorSz io.sizeBuffer slot) :
    Kept b (io.issue (io.command slot (BitVec.ofNat 64 (chunkAt b))) s) := by
  obtain ⟨-, -, filled, found, -, -⟩ := issues
  have low : slot < kSATAPortCnt := waitCmdSlot_lt found
  have pointed := kept.pointed
  rw [idle] at pointed
  obtain ⟨chunk, taken⟩ := chunk_granted pointed fits filled
  refine ⟨⟨kept.low, kept.high, kept.clb, issue_listed kept low fits chunk⟩, ⟨low, chunk, filled, fits, taken⟩, ?_⟩
  intro slot' low' flies
  by_cases same : slot' = slot
  · subst same
    exact ⟨_, Function.update_self _ _ _, issue_found kept low fits chunk⟩
  · have flew : s.ci.getLsbD slot' := by
      have set := flies
      rw [show (io.issue (io.command slot (BitVec.ofNat 64 (chunkAt b))) s).ci =
        s.ci ||| (1 : BitVec 32) <<< slot from rfl, ci_set low'] at set
      simpa [same] using set
    obtain ⟨command, last, found⟩ := kept.flying slot' low' flew
    refine ⟨command, (Function.update_of_ne same _ _).trans last, found.mono low' kept.listed fun x own => ?_⟩
    exact issue_same kept low fits chunk (own_inside kept.high low' own).2 (own_apart kept.high low' low same own)

/-- What a step does, by its kind. -/
theorem step_cases (taken : AhciSteps event s s') :
    (∃ io, event = .call io ∧ s.waiting = none ∧ io.start s = some s') ∨
    (∃ slot, event = .serve slot ∧ slot < kSATAPortCnt ∧ s.ci.getLsbD slot ∧ s' = s.serve slot) ∨
    (∃ taskFile w, event = .done taskFile ∧ s.waiting = some w ∧ ¬ s.ci.getLsbD w.slot ∧ s' = w.finish taskFile s) ∨
    (∃ w, event = .timeout ∧ s.waiting = some w ∧ s' = w.giveUp s) := by
  unfold AhciSteps AhciEvent.step at taken
  cases event with
  | call io =>
      rcases idle : s.waiting with _ | w
      · rw [idle] at taken
        exact .inl ⟨io, rfl, rfl, taken⟩
      · rw [idle] at taken
        cases taken
  | serve slot =>
      dsimp only at taken
      split at taken
      · next flies => exact .inr (.inl ⟨slot, rfl, flies.1, flies.2, (Option.some.inj taken).symm⟩)
      · cases taken
  | done taskFile =>
      rcases waits : s.waiting with _ | w
      · rw [waits] at taken
        cases taken
      · rw [waits] at taken
        dsimp only at taken
        split at taken
        · cases taken
        · next served => exact .inr (.inr (.inl ⟨taskFile, w, rfl, rfl, served, (Option.some.inj taken).symm⟩))
  | timeout =>
      rcases waits : s.waiting with _ | w
      · rw [waits] at taken
        cases taken
      · rw [waits] at taken
        exact .inr (.inr (.inr ⟨w, rfl, rfl, (Option.some.inj taken).symm⟩))

/-- A controller stores into the ranges of the list alone. -/
theorem serve_outside {command : AhciCommand} {mem : Memory} {medium : Medium} {a x : UIntPtr} {size : ℕ}
    (tiles : Tiles a size command.Prdt) (outside : ¬ Within a size x) : (command.serve mem medium).1 x = mem x := by
  unfold AhciCommand.serve
  split_ifs
  · exact scatter_outside tiles outside
  · rfl
  · exact scatter_outside tiles outside
  · rfl

theorem Kept.serve (kept : Kept b s) (low : slot < kSATAPortCnt) (flies : s.ci.getLsbD slot) :
    Kept b (s.serve slot) := by
  obtain ⟨command, -, found⟩ := kept.flying slot low flies
  obtain ⟨size, tiles, pooled⟩ := found.tiles
  have structures := chunkAt_low b
  rw [kDmaPoolEnd_toNat] at pooled
  refine kept.elsewhere rfl rfl ?_ ?_ kept.pointed
  · intro slot' low' still
    have both : (s.ci &&& ~~~((1 : BitVec 32) <<< slot)).getLsbD slot' = true := still
    rw [ci_clear low', Bool.and_eq_true] at both
    exact both.1
  · intro x _ below
    show ((AhciCommand.at s.mem (s.clb.setWidth 64) slot).serve s.mem s.medium).1 x = _
    rw [kept.clb, found.same]
    refine serve_outside tiles fun inside => ?_
    rw [within_ofNat (pooled.trans (by decide))] at inside
    omega

theorem Kept.finish (kept : Kept b s) (waits : s.waiting = some w) : Kept b (w.finish taskFile s) := by
  have pointed := kept.pointed
  rw [waits] at pointed
  have freed := chunk_freed kept.low pointed
  obtain ⟨-, -, -, fits, -⟩ := pointed
  have first := kept.low
  have last := kept.high
  unfold Waiting.finish
  split_ifs with failed written
  · exact kept.elsewhere rfl rfl (fun _ _ => id) (fun _ _ _ => rfl) freed
  · exact kept.elsewhere rfl rfl (fun _ _ => id) (fun _ _ _ => rfl) freed
  · refine kept.elsewhere rfl rfl (fun _ _ => id) ?_ freed
    intro x above below
    refine rtCopyMemory_outside fun inside => fits.outside x inside ?_
    rw [within_iff (by decide)]
    exact ⟨first.trans above, Nat.lt_of_lt_of_le below last⟩

theorem Kept.giveUp (kept : Kept b s) (waits : s.waiting = some w) : Kept b (w.giveUp s) := by
  have pointed := kept.pointed
  rw [waits] at pointed
  have wrong : Pointed b { s.pool with errGlobal := kErrorDiskIsCorrupted } (some w) := pointed
  exact kept.elsewhere rfl rfl (fun _ _ => id) (fun _ _ _ => rfl) (chunk_freed kept.low wrong)

theorem Kept.step (kept : Kept b s) (fits : ∀ io, event = .call io → io.Fits (chunkAt b))
    (taken : AhciSteps event s s') :
    Kept b s' := by
  obtain ⟨io, rfl, idle, started⟩ | ⟨slot, rfl, low, flies, rfl⟩ | ⟨taskFile, w, rfl, waits, -, rfl⟩ |
    ⟨w, rfl, waits, rfl⟩ := step_cases taken
  · obtain ⟨-, rfl⟩ | ⟨slot, issues, rfl⟩ := start_cases kept.toStructures started
    · exact kept.elsewhere rfl rfl (fun _ _ => id) (fun _ _ _ => rfl) kept.pointed
    · have pointed := kept.pointed
      rw [idle] at pointed
      rw [(chunk_granted pointed (fits io rfl) issues.2.2.1).1]
      exact kept.issue idle (fits io rfl) issues
  · exact kept.serve low flies
  · exact kept.finish waits
  · exact kept.giveUp waits

/-- What is in flight stays until it is served. -/
theorem flies_step (laid : Structures b s) (taken : AhciSteps event s s') (unserved : event ≠ .serve slot)
    (low : slot < kSATAPortCnt) (flies : s.ci.getLsbD slot) : s'.ci.getLsbD slot ∧ s'.issued slot = s.issued slot := by
  obtain ⟨io, rfl, -, started⟩ | ⟨other, rfl, -, -, rfl⟩ | ⟨taskFile, w, rfl, -, -, rfl⟩ | ⟨w, rfl, -, rfl⟩ :=
    step_cases taken
  · obtain ⟨-, rfl⟩ | ⟨other, issues, rfl⟩ := start_cases laid started
    · exact ⟨flies, rfl⟩
    · have free : s.ci.getLsbD other = false := (waitCmdSlot_free issues.2.2.2.1).choose_spec
      have different : slot ≠ other := by
        rintro rfl
        rw [free] at flies
        cases flies
      refine ⟨?_, Function.update_of_ne different _ _⟩
      exact (ci_set low).trans (by rw [flies, Bool.true_or])
  · have different : slot ≠ other := fun same => unserved (by rw [same])
    refine ⟨(ci_clear low).trans ?_, rfl⟩
    simpa [different] using flies
  · unfold Waiting.finish
    split_ifs <;> exact ⟨flies, rfl⟩
  · exact ⟨flies, rfl⟩

end Steps

/-! ## Runs -/

section Runs
variable {b slot : ℕ} {s s' : AhciMachine} {events : List AhciEvent}

theorem Fresh.kept (fresh : Fresh b s) : Kept b s := by
  have inside := fresh.high
  have pointer := fresh.pointer
  refine ⟨fresh.toStructures, ?_, ?_⟩
  · rw [fresh.waiting]
    refine ⟨le_of_eq pointer.symm, ?_, ?_⟩
    · rw [pointer]
      exact chunkAt_low b
    · rw [BitVec.le_def, pointer]
      exact inside
  · intro slot _ flies
    rw [fresh.ci] at flies
    simp at flies

theorem Fresh.chunk (fresh : Fresh b s) : aligned 4096 s.pool.kDmaPoolPtr = BitVec.ofNat 64 (chunkAt b) ∧
    (aligned 4096 s.pool.kDmaPoolPtr).toNat = chunkAt b := by
  have inside := fresh.high
  have pointer := fresh.pointer
  have place : (aligned 4096 s.pool.kDmaPoolPtr).toNat = chunkAt b := by
    have rounded := @aligned_toNat 12 s.pool.kDmaPoolPtr (by decide) (by omega)
    rw [pointer] at rounded
    exact rounded
  refine ⟨?_, place⟩
  rw [← place, BitVec.ofNat_toNat, BitVec.setWidth_eq]

theorem Kept.run (kept : Kept b s) (fits : ∀ io, .call io ∈ events → io.Fits (chunkAt b))
    (run : Run AhciSteps s events s') : Kept b s' :=
  run.invariant_of_mem (fun _ member _ _ kept taken => kept.step (fun io same => fits io (same ▸ member)) taken) kept

theorem flies_run (kept : Kept b s) (fits : ∀ io, .call io ∈ events → io.Fits (chunkAt b))
    (run : Run AhciSteps s events s') (unserved : .serve slot ∉ events) (low : slot < kSATAPortCnt)
    (flies : s.ci.getLsbD slot) : s'.ci.getLsbD slot ∧ s'.issued slot = s.issued slot := by
  induction run with
  | nil => exact ⟨flies, rfl⟩
  | @cons s t u event events head _ ih =>
      obtain ⟨still, same⟩ := flies_step kept.toStructures head (fun serve => unserved (by simp [serve])) low flies
      have later : .serve slot ∉ events := fun member => unserved (by simp [member])
      have next : Kept b t := kept.step (fun io call => fits io (by simp [call])) head
      obtain ⟨last, kept'⟩ := ih next (fun io member => fits io (by simp [member])) later still
      exact ⟨last, kept'.trans same⟩

end Runs

/-- From its call on until it is served, whatever else happens meanwhile, a controller finds a command as it was
issued, with a list over one chunk of the pool behind the structures. -/
theorem command_kept {mmGetPageAddr : UIntPtr → UIntPtr} {mem : Memory} {pool : DmaPool} {medium : Medium}
    {s₀ s s' : AhciMachine} {before after : List AhciEvent} {slot : ℕ} (maps : MapsPool mmGetPageAddr)
    (inPool : Dma.InPool pool.kDmaPoolPtr) (ready : AhciMachine.ready mmGetPageAddr mem pool medium = some s₀)
    (fits : ∀ io, .call io ∈ before ++ after → io.Fits (aligned 4096 s₀.pool.kDmaPoolPtr).toNat)
    (reached : Run AhciSteps s₀ before s) (run : Run AhciSteps s after s') (low : slot < kSATAPortCnt)
    (flies : s.ci.getLsbD slot) (unserved : .serve slot ∉ after) :
    s'.ci.getLsbD slot ∧ ∃ command, s.issued slot = some command ∧
      AhciCommand.at s'.mem (s'.clb.setWidth 64) slot = command ∧
      ∃ size, Tiles (aligned 4096 s₀.pool.kDmaPoolPtr) size command.Prdt ∧
        (aligned 4096 s₀.pool.kDmaPoolPtr).toNat + size ≤ kDmaPoolEnd.toNat := by
  have fresh := ready_fresh maps inPool ready
  generalize BumpStack.alignUp (2 ^ 10) pool.kDmaPoolPtr.toNat = b at fresh
  obtain ⟨chunk, place⟩ := fresh.chunk
  rw [place] at fits
  have kept := fresh.kept.run (fun io member => fits io (by simp [member])) reached
  have later : ∀ io, .call io ∈ after → io.Fits (chunkAt b) := fun io member => fits io (by simp [member])
  obtain ⟨still, same⟩ := flies_run kept later run unserved low flies
  have last := kept.run later run
  obtain ⟨command, issued, found⟩ := last.flying slot low still
  refine ⟨still, command, same.symm.trans issued, ?_, ?_⟩
  · rw [last.clb]
    exact found.same
  · rw [chunk, ← chunk, place, chunk]
    exact found.tiles

/-- A read of the third sector into a buffer below the pool. -/
def readThird : AhciIo := { kind := .read, lba := 1024, buffer := 0x5000, sectorSz := 512, sizeBuffer := 512 }

theorem readThird_fits : readThird.Fits (chunkAt 0x1000000) := by
  constructor
  case listed => decide
  case pooled => decide
  case outside => exact Apart.of_le (by decide) (by decide)

theorem readThird_issues {b : ℕ} {s : AhciMachine} (fresh : Fresh b s) :
    Issues s.port readThird.buffer readThird.sectorSz readThird.sizeBuffer 0 :=
  ⟨by decide, by decide, by decide, idle_slot fresh.ci, fresh.portReady.header 0 (by decide),
    fresh.portReady.table 0 (by decide)⟩

/-- The call gives up, and its command is still there. -/
theorem command_kept_third : ∃ s₀ s s' : AhciMachine, Run AhciSteps s₀ [.call readThird, .timeout] s' ∧
    s'.waiting = none ∧ s'.ci.getLsbD 0 ∧ ∃ command, s.issued 0 = some command ∧
      AhciCommand.at s'.mem (s'.clb.setWidth 64) 0 = command ∧
      ∃ size, Tiles (aligned 4096 s₀.pool.kDmaPoolPtr) size command.Prdt ∧
        (aligned 4096 s₀.pool.kDmaPoolPtr).toNat + size ≤ kDmaPoolEnd.toNat := by
  have inPool : Dma.InPool start.pool.kDmaPoolPtr := ⟨by decide, by decide⟩
  obtain ⟨s₀, ready⟩ := @ready_of_room id (fun _ => 0) start.pool ⟨fun _ => 0, []⟩ (by decide) (by decide)
  have fresh : Fresh 0x1000000 s₀ := ready_fresh (fun _ _ => rfl) inPool ready
  have issues := readThird_issues fresh
  obtain ⟨s, issued⟩ : ∃ s, s = readThird.issue (readThird.command 0 (rtlDmaAlloc readThird.sizeBuffer 4096
    s₀.pool).1) s₀ := ⟨_, rfl⟩
  have started : AhciSteps (.call readThird) s₀ s := by
    unfold AhciSteps AhciEvent.step
    rw [fresh.waiting, issued]
    exact start_issues issues
  obtain ⟨w, waits⟩ : ∃ w, s.waiting = some w := ⟨_, by rw [issued]; rfl⟩
  have gone : AhciSteps .timeout s (w.giveUp s) := by
    unfold AhciSteps AhciEvent.step
    rw [waits]
  have flies : s.ci.getLsbD 0 := by
    rw [issued]
    exact (ci_set (by decide)).trans (Bool.or_true _)
  have maps : MapsPool id := fun _ _ => rfl
  have fits : ∀ io, .call io ∈ ([.call readThird] ++ [.timeout] : List AhciEvent) →
      io.Fits (aligned 4096 s₀.pool.kDmaPoolPtr).toNat := by
    intro io member
    obtain rfl : io = readThird := by simpa using member
    rw [fresh.chunk.2]
    exact readThird_fits
  have kept := command_kept maps inPool ready fits (.single started) (.single gone) (by decide) flies (by simp)
  exact ⟨s₀, s, w.giveUp s, .cons started (.single gone), rfl, kept⟩

end Ne.Kernel.Storage
