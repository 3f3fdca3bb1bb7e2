import Mathlib.Tactic.IntervalCases
import NeKernel.Dma.DmaPool
import NeKernel.Lib.Traced

/-!
# The receive side of the RTL8139 driver

`Generic+Basic+BNID.cpp`, beside a device that places its frames in the ring. The device may place one while the
handler is in its loop.
-/

namespace Ne.Kernel.Network
open ByteMem Runs
open Dma (DmaPool rtlDmaAlloc)

/-! ## The source -/

def kRXBufferSize : BitVec 32 := 8192 + 16 + 1500

def kErrorNoNetwork : Int := 43

structure PortWrite where
  port : BitVec 16
  value : BitVec 32

/-- The variables of the driver, and what it has written to its ports. -/
structure Driver where
  kRTLIOBase : BitVec 16
  kRXOffset : BitVec 32
  kRXUpperLayer : UIntPtr
  kRXBuffer : UIntPtr
  kTXRXEnabled : Bool
  pool : DmaPool
  outs : List PortWrite

def Driver.out (d : Driver) (port : BitVec 16) (value : BitVec 32) : Driver :=
  { d with outs := d.outs ++ [⟨d.kRTLIOBase + port, value⟩] }

/-- `rtl_init_nic_rtl8139`, with the first address of the device. The kernel stops when there is none. -/
def rtlInitNicRtl8139 (bar : UIntPtr) (d : Driver) : Option (Bool × Driver) :=
  if d.kTXRXEnabled then some (false, d)
  else
    let kRTLIOBase := bar.setWidth 16
    if kRTLIOBase = 0xFFFF then none
    else
      let chunk := rtlDmaAlloc (kRXBufferSize.setWidth 64) 0 d.pool
      let d := { d with kRTLIOBase, kRXBuffer := chunk.1, pool := chunk.2 }
      -- The wait for the end of the reset only reads.
      let d := d.out 0x37 0x10
      let d := d.out 0x30 (chunk.1.setWidth 32)
      let d := d.out 0x37 0x0C
      let d := d.out 0x44 (0xF ||| (1 <<< 7))
      let d := d.out 0x3C 0x0005
      some (true, { d with kTXRXEnabled := true })

def rtlRtl8139SetUpperLayer (layer : UIntPtr) (d : Driver) : Bool × Driver :=
  if layer = 0 then (false, d) else (true, { d with kRXUpperLayer := layer })

/-- Where a turn of the loop reads, and `kRXOffset` as it leaves it then. -/
def receiveOffset (kRXOffset : BitVec 32) : BitVec 32 × BitVec 32 :=
  let offset := kRXOffset % kRXBufferSize
  if offset ≥ kRXBufferSize - 16 then (0, 0) else (kRXOffset, offset)

/-- The length of a frame, in its header. -/
def frameLength : Field := { off := 2, size := 2 }

/-- A turn of the loop of `rtl_rtl8139_interrupt_handler`, with the byte that it hands on. -/
def receive (d : Driver) (mem : Memory) : Traced Access (Byte × Driver × Memory) := do
  let (kRXOffset, offset) := receiveOffset d.kRXOffset
  let len ← frameLength.fetch mem (d.kRXBuffer + offset.setWidth 64)
  let packet ← fetchByte mem (d.kRXBuffer + offset.setWidth 64 + 4)
  let cell := d.kRXUpperLayer + (offset + 4).setWidth 64
  Traced.emit (.write cell 1) ()
  let kRXOffset := kRXOffset + (len.setWidth 32 + 4)
  pure (packet, { d with kRXOffset }.out 0x38 ((kRXOffset - 16).setWidth 16 |>.setWidth 32), write mem cell [packet])

/-- The end of the handler. -/
def leaveHandler (status : BitVec 16) (d : Driver) : Driver :=
  if status &&& 0x04 = 0 then { d with pool := { d.pool with errGlobal := kErrorNoNetwork } } else d

/-! ## The device -/

def ringSize : ℕ := 8192

structure Frame where
  status : BitVec 16
  bytes : List Byte
  small : bytes.length < 2 ^ 16

namespace Frame

def header (f : Frame) : List Byte := leBytes 2 f.status.toNat ++ leBytes 2 f.bytes.length

/-- Where the frame behind this one begins. -/
def next (f : Frame) (start : ℕ) : ℕ := (start + 4 + f.bytes.length + 3) / 4 * 4 % ringSize

end Frame

/-- The frames lie one behind the other. A frame that reaches the end of the ring runs on behind it, as bit 7 of the
receive configuration asks, or goes on at its beginning. -/
def Placed (runsOn : Bool) (mem : Memory) (ring : UIntPtr) : ℕ → List Frame → Prop
  | _, [] => True
  | start, f :: rest =>
      read mem (ring + BitVec.ofNat 64 start) 4 = f.header ∧
      (∀ i, (inside : i < f.bytes.length) →
        let n := start + 4 + i
        mem (ring + BitVec.ofNat 64 (if runsOn then n else n % ringSize)) = f.bytes[i]) ∧
      Placed runsOn mem ring (f.next start) rest

/-- The driver and its device. A handler that is in its loop has read `polling`. The unread frames begin at `start`. -/
structure Nic where
  driver : Driver
  mem : Memory
  polling : Option (BitVec 16)
  log : List Access
  delivered : List Byte
  start : ℕ
  unread : List Frame
  taken : List Frame

namespace Nic

def boot (mem : Memory) (pool : DmaPool) : Nic :=
  ⟨⟨0xFFFF, 0, 0, 0, false, pool, []⟩, mem, none, [], [], 0, [], []⟩

/-- The handler up to its loop, or up to its end when it does not come to it. -/
def interrupt (status : BitVec 16) (s : Nic) : Nic :=
  if s.driver.kRTLIOBase = 0xFFFF ∨ s.driver.kRTLIOBase = 0 then s
  else
    let driver := s.driver.out 0x3E (status.setWidth 32)
    if status &&& 0x01 ≠ 0 then { s with driver, polling := some status }
    else { s with driver := leaveHandler status driver }

/-- The handler asks whether the ring is empty. It takes the next frame, or it ends. -/
def poll (status : BitVec 16) (s : Nic) : Nic :=
  match s.unread with
  | [] => { s with driver := leaveHandler status s.driver, polling := none }
  | f :: rest =>
      let turn := receive s.driver s.mem
      let (packet, driver, mem) := turn.val
      { s with driver, mem, log := s.log ++ turn.log, delivered := s.delivered ++ [packet], start := f.next s.start,
               unread := rest, taken := s.taken ++ [f] }

end Nic

inductive NicEvent
  | init (bar : UIntPtr)
  | setUpperLayer (layer : UIntPtr)
  | place (frame : Frame) (mem : Memory)
  | interrupt (status : BitVec 16)
  | poll

def NicStep (runsOn : Bool) : NicEvent → Nic → Nic → Prop
  | .init bar, s, t => s.polling = none ∧
      ∃ returns driver, rtlInitNicRtl8139 bar s.driver = some (returns, driver) ∧ t = { s with driver }
  | .setUpperLayer layer, s, t => s.polling = none ∧
      t = { s with driver := (rtlRtl8139SetUpperLayer layer s.driver).2 }
  | .place frame mem, s, t => s.driver.kTXRXEnabled = true ∧
      Placed runsOn mem s.driver.kRXBuffer s.start (s.unread ++ [frame]) ∧
      t = { s with mem, unread := s.unread ++ [frame] }
  | .interrupt status, s, t => s.polling = none ∧ t = s.interrupt status
  | .poll, s, t => ∃ status, s.polling = some status ∧ t = s.poll status

/-! ## What it is for -/

def AccessesInside (s : Nic) : Prop :=
  ∀ access ∈ s.log, access.ReadsIn s.driver.kRXBuffer kRXBufferSize.toNat

/-- The handler reads next where the next frame begins, has stayed in its buffer, and has handed on what the frames
held that it took. -/
structure Receives (s : Nic) : Prop where
  position : (receiveOffset s.driver.kRXOffset).2.toNat = s.start
  inside : AccessesInside s
  delivered : s.delivered = s.taken.flatMap Frame.bytes

/-- The handler finds no frame. -/
def NothingRead (event : NicEvent) (s : Nic) : Prop := event = .poll → s.unread = []

/-! ## Offsets -/

section Offsets
variable {k p q : ℕ}

theorem rounded_bounds (k : ℕ) : k ≤ (k + 3) / 4 * 4 ∧ (k + 3) / 4 * 4 < k + 4 := by omega

theorem turns_zero (few : q < 8) (same : 2427 * q = 2048 * p) : q = 0 := by omega

/-- Where the handler starts over, the ring does not. -/
theorem reset_not_next (bound : k < 73728) (high : 9692 ≤ k % 9708) : (k + 3) / 4 * 4 % 8192 ≠ 0 := by
  intro next
  obtain ⟨low, near⟩ := rounded_bounds k
  obtain ⟨p, round⟩ := Nat.dvd_of_mod_eq_zero next
  rw [round] at low near
  have whole := Nat.div_add_mod k 9708
  have below : k % 9708 < 9708 := Nat.mod_lt _ (by decide)
  generalize k / 9708 = q, k % 9708 = r at whole below high
  clear next round
  have turns : q < 8 := by omega
  interval_cases q <;> omega

/-- The two sizes have few multiples in common. -/
theorem offset_eq_next_iff (bound : k < 73728) : k % 9708 = (k + 3) / 4 * 4 % 8192 ↔ 4 ∣ k ∧ k < 8192 := by
  constructor
  · intro same
    obtain ⟨low, near⟩ := rounded_bounds k
    have whole := Nat.div_add_mod k 9708
    have ring := Nat.div_add_mod ((k + 3) / 4 * 4) 8192
    rw [← same] at ring
    have rounded : (k + 3) / 4 * 4 = k := by omega
    rw [rounded] at ring same
    have none : k / 9708 = 0 := turns_zero (p := k / 8192) (by omega) (by omega)
    exact ⟨by omega, by omega⟩
  · rintro ⟨aligned, small⟩
    omega

end Offsets

/-! ## A turn of the loop -/

section Turn
variable {kRXOffset : BitVec 32} {d : Driver} {mem : Memory} {runsOn : Bool} {start : ℕ} {f : Frame} {rest : List Frame}
  {ring : UIntPtr}

theorem kRXBufferSize_toNat : kRXBufferSize.toNat = 9708 := rfl

theorem receiveOffset_toNat (kRXOffset : BitVec 32) :
    (receiveOffset kRXOffset).2.toNat = if 9692 ≤ kRXOffset.toNat % 9708 then 0 else kRXOffset.toNat % 9708 := by
  have limit : (kRXOffset % kRXBufferSize ≥ kRXBufferSize - 16) ↔ 9692 ≤ kRXOffset.toNat % 9708 := by
    rw [ge_iff_le, BitVec.le_def, BitVec.toNat_umod]
    rfl
  unfold receiveOffset
  simp only [limit]
  split
  · rfl
  · exact BitVec.toNat_umod

theorem receiveOffset_lt (kRXOffset : BitVec 32) : (receiveOffset kRXOffset).2.toNat + 16 < kRXBufferSize.toNat := by
  rw [receiveOffset_toNat, kRXBufferSize_toNat]
  split <;> omega

theorem receiveOffset_small (small : kRXOffset.toNat < ringSize) :
    receiveOffset kRXOffset = (kRXOffset, kRXOffset) := by
  have bound : (kRXBufferSize - 16).toNat = 9692 := rfl
  have same : kRXOffset % kRXBufferSize = kRXOffset := by
    apply BitVec.eq_of_toNat_eq
    rw [BitVec.toNat_umod, kRXBufferSize_toNat, Nat.mod_eq_of_lt]
    exact small.trans (by decide)
  have low : ¬ kRXOffset ≥ kRXBufferSize - 16 := by
    rw [ge_iff_le, BitVec.le_def, bound]
    unfold ringSize at small
    omega
  rw [receiveOffset, same, if_neg low]

/-- Whatever the offset and the lengths: the handler reads inside its buffer. -/
theorem receive_inside (d : Driver) (mem : Memory) :
    Traced.Only (Access.ReadsIn d.kRXBuffer kRXBufferSize.toNat) (receive d mem) := by
  have low := receiveOffset_lt d.kRXOffset
  have wide : ((receiveOffset d.kRXOffset).2.setWidth 64).toNat = (receiveOffset d.kRXOffset).2.toNat := by
    rw [BitVec.toNat_setWidth, Nat.mod_eq_of_lt]
    omega
  have length : Covers d.kRXBuffer kRXBufferSize.toNat
      (d.kRXBuffer + (receiveOffset d.kRXOffset).2.setWidth 64 + BitVec.ofNat 64 frameLength.off) frameLength.size := by
    rw [covers_word_iff (by decide) (by decide) (by rw [wide]; simp only [frameLength]; omega), wide]
    simp only [frameLength]
    omega
  have packet : Covers d.kRXBuffer kRXBufferSize.toNat
      (d.kRXBuffer + (receiveOffset d.kRXOffset).2.setWidth 64 + 4) 1 := covers_byte (i := 4) (by rw [wide]; omega)
  unfold receive
  simp only [Traced.only_bind, Field.only_fetch, only_fetchByte, Traced.only_emit, Traced.only_pure,
    Access.readsIn_read, Access.readsIn_write]
  exact ⟨length, packet, trivial, trivial⟩

/-- The length that the handler finds in the header of a frame. -/
theorem frameLength_placed (placed : Placed runsOn mem ring start (f :: rest)) :
    (frameLength.on mem (ring + BitVec.ofNat 64 start)).toNat = f.bytes.length := by
  have halves := read_add mem (ring + BitVec.ofNat 64 start) 2 2
  rw [placed.1] at halves
  have length : leBytes 2 f.bytes.length = read mem (ring + BitVec.ofNat 64 start + BitVec.ofNat 64 2) 2 :=
    (List.append_inj halves (by simp)).2
  have small := f.small
  rw [Field.on, frameLength, load]
  rw [← length, leNat_leBytes, BitVec.toNat_ofNat]
  omega

/-- Behind a frame the handler goes on right only if the frame needs no filling up and does not reach the end of the
ring: it neither rounds its offset up nor reduces it by the size of the ring. -/
theorem position_iff (aligned : 4 ∣ start) (small : start < ringSize)
    (behind : kRXOffset.toNat = start + 4 + f.bytes.length) :
    (receiveOffset kRXOffset).2.toNat = f.next start ↔
      4 ∣ f.bytes.length ∧ start + 4 + f.bytes.length < ringSize := by
  have length := f.small
  unfold ringSize at small
  have bound : start + 4 + f.bytes.length < 73728 := by omega
  have multiple : 4 ∣ start + 4 + f.bytes.length ↔ 4 ∣ f.bytes.length := by omega
  rw [receiveOffset_toNat, behind, Frame.next, ringSize, ← multiple, ← offset_eq_next_iff bound]
  split
  · next high =>
      have apart := reset_not_next bound high
      have far : ¬ start + 4 + f.bytes.length < 8192 := by omega
      rw [offset_eq_next_iff bound]
      exact iff_of_false (fun zero => apart zero.symm) fun both => far both.2
  · rfl

/-- A turn hands on one byte. -/
theorem delivered_iff {delivered : List Byte} {taken : List Frame} {packet : Byte}
    (right : delivered = taken.flatMap Frame.bytes) :
    delivered ++ [packet] = (taken ++ [f]).flatMap Frame.bytes ↔ f.bytes = [packet] := by
  rw [List.flatMap_append, right, List.append_cancel_left_eq, List.flatMap_singleton]
  exact eq_comm

/-- A turn leaves its offset right behind the frame. -/
theorem receive_placed (placed : Placed runsOn mem d.kRXBuffer start (f :: rest)) (small : start < ringSize)
    (position : d.kRXOffset.toNat = start) :
    (receive d mem).val.2.1.kRXOffset.toNat = start + 4 + f.bytes.length := by
  have length := frameLength_placed placed
  have bound := f.small
  have here : d.kRXOffset.setWidth 64 = BitVec.ofNat 64 start := by
    apply BitVec.eq_of_toNat_eq
    rw [BitVec.toNat_setWidth, position, BitVec.toNat_ofNat]
  have four : (4 : BitVec 32).toNat = 4 := rfl
  unfold ringSize at small
  unfold receive
  simp only [receiveOffset_small (position.trans_lt small), Traced.val_bind, Traced.val_pure, Field.fetch_val, here,
    Driver.out, BitVec.toNat_add, BitVec.toNat_setWidth, length, position, four]
  omega

@[simp] theorem receive_kRXBuffer : (receive d mem).val.2.1.kRXBuffer = d.kRXBuffer := by
  unfold receive
  simp [Driver.out]

@[simp] theorem receive_kTXRXEnabled : (receive d mem).val.2.1.kTXRXEnabled = d.kTXRXEnabled := by
  unfold receive
  simp [Driver.out]

theorem leaveHandler_eq (status : BitVec 16) (d : Driver) :
    ∃ pool, leaveHandler status d = { d with pool } := by
  unfold leaveHandler
  split
  · exact ⟨_, rfl⟩
  · exact ⟨d.pool, rfl⟩

theorem setUpperLayer_eq (layer : UIntPtr) (d : Driver) :
    ∃ kRXUpperLayer, (rtlRtl8139SetUpperLayer layer d).2 = { d with kRXUpperLayer } := by
  unfold rtlRtl8139SetUpperLayer
  split
  · exact ⟨d.kRXUpperLayer, rfl⟩
  · exact ⟨layer, rfl⟩

/-- The driver is set up once. -/
theorem init_cases {bar : UIntPtr} {returns : Bool} {d' : Driver}
    (init : rtlInitNicRtl8139 bar d = some (returns, d')) :
    d' = d ∨ d.kTXRXEnabled = false ∧ d'.kTXRXEnabled = true ∧ d'.kRXOffset = d.kRXOffset := by
  unfold rtlInitNicRtl8139 at init
  generalize rtlDmaAlloc _ _ _ = chunk at init
  split at init
  · obtain ⟨-, rfl⟩ := Prod.mk.inj (Option.some.inj init)
    exact .inl rfl
  · next first =>
      dsimp only at init
      split at init
      · cases init
      · obtain ⟨-, rfl⟩ := Prod.mk.inj (Option.some.inj init)
        exact .inr ⟨Bool.eq_false_iff.mpr first, rfl, rfl⟩

end Turn

/-! ## Runs -/

/-- Before the driver is set up it has received nothing. -/
structure Ready (s : Nic) : Prop where
  quiet : s.driver.kTXRXEnabled = false →
    s.driver.kRTLIOBase = 0xFFFF ∧ s.polling = none ∧ s.log = [] ∧ s.unread = []
  inside : AccessesInside s

/-- The handler has kept up with the device. -/
structure InLine (runsOn : Bool) (s : Nic) : Prop extends Ready s where
  position : s.driver.kRXOffset.toNat = s.start
  small : s.start < ringSize
  aligned : 4 ∣ s.start
  placed : Placed runsOn s.mem s.driver.kRXBuffer s.start s.unread
  delivered : s.delivered = s.taken.flatMap Frame.bytes

section Steps
variable {runsOn : Bool} {event : NicEvent} {s t : Nic}

theorem boot_inLine (mem : Memory) (pool : DmaPool) : InLine runsOn (Nic.boot mem pool) where
  quiet _ := ⟨rfl, rfl, rfl, rfl⟩
  inside _ member := nomatch member
  position := rfl
  small := Nat.two_pow_pos 13
  aligned := ⟨0, rfl⟩
  placed := trivial
  delivered := rfl

theorem InLine.receives (line : InLine runsOn s) : Receives s where
  position := by
    rw [receiveOffset_small (line.position.trans_lt line.small)]
    exact line.position
  inside := line.inside
  delivered := line.delivered

theorem step_functional : ∀ event s t u, NicStep runsOn event s t → NicStep runsOn event s u → t = u := by
  intro event s t u first second
  cases event with
  | init bar =>
      obtain ⟨-, returns, driver, init, rfl⟩ := first
      obtain ⟨-, returns', driver', init', rfl⟩ := second
      obtain ⟨-, rfl⟩ := Prod.mk.inj (Option.some.inj (init.symm.trans init'))
      rfl
  | setUpperLayer layer => exact first.2.trans second.2.symm
  | place frame mem => exact first.2.2.trans second.2.2.symm
  | interrupt status => exact first.2.trans second.2.symm
  | poll =>
      obtain ⟨status, polling, rfl⟩ := first
      obtain ⟨status', polling', rfl⟩ := second
      rw [polling] at polling'
      rw [Option.some.inj polling']

/-- What an interrupt leaves as it is. -/
theorem interrupt_eq (status : BitVec 16) (s : Nic) :
    s.interrupt status = s ∨ s.driver.kRTLIOBase ≠ 0xFFFF ∧
      ∃ pool outs polling, s.interrupt status = { s with driver := { s.driver with pool, outs }, polling } := by
  unfold Nic.interrupt
  split
  · exact .inl rfl
  · next up =>
      refine .inr ⟨fun down => up (.inl down), ?_⟩
      dsimp only
      split
      · exact ⟨_, _, _, rfl⟩
      · obtain ⟨pool, same⟩ := leaveHandler_eq status (s.driver.out 0x3E (status.setWidth 32))
        exact ⟨pool, _, s.polling, by rw [same]; rfl⟩

theorem ready_step (ready : Ready s) (taken : NicStep runsOn event s t) : Ready t := by
  cases event with
  | init bar =>
      obtain ⟨-, returns, driver, init, rfl⟩ := taken
      rcases init_cases init with rfl | ⟨first, up, -⟩
      · exact ready
      · refine ⟨fun down => ?_, ?_⟩
        · rw [up] at down
          cases down
        · intro access member
          rw [(ready.quiet first).2.2.1] at member
          cases member
  | setUpperLayer layer =>
      obtain ⟨-, rfl⟩ := taken
      obtain ⟨kRXUpperLayer, same⟩ := setUpperLayer_eq layer s.driver
      rw [same]
      exact ⟨ready.quiet, ready.inside⟩
  | place frame mem =>
      obtain ⟨up, -, rfl⟩ := taken
      refine ⟨fun down => ?_, ready.inside⟩
      rw [up] at down
      cases down
  | interrupt status =>
      obtain ⟨-, rfl⟩ := taken
      rcases interrupt_eq status s with same | ⟨up, pool, outs, polling, same⟩
      · rw [same]
        exact ready
      · rw [same]
        exact ⟨fun down => absurd (ready.quiet down).1 up, ready.inside⟩
  | poll =>
      obtain ⟨status, polling, rfl⟩ := taken
      have up : s.driver.kTXRXEnabled ≠ false := by
        intro down
        rw [(ready.quiet down).2.1] at polling
        cases polling
      unfold Nic.poll
      split
      · obtain ⟨pool, same⟩ := leaveHandler_eq status s.driver
        rw [same]
        exact ⟨fun down => absurd down up, ready.inside⟩
      · refine ⟨fun down => absurd (receive_kTXRXEnabled.symm.trans down) up, ?_⟩
        intro access member
        dsimp only at member ⊢
        rw [receive_kRXBuffer]
        rcases List.mem_append.mp member with before | now
        · exact ready.inside access before
        · exact receive_inside s.driver s.mem access now

/-- As long as no frame is read, the handler keeps up. -/
theorem inLine_step (line : InLine runsOn s) (taken : NicStep runsOn event s t) (idle : NothingRead event s) :
    InLine runsOn t := by
  have ready := ready_step line.toReady taken
  cases event with
  | init bar =>
      obtain ⟨-, returns, driver, init, rfl⟩ := taken
      rcases init_cases init with rfl | ⟨first, -, offset⟩
      · exact line
      · refine ⟨ready, ?_, line.small, line.aligned, ?_, line.delivered⟩
        · exact (congrArg BitVec.toNat offset).trans line.position
        · rw [(line.quiet first).2.2.2]
          trivial
  | setUpperLayer layer =>
      obtain ⟨-, rfl⟩ := taken
      obtain ⟨kRXUpperLayer, same⟩ := setUpperLayer_eq layer s.driver
      rw [same] at ready ⊢
      exact ⟨ready, line.position, line.small, line.aligned, line.placed, line.delivered⟩
  | place frame mem =>
      obtain ⟨-, placed, rfl⟩ := taken
      exact ⟨ready, line.position, line.small, line.aligned, placed, line.delivered⟩
  | interrupt status =>
      obtain ⟨-, rfl⟩ := taken
      rcases interrupt_eq status s with same | ⟨-, pool, outs, polling, same⟩
      · rw [same]
        exact line
      · rw [same] at ready ⊢
        exact ⟨ready, line.position, line.small, line.aligned, line.placed, line.delivered⟩
  | poll =>
      obtain ⟨status, -, rfl⟩ := taken
      have empty := idle rfl
      obtain ⟨pool, same⟩ := leaveHandler_eq status s.driver
      have ends : s.poll status = { s with driver := { s.driver with pool }, polling := none } := by
        rw [Nic.poll, empty, same]
      rw [ends] at ready ⊢
      exact ⟨ready, line.position, line.small, line.aligned, line.placed, line.delivered⟩

/-- A frame of one byte is handed on whole, but it needs filling up; any other is not handed on whole. -/
theorem read_not_receives (line : InLine runsOn s) (status : BitVec 16) (some : s.unread ≠ []) :
    ¬ Receives (s.poll status) := by
  intro receives
  obtain ⟨f, rest, unread⟩ := List.exists_cons_of_ne_nil some
  have placed := line.placed
  rw [unread] at placed
  have position := receives.position
  have delivered := receives.delivered
  rw [Nic.poll, unread] at position delivered
  dsimp only at position delivered
  have one : f.bytes = [(receive s.driver s.mem).val.1] := (delivered_iff line.delivered).mp delivered
  have behind := receive_placed placed line.small line.position
  obtain ⟨whole, -⟩ := (position_iff line.aligned line.small behind).mp position
  rw [one, List.length_singleton] at whole
  exact absurd whole (by decide)

theorem receives_iff (line : InLine runsOn s) (taken : NicStep runsOn event s t) :
    Receives t ↔ NothingRead event s := by
  constructor
  · rintro receives rfl
    obtain ⟨status, -, rfl⟩ := taken
    by_contra some
    exact read_not_receives line status some receives
  · exact fun idle => (inLine_step line taken idle).receives

end Steps

/-- In every run the handler stays in its buffer, and it keeps up with the device exactly if it never finds a frame. -/
theorem receive_meets_iff {runsOn : Bool} {mem : Memory} {pool : DmaPool} {events : List NicEvent} {s : Nic}
    (run : Run (NicStep runsOn) (Nic.boot mem pool) events s) :
    Everywhere (NicStep runsOn) AccessesInside (Nic.boot mem pool) events ∧
    (Everywhere (NicStep runsOn) Receives (Nic.boot mem pool) events ↔
      AllSteps (NicStep runsOn) NothingRead (Nic.boot mem pool) events) := by
  have initial : InLine runsOn (Nic.boot mem pool) := boot_inLine mem pool
  refine ⟨fun before after _ t start => ?_, ?_⟩
  · exact (start.invariant (fun _ _ _ ready taken => ready_step ready taken) initial.toReady).inside
  · refine everywhere_iff step_functional run initial (fun _ line => line.receives)
      (fun _ _ _ line taken => receives_iff line taken) fun _ _ _ line taken receives => ?_
    exact inLine_step line taken ((receives_iff line taken).mp receives)

/-- A frame of 64 bytes, and the memory with it at the beginning of the ring. -/
def frame64 : Frame := ⟨1, List.replicate 64 0xAA, by decide⟩

def memory64 : Memory := write (fun _ => 0) 0 (frame64.header ++ frame64.bytes)

theorem frame64_placed : Placed true memory64 0 0 [frame64] := by
  refine ⟨by decide, ?_, trivial⟩
  decide

def booted : Nic := Nic.boot (fun _ => 0) Dma.start.pool

/-- The handler finds no frame, and the one that comes in then is not looked at. -/
def overlooked : List NicEvent := [.init 0xC000, .interrupt 5, .poll, .place frame64 memory64, .interrupt 4]

theorem receive_meets_iff_overlooked :
    Everywhere (NicStep true) AccessesInside booted overlooked ∧
    (Everywhere (NicStep true) Receives booted overlooked ↔ AllSteps (NicStep true) NothingRead booted overlooked) :=
  receive_meets_iff (.cons ⟨rfl, _, _, rfl, rfl⟩ (.cons ⟨rfl, rfl⟩ (.cons ⟨5, rfl, rfl⟩
    (.cons ⟨rfl, frame64_placed, rfl⟩ (.cons ⟨rfl, rfl⟩ (.nil _))))))

/-- One of the 64 bytes is handed on. -/
theorem frame_not_delivered : ¬ ∀ events s, Run (NicStep true) booted events s → Receives s := by
  intro every
  have receives := every [.init 0xC000, .place frame64 memory64, .interrupt 1, .poll] _
    (.cons ⟨rfl, _, _, rfl, rfl⟩ (.cons ⟨rfl, frame64_placed, rfl⟩ (.cons ⟨rfl, rfl⟩ (.cons ⟨1, rfl, rfl⟩ (.nil _)))))
  exact absurd (congrArg List.length receives.delivered) (by decide)

end Ne.Kernel.Network
