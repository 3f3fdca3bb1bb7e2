import NeKernel.Storage.AHCIRuns

/-!
# Contents of the AHCI disk

As long as no call gives up and no command fails, the driver and its controller are a disk whose calls copy between
it and the buffers.
-/

namespace Ne.Kernel.Storage
open ByteMem Dma Runs
open Ldr (rtCopyMemory)

/-! ## The disk of its callers -/

/-- Where a call goes to on the disk. -/
def AhciIo.place (io : AhciIo) : UIntPtr := BitVec.ofNat 64 (512 * ((io.lba / io.sectorSz).toNat % 2 ^ 48))

/-- What a call reads. -/
def AhciIo.fetched (io : AhciIo) (medium : Medium) : List Byte :=
  if io.kind = .identify then medium.identity else read medium.disk io.place io.sizeBuffer.toNat

/-- The purpose of a call: it copies from the buffer to the disk or back. -/
def AhciIo.effect (io : AhciIo) (v : Memory × Medium) : Memory × Medium :=
  if io.sectorSz = 0 ∨ io.buffer = 0 ∨ io.sizeBuffer = 0 then v
  else if io.kind = .write then
    (v.1, { v.2 with disk := ByteMem.write v.2.disk io.place (read v.1 io.buffer io.sizeBuffer.toNat) })
  else (ByteMem.write v.1 io.buffer (io.fetched v.2), v.2)

/-- Whole sectors, and one for an identification. -/
structure AhciIo.Whole (io : AhciIo) : Prop where
  sectors : 512 ∣ io.sizeBuffer.toNat
  one : io.kind = .identify → io.sizeBuffer.toNat = 512

def AhciEvent.io? : AhciEvent → Option AhciIo
  | .call io => some io
  | _ => none

/-- What a run asks for, one call after the other. -/
def callsOf (events : List AhciEvent) : List AhciIo := events.filterMap AhciEvent.io?

def effects (calls : List AhciIo) (v : Memory × Medium) : Memory × Medium := calls.foldl (fun v io => io.effect v) v

/-- Nobody gives up, and nothing fails. -/
def AhciEvent.Smooth (event : AhciEvent) : Prop := event ≠ .timeout ∧ event ≠ .done true

section Lists
variable {start : UIntPtr} {n : ℕ} {entries : List HbaPrdtEntry} {mem : Memory} {bytes : List Byte}

theorem gather_eq (tiles : Tiles start n entries) : gather mem entries = read mem start n := by
  induction tiles with
  | none => rfl
  | @next start size e rest base _ _ ih =>
      rw [read_add, ← ih, ← base]
      rfl

theorem scatter_eq (tiles : Tiles start n entries) (long : bytes.length = n) (small : n ≤ 2 ^ 64) :
    scatter entries bytes mem = write mem start bytes := by
  induction tiles generalizing bytes mem with
  | none =>
      rw [List.length_eq_zero_iff.mp long]
      rfl
  | @next start size e rest base _ _ ih =>
      have first : (bytes.take e.bytes).length = e.bytes := by
        rw [List.length_take]
        omega
      have later : (bytes.drop e.bytes).length = size := by
        rw [List.length_drop]
        omega
      have joined := @write_add 64 mem start (bytes.take e.bytes) (bytes.drop e.bytes) (by omega)
      rw [List.take_append_drop, first] at joined
      rw [scatter, base, ih later (by omega)]
      exact joined

end Lists

section Commands
variable {io : AhciIo} {slot : ℕ} {ptr : UIntPtr} {chunk : ℕ} {mem : Memory} {medium : Medium}

theorem AhciIo.command_offset : (io.command slot ptr).offset = io.place := by
  rw [AhciCommand.offset, AhciIo.place]
  exact congrArg (fun n => BitVec.ofNat 64 (512 * n)) commandFor_sector

theorem AhciIo.command_transferred (fits : io.Fits chunk) (whole : io.Whole) (filled : io.sizeBuffer ≠ 0) :
    (io.command slot ptr).transferred = io.sizeBuffer.toNat := by
  have positive : 0 < io.sizeBuffer.toNat := by
    have nonzero : io.sizeBuffer.toNat ≠ 0 := fun zero => filled (BitVec.eq_of_toNat_eq zero)
    omega
  have listed := fits.listed
  have sectors := whole.sectors
  have count : (ahciSectors io.identify io.sizeBuffer).toNat = io.sizeBuffer.toNat / 512 := by
    unfold ahciSectors AhciIo.identify
    split
    · next identify =>
        rw [whole.one (of_decide_eq_true identify)]
        rfl
    · rw [BitVec.toNat_udiv]
      rfl
  have parts : (io.command slot ptr).Cfis.CountLow.toNat + 2 ^ 8 * (io.command slot ptr).Cfis.CountHigh.toNat =
      io.sizeBuffer.toNat / 512 := by
    show ((ahciSectors io.identify io.sizeBuffer).setWidth 8).toNat +
      2 ^ 8 * ((ahciSectors io.identify io.sizeBuffer >>> 8).setWidth 8).toNat = _
    rw [BitVec.toNat_setWidth, BitVec.toNat_setWidth, BitVec.toNat_ushiftRight, Nat.shiftRight_eq_div_pow, count]
    omega
  rw [AhciCommand.transferred, parts, if_neg (by omega)]
  omega

/-- What a controller does for a command of the driver, over a chunk. -/
theorem AhciIo.served (fits : io.Fits chunk) (whole : io.Whole) (filled : io.sizeBuffer ≠ 0)
    (long : medium.identity.length = 512) :
    (io.command slot ptr).serve mem medium =
      if io.kind = .write then
        (mem, { medium with disk := ByteMem.write medium.disk io.place (read mem ptr io.sizeBuffer.toNat) })
      else (ByteMem.write mem ptr (io.fetched medium), medium) := by
  have size := @AhciIo.command_transferred io slot ptr chunk fits whole filled
  have tiles : Tiles ptr io.sizeBuffer.toNat (io.command slot ptr).Prdt := (prdtOf_tiles _ _).markLast
  have bound := io.sizeBuffer.isLt
  unfold AhciCommand.serve
  rw [size, AhciIo.command_offset, gather_eq tiles]
  unfold AhciIo.fetched
  have code : (io.command slot ptr).Cfis.Command =
      if io.identify then kAHCICmdIdentify else if io.write then kAHCICmdWriteDmaEx else kAHCICmdReadDmaEx := rfl
  rcases kind : io.kind with _ | _ | _
  · have identify : (io.command slot ptr).Cfis.Command = kAHCICmdIdentify := by
      rw [code, AhciIo.identify, kind]
      rfl
    have all : medium.identity.take io.sizeBuffer.toNat = medium.identity :=
      List.take_of_length_le (by rw [long, whole.one kind])
    rw [if_pos identify, all, scatter_eq tiles (by rw [long, whole.one kind]) bound.le]
    rfl
  · have reads : (io.command slot ptr).Cfis.Command = kAHCICmdReadDmaEx := by
      rw [code, AhciIo.identify, AhciIo.write, kind]
      rfl
    rw [reads, if_neg (by decide), if_neg (by decide), if_pos rfl, scatter_eq tiles read_length bound.le]
    rfl
  · have writes : (io.command slot ptr).Cfis.Command = kAHCICmdWriteDmaEx := by
      rw [code, AhciIo.identify, AhciIo.write, kind]
      rfl
    have all : (read mem ptr io.sizeBuffer.toNat).take io.sizeBuffer.toNat = read mem ptr io.sizeBuffer.toNat :=
      List.take_of_length_le (by rw [read_length])
    rw [writes, if_neg (by decide), if_pos rfl, all]
    rfl

end Commands

/-! ## The pool and the rest of the memory -/

def OfPool (x : UIntPtr) : Prop := Within kNeDMAPoolStart kNeDMAPoolSize.toNat x

section Regions
variable {b slot : ℕ} {s : AhciMachine} {io : AhciIo} {x dst src : UIntPtr} {len : ℕ} {m : Memory}

theorem ofPool_iff : OfPool x ↔ 0x1000000 ≤ x.toNat ∧ x.toNat < 0x2000000 := within_iff (by decide)

theorem rtCopyMemory_moves (apart : ByteMem.Apart src len dst len) (source : src ≠ 0) (destination : dst ≠ 0)
    (small : len ≤ 2 ^ 64) : (rtCopyMemory src dst len m).val = ByteMem.write m dst (read m src len) := by
  unfold rtCopyMemory
  rcases Nat.eq_zero_or_pos len with rfl | positive
  · rfl
  · have behind : ¬ Ahead src dst (len * 1) := by
      rw [Nat.mul_one]
      exact fun ahead => apart dst ahead.2 (within_self positive)
    have moved := @copyWords_moves dst src len 1 m (by rwa [Nat.mul_one]) behind
    rw [Nat.mul_one] at moved
    rw [if_neg (by omega), if_neg (not_or.mpr ⟨source, destination⟩)]
    exact moved

theorem chunk_ofPool (low : 0x1000000 ≤ b) (fits : io.Fits (chunkAt b))
    (inside : Within (BitVec.ofNat 64 (chunkAt b)) io.sizeBuffer.toNat x) : OfPool x := by
  have structures := chunkAt_low b
  have pooled : chunkAt b + io.sizeBuffer.toNat ≤ 0x2000000 := fits.pooled
  rw [within_ofNat (pooled.trans (by decide))] at inside
  rw [ofPool_iff]
  omega

theorem own_ofPool (laid : Structures b s) (low : slot < kSATAPortCnt) (own : OwnArea b slot x) : OfPool x := by
  obtain ⟨above, below⟩ := own_inside laid.high low own
  rw [ofPool_iff]
  exact ⟨laid.low.trans above, Nat.lt_of_lt_of_le below laid.high⟩

theorem chunk_nonzero (low : 0x1000000 ≤ b) (fits : io.Fits (chunkAt b)) : BitVec.ofNat 64 (chunkAt b) ≠ 0 := by
  intro null
  have structures := chunkAt_low b
  have pooled : chunkAt b + io.sizeBuffer.toNat ≤ 0x2000000 := fits.pooled
  have place := congrArg BitVec.toNat null
  rw [BitVec.toNat_ofNat, Nat.mod_eq_of_lt (by omega)] at place
  simp only [BitVec.ofNat_eq_ofNat, BitVec.toNat_ofNat] at place
  omega

theorem buffer_chunk (low : 0x1000000 ≤ b) (fits : io.Fits (chunkAt b)) :
    ByteMem.Apart io.buffer io.sizeBuffer.toNat (BitVec.ofNat 64 (chunkAt b)) io.sizeBuffer.toNat :=
  fun y buffer chunk => fits.outside y buffer (chunk_ofPool low fits chunk)

section Issues
variable (kept : Kept b s) (low : slot < kSATAPortCnt) (fits : io.Fits (chunkAt b))
  (chunk : (rtlDmaAlloc io.sizeBuffer 4096 s.pool).1 = BitVec.ofNat 64 (chunkAt b))
include kept low fits chunk

theorem issue_outside (outside : ¬ OfPool x) :
    (io.issue (io.command slot (BitVec.ofNat 64 (chunkAt b))) s).mem x = s.mem x := by
  have noHeader : ¬ Within (s.header slot) 4 x := by
    rw [kept.header_eq]
    exact fun inside => outside (own_ofPool kept.toStructures low (.inl (inside.mono (by decide))))
  have noTable : ¬ Within (s.port.table slot) kCommandTableSize x := by
    rw [kept.table_eq low]
    exact fun inside => outside (own_ofPool kept.toStructures low (.inr inside))
  have noChunk : ¬ Within (rtlDmaAlloc io.sizeBuffer 4096 s.pool).1 io.sizeBuffer.toNat x := by
    rw [chunk]
    exact fun inside => outside (chunk_ofPool kept.low fits inside)
  exact (put_outside fits.few noHeader noTable).trans (stage_outside noTable noChunk)

/-- What is to be written waits in the chunk. -/
theorem issue_staged (given : io.buffer ≠ 0) (write : io.kind = .write) :
    read (io.issue (io.command slot (BitVec.ofNat 64 (chunkAt b))) s).mem (BitVec.ofNat 64 (chunkAt b))
      io.sizeBuffer.toNat = read s.mem io.buffer io.sizeBuffer.toNat := by
  have bound := io.sizeBuffer.isLt
  have pooled : chunkAt b + io.sizeBuffer.toNat ≤ 0x2000000 := fits.pooled
  have structures := chunkAt_low b
  have beside : ∀ x, Within (BitVec.ofNat 64 (chunkAt b)) io.sizeBuffer.toNat x → ¬ OwnArea b slot x := by
    intro x inside own
    have below := (own_inside kept.high low own).2
    rw [within_ofNat (pooled.trans (by decide))] at inside
    omega
  have table : ∀ x, Within io.buffer io.sizeBuffer.toNat x → ¬ Within (s.port.table slot) HbaCmdTbl.size x := by
    intro x buffer cleared
    rw [kept.table_eq low] at cleared
    exact fits.outside x buffer (own_ofPool kept.toStructures low (.inr (cleared.mono (by decide))))
  have staged : io.stage (s.port.table slot) (BitVec.ofNat 64 (chunkAt b)) s.mem =
      ByteMem.write (rtSetMemory (s.port.table slot) 0 HbaCmdTbl.size s.mem) (BitVec.ofNat 64 (chunkAt b))
        (read s.mem io.buffer io.sizeBuffer.toNat) := by
    have moved := @rtCopyMemory_moves (BitVec.ofNat 64 (chunkAt b)) io.buffer io.sizeBuffer.toNat
      (rtSetMemory (s.port.table slot) 0 HbaCmdTbl.size s.mem) (buffer_chunk kept.low fits) given
      (chunk_nonzero kept.low fits) bound.le
    rw [read_congr bound.le fun x buffer => rtSetMemory_outside le_rfl (table x buffer)] at moved
    unfold AhciIo.stage
    rw [if_pos write]
    exact moved
  have stored : ∀ x, Within (BitVec.ofNat 64 (chunkAt b)) io.sizeBuffer.toNat x →
      (io.issue (io.command slot (BitVec.ofNat 64 (chunkAt b))) s).mem x =
        io.stage (s.port.table slot) (BitVec.ofNat 64 (chunkAt b)) s.mem x := by
    intro x inside
    show (io.command slot (BitVec.ofNat 64 (chunkAt b))).put (s.header slot) (s.port.table slot)
      (io.stage (s.port.table slot) (rtlDmaAlloc io.sizeBuffer 4096 s.pool).1 s.mem) x = _
    rw [chunk]
    refine put_outside fits.few ?_ ?_
    · rw [kept.header_eq]
      exact fun header => beside x inside (.inl (header.mono (by decide)))
    · rw [kept.table_eq low]
      exact fun tables => beside x inside (.inr tables)
  rw [read_congr bound.le stored, staged]
  have same := @read_write_same 64 (rtSetMemory (s.port.table slot) 0 HbaCmdTbl.size s.mem)
    (BitVec.ofNat 64 (chunkAt b)) (read s.mem io.buffer io.sizeBuffer.toNat) (by rw [read_length]; exact bound.le)
  rwa [read_length] at same

end Issues

end Regions

/-! ## The machine is the disk of its callers -/

/-- Beside the pool. -/
structure SameContents (s : AhciMachine) (v : Memory × Medium) : Prop where
  medium : s.medium = v.2
  mem : ∀ x, ¬ OfPool x → s.mem x = v.1 x

/-- The command of the waiting call is in flight, or it was served. -/
inductive Progress (w : Waiting) (s : AhciMachine) (v : Memory × Medium) : Prop
  | flying (ci : s.ci = (1 : BitVec 32) <<< w.slot) (issued : s.issued w.slot = some (w.io.command w.slot w.ptr))
      (medium : s.medium = v.2)
      (staged : w.io.kind = .write →
        read s.mem w.ptr w.io.sizeBuffer.toNat = read v.1 w.io.buffer w.io.sizeBuffer.toNat)
  | served (ci : s.ci = 0) (medium : s.medium = (w.io.effect v).2)
      (fetched : w.io.kind ≠ .write → read s.mem w.ptr w.io.sizeBuffer.toNat = w.io.fetched v.2)

structure Underway (w : Waiting) (s : AhciMachine) (v : Memory × Medium) : Prop where
  accepted : ¬ (w.io.sectorSz = 0 ∨ w.io.buffer = 0 ∨ w.io.sizeBuffer = 0)
  whole : w.io.Whole
  mem : ∀ x, ¬ OfPool x → s.mem x = v.1 x
  progress : Progress w s v

/-- The calls so far have had their effects, but for the one that waits. -/
structure Mirrors (v : Memory × Medium) (calls : List AhciIo) (s : AhciMachine) : Prop where
  idle : s.waiting = none → s.ci = 0 ∧ SameContents s (effects calls v)
  busy : ∀ w, s.waiting = some w → ∃ earlier, calls = earlier ++ [w.io] ∧ Underway w s (effects earlier v)

section Effects
variable {io : AhciIo} {v : Memory × Medium} {calls : List AhciIo}

theorem effects_append : effects (calls ++ [io]) v = io.effect (effects calls v) := by
  rw [effects, List.foldl_append]
  rfl

theorem effect_identity : (io.effect v).2.identity = v.2.identity := by
  unfold AhciIo.effect
  split_ifs <;> rfl

theorem effects_identity : (effects calls v).2.identity = v.2.identity := by
  induction calls using List.reverseRecOn with
  | nil => rfl
  | append_singleton calls io ih => rw [effects_append, effect_identity, ih]

theorem effect_rejected (rejected : io.sectorSz = 0 ∨ io.buffer = 0 ∨ io.sizeBuffer = 0) : io.effect v = v := by
  unfold AhciIo.effect
  rw [if_pos rejected]

theorem effect_write (accepted : ¬ (io.sectorSz = 0 ∨ io.buffer = 0 ∨ io.sizeBuffer = 0))
    (kind : io.kind = .write) :
    io.effect v =
      (v.1, { v.2 with disk := ByteMem.write v.2.disk io.place (read v.1 io.buffer io.sizeBuffer.toNat) }) := by
  unfold AhciIo.effect
  rw [if_neg accepted, if_pos kind]

theorem effect_fetch (accepted : ¬ (io.sectorSz = 0 ∨ io.buffer = 0 ∨ io.sizeBuffer = 0))
    (kind : io.kind ≠ .write) :
    io.effect v = (ByteMem.write v.1 io.buffer (io.fetched v.2), v.2) := by
  unfold AhciIo.effect
  rw [if_neg accepted, if_neg kind]

theorem fetched_length (whole : io.Whole) (long : v.2.identity.length = 512) :
    (io.fetched v.2).length = io.sizeBuffer.toNat := by
  unfold AhciIo.fetched
  split
  · next identify => rw [long, whole.one identify]
  · exact read_length

end Effects

section Steps
variable {b slot : ℕ} {s s' : AhciMachine} {io : AhciIo} {w : Waiting} {v : Memory × Medium} {calls : List AhciIo}

theorem Mirrors.call (mirrors : Mirrors v calls s) (kept : Kept b s) (idle : s.waiting = none)
    (fits : io.Fits (chunkAt b)) (whole : io.Whole) (started : io.start s = some s') :
    Mirrors v (calls ++ [io]) s' := by
  obtain ⟨none, same⟩ := mirrors.idle idle
  have pointed := kept.pointed
  rw [idle] at pointed
  obtain ⟨rejects, rfl⟩ | ⟨slot, issues, rfl⟩ := start_cases kept.toStructures started
  · have rejected : io.sectorSz = 0 ∨ io.buffer = 0 ∨ io.sizeBuffer = 0 := by
      unfold Rejects at rejects
      rw [idle_slot none] at rejects
      simpa using rejects
    refine ⟨fun _ => ⟨none, ?_⟩, fun w waits => ?_⟩
    · rw [effects_append, effect_rejected rejected]
      exact ⟨same.medium, same.mem⟩
    · rw [show s.waiting = some w from waits] at idle
      cases idle
  · obtain ⟨sized, given, filled, found, -, -⟩ := issues
    have low : slot < kSATAPortCnt := waitCmdSlot_lt found
    obtain ⟨chunk, -⟩ := chunk_granted pointed fits filled
    have outside (x : UIntPtr) (beside : ¬ OfPool x) :=
      (issue_outside kept low fits chunk beside).trans (same.mem x beside)
    rw [chunk]
    refine ⟨fun waits => ?_, fun w waits => ?_⟩
    · cases waits
    obtain rfl : ⟨io, slot, (rtlDmaAlloc io.sizeBuffer 4096 s.pool).1⟩ = w := Option.some.inj waits
    refine ⟨calls, rfl, ?_, whole, outside, ?_⟩
    · rintro (zero | zero | zero)
      · exact sized zero
      · exact given zero
      · exact filled zero
    · refine .flying ?_ ?_ same.medium fun write => ?_
      · show s.ci ||| (1 : BitVec 32) <<< slot = _
        rw [none]
        exact BitVec.zero_or
      · rw [chunk]
        exact Function.update_self _ _ _
      · rw [chunk]
        refine (issue_staged kept low fits chunk given write).trans ?_
        exact read_congr io.sizeBuffer.isLt.le fun x buffer => same.mem x (fits.outside x buffer)

theorem Mirrors.serve (mirrors : Mirrors v calls s) (kept : Kept b s) (long : v.2.identity.length = 512)
    (low : slot < kSATAPortCnt) (flies : s.ci.getLsbD slot) : Mirrors v calls (s.serve slot) := by
  have pointed := kept.pointed
  rcases waits : s.waiting with _ | w
  · rw [(mirrors.idle waits).1] at flies
    simp at flies
  obtain ⟨earlier, split, underway⟩ := mirrors.busy w waits
  rw [waits] at pointed
  obtain ⟨inRange, chunk, filled, fits, -⟩ := pointed
  rcases underway.progress with ⟨ci, issued, medium, staged⟩ | ⟨ci, -, -⟩
  swap
  · rw [ci] at flies
    simp at flies
  have same : slot = w.slot := by
    rw [ci, bit_iff low] at flies
    exact of_decide_eq_true flies
  subst same
  obtain ⟨command, last, found⟩ := kept.flying w.slot low (by rw [ci, bit_iff low]; exact decide_eq_true rfl)
  obtain rfl := Option.some.inj (issued.symm.trans last)
  have identity : s.medium.identity.length = 512 := by rw [medium, effects_identity, long]
  have served : (AhciCommand.at s.mem (s.clb.setWidth 64) w.slot).serve s.mem s.medium =
      if w.io.kind = .write then
        (s.mem, { s.medium with
          disk := ByteMem.write s.medium.disk w.io.place (read s.mem w.ptr w.io.sizeBuffer.toNat) })
      else (ByteMem.write s.mem w.ptr (w.io.fetched s.medium), s.medium) := by
    rw [kept.clb, found.same]
    exact AhciIo.served fits underway.whole filled identity
  have clear : (s.serve w.slot).ci = 0 := by
    show s.ci &&& ~~~((1 : BitVec 32) <<< w.slot) = 0
    rw [ci]
    simp
  have bytes := @fetched_length w.io (effects earlier v) underway.whole (by rw [effects_identity, long])
  refine ⟨fun idle => ?_, fun w' waits' => ?_⟩
  · rw [show s.waiting = none from idle] at waits
    cases waits
  obtain rfl : w = w' := Option.some.inj (waits.symm.trans waits')
  refine ⟨earlier, split, underway.accepted, underway.whole, fun x beside => ?_, .served clear ?_ fun fetch => ?_⟩
  · refine Eq.trans ?_ (underway.mem x beside)
    show ((AhciCommand.at s.mem (s.clb.setWidth 64) w.slot).serve s.mem s.medium).1 x = _
    rw [served]
    split
    · rfl
    · refine write_outside fun inside => beside (chunk_ofPool kept.low fits ?_)
      rw [medium, bytes, chunk] at inside
      exact inside
  · show ((AhciCommand.at s.mem (s.clb.setWidth 64) w.slot).serve s.mem s.medium).2 = _
    rw [served]
    split
    · next write => rw [effect_write underway.accepted write, medium, staged write]
    · next fetch => rw [effect_fetch underway.accepted fetch, medium]
  · have stored : (s.serve w.slot).mem = ByteMem.write s.mem w.ptr (w.io.fetched s.medium) := by
      show ((AhciCommand.at s.mem (s.clb.setWidth 64) w.slot).serve s.mem s.medium).1 = _
      rw [served, if_neg fetch]
    rw [stored, medium, ← bytes]
    exact read_write_same (by rw [bytes]; exact w.io.sizeBuffer.isLt.le)

theorem Mirrors.finish (mirrors : Mirrors v calls s) (kept : Kept b s) (waits : s.waiting = some w)
    (served : ¬ s.ci.getLsbD w.slot) : Mirrors v calls (w.finish false s) := by
  have pointed := kept.pointed
  obtain ⟨earlier, split, underway⟩ := mirrors.busy w waits
  rw [waits] at pointed
  obtain ⟨inRange, chunk, filled, fits, -⟩ := pointed
  rcases underway.progress with ⟨ci, -, -, -⟩ | ⟨ci, medium, fetched⟩
  · rw [ci, bit_iff inRange] at served
    exact absurd (decide_eq_true rfl) served
  have given : w.io.buffer ≠ 0 := fun null => underway.accepted (.inr (.inl null))
  refine ⟨fun _ => ⟨ci, ?_⟩, fun w' waits' => ?_⟩
  swap
  · cases waits'
  rw [split, effects_append]
  refine ⟨medium, fun x beside => ?_⟩
  by_cases kind : w.io.kind = .write
  · have kept' : (w.finish false s).mem = s.mem := by
      unfold Waiting.finish AhciIo.write
      rw [if_neg (by decide), kind]
      rfl
    rw [kept', effect_write underway.accepted kind]
    exact underway.mem x beside
  · have copied : (w.finish false s).mem = ByteMem.write s.mem w.io.buffer (w.io.fetched (effects earlier v).2) := by
      have moved := @rtCopyMemory_moves w.io.buffer w.ptr w.io.sizeBuffer.toNat s.mem
        (by rw [chunk]; exact (buffer_chunk kept.low fits).symm)
        (by rw [chunk]; exact chunk_nonzero kept.low fits) given w.io.sizeBuffer.isLt.le
      rw [fetched kind] at moved
      unfold Waiting.finish AhciIo.write
      rw [if_neg (by decide), decide_eq_false kind]
      exact moved
    rw [copied, effect_fetch underway.accepted kind]
    unfold ByteMem.write
    rw [underway.mem x beside]

theorem Mirrors.step {event : AhciEvent} (mirrors : Mirrors v calls s) (kept : Kept b s)
    (long : v.2.identity.length = 512) (fits : ∀ io, event = .call io → io.Fits (chunkAt b) ∧ io.Whole)
    (smooth : event.Smooth) (taken : AhciSteps event s s') : Mirrors v (calls ++ callsOf [event]) s' := by
  obtain ⟨io, rfl, idle, started⟩ | ⟨slot, rfl, low, flies, rfl⟩ | ⟨taskFile, w, rfl, waits, served, rfl⟩ |
    ⟨w, rfl, waits, rfl⟩ := step_cases taken
  · obtain ⟨room, whole⟩ := fits io rfl
    exact mirrors.call kept idle room whole started
  · rw [show calls ++ callsOf [.serve slot] = calls from List.append_nil calls]
    exact mirrors.serve kept long low flies
  · rw [show calls ++ callsOf [.done taskFile] = calls from List.append_nil calls]
    cases taskFile with
    | false => exact mirrors.finish kept waits served
    | true => exact absurd rfl smooth.2
  · exact absurd rfl smooth.1

theorem Mirrors.run {events : List AhciEvent} (mirrors : Mirrors v calls s) (kept : Kept b s)
    (long : v.2.identity.length = 512) (fits : ∀ io, .call io ∈ events → io.Fits (chunkAt b) ∧ io.Whole)
    (smooth : ∀ event ∈ events, event.Smooth) (run : Run AhciSteps s events s') :
    Mirrors v (calls ++ callsOf events) s' := by
  induction run generalizing calls with
  | nil => rwa [show calls ++ callsOf [] = calls from List.append_nil calls]
  | @cons s t u event events head _ ih =>
      have here : ∀ io, event = .call io → io.Fits (chunkAt b) ∧ io.Whole :=
        fun io call => fits io (by simp [call])
      have first := mirrors.step kept long here (smooth event (by simp)) head
      have next := kept.step (fun io call => (here io call).1) head
      have all : callsOf (event :: events) = callsOf [event] ++ callsOf events := by
        unfold callsOf
        rw [← List.filterMap_append]
        rfl
      rw [all, ← List.append_assoc]
      exact ih first next (fun io member => fits io (by simp [member]))
        fun event member => smooth event (by simp [member])

end Steps

/-- When the last call of a run is back, the disk and the memory are what the calls make of them one after the other.
Only the memory of the pool was used otherwise. -/
theorem run_contents {mmGetPageAddr : UIntPtr → UIntPtr} {mem : Memory} {pool : DmaPool} {medium : Medium}
    {s₀ s : AhciMachine} {events : List AhciEvent} (maps : MapsPool mmGetPageAddr)
    (inPool : Dma.InPool pool.kDmaPoolPtr)
    (ready : AhciMachine.ready mmGetPageAddr mem pool medium = some s₀) (long : medium.identity.length = 512)
    (fits : ∀ io, .call io ∈ events → io.Fits (aligned 4096 s₀.pool.kDmaPoolPtr).toNat ∧ io.Whole)
    (smooth : ∀ event ∈ events, event.Smooth) (run : Run AhciSteps s₀ events s) (idle : s.waiting = none) :
    s.medium = (effects (callsOf events) (s₀.mem, medium)).2 ∧
      ∀ x, ¬ OfPool x → s.mem x = (effects (callsOf events) (s₀.mem, medium)).1 x := by
  have fresh := ready_fresh maps inPool ready
  have same := ready_medium ready
  subst same
  rw [fresh.chunk.2] at fits
  have initial : Mirrors (s₀.mem, s₀.medium) [] s₀ := by
    refine ⟨fun _ => ⟨fresh.ci, rfl, fun _ _ => rfl⟩, fun w waits => ?_⟩
    rw [fresh.waiting] at waits
    cases waits
  obtain ⟨-, same⟩ := (initial.run fresh.kept long fits smooth run).idle idle
  exact ⟨same.medium, same.mem⟩

/-- A disk that holds a letter throughout. -/
def letters : Medium := ⟨fun _ => 0x41, List.replicate 512 0⟩

/-- The third sector arrives in the buffer. -/
theorem run_contents_third : ∃ s₀ s : AhciMachine, Run AhciSteps s₀ [.call readThird, .serve 0, .done false] s ∧
    s.medium = (effects [readThird] (s₀.mem, letters)).2 ∧
      ∀ x, ¬ OfPool x → s.mem x = (effects [readThird] (s₀.mem, letters)).1 x := by
  have inPool : Dma.InPool start.pool.kDmaPoolPtr := ⟨by decide, by decide⟩
  obtain ⟨s₀, ready⟩ := @ready_of_room id (fun _ => 0) start.pool letters (by decide) (by decide)
  have fresh : Fresh 0x1000000 s₀ := ready_fresh (fun _ _ => rfl) inPool ready
  obtain ⟨s₁, issued⟩ : ∃ s, s = readThird.issue (readThird.command 0 (rtlDmaAlloc readThird.sizeBuffer 4096
    s₀.pool).1) s₀ := ⟨_, rfl⟩
  have started : AhciSteps (.call readThird) s₀ s₁ := by
    unfold AhciSteps AhciEvent.step
    rw [fresh.waiting, issued]
    exact start_issues (readThird_issues fresh)
  obtain ⟨w, waits, slot⟩ : ∃ w, s₁.waiting = some w ∧ w.slot = 0 := ⟨_, by rw [issued]; rfl, rfl⟩
  have ci : s₁.ci = (1 : BitVec 32) <<< 0 := by
    rw [issued]
    show s₀.ci ||| (1 : BitVec 32) <<< 0 = _
    rw [fresh.ci]
    rfl
  have flies : 0 < kSATAPortCnt ∧ s₁.ci.getLsbD 0 := by
    rw [ci]
    decide
  have served : AhciSteps (.serve 0) s₁ (s₁.serve 0) := by
    unfold AhciSteps AhciEvent.step
    exact if_pos flies
  have clear : ¬ (s₁.serve 0).ci.getLsbD w.slot := by
    show ¬ (s₁.ci &&& ~~~((1 : BitVec 32) <<< 0)).getLsbD w.slot = true
    rw [ci, slot]
    decide
  have done : AhciSteps (.done false) (s₁.serve 0) (w.finish false (s₁.serve 0)) := by
    unfold AhciSteps AhciEvent.step
    rw [show (s₁.serve 0).waiting = some w from waits]
    exact if_neg clear
  have run : Run AhciSteps s₀ [.call readThird, .serve 0, .done false] (w.finish false (s₁.serve 0)) :=
    .cons started (.cons served (.single done))
  have smooth : ∀ event ∈ ([.call readThird, .serve 0, .done false] : List AhciEvent), event.Smooth := by
    simp [AhciEvent.Smooth]
  have fits : ∀ io, .call io ∈ ([.call readThird, .serve 0, .done false] : List AhciEvent) →
      io.Fits (aligned 4096 s₀.pool.kDmaPoolPtr).toNat ∧ io.Whole := by
    intro io member
    obtain rfl : io = readThird := by simpa using member
    rw [fresh.chunk.2]
    exact ⟨readThird_fits, by decide, fun _ => rfl⟩
  have maps : MapsPool id := fun _ _ => rfl
  have long : letters.identity.length = 512 := List.length_replicate ..
  have contents := run_contents maps inPool ready long fits smooth run rfl
  rw [show callsOf [.call readThird, .serve 0, .done false] = [readThird] from rfl] at contents
  exact ⟨s₀, w.finish false (s₁.serve 0), run, contents⟩

end Ne.Kernel.Storage
