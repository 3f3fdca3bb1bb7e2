import NeKernel.Acpi.FactoryInterface
import NeKernel.Lib.Courses

/-!
# The cores that the MADT lists

`mp_init_cores` walks over the records of the table by their own lengths, and `mp_register_task` and
`mp_get_current_task` index by a thread of at most the number of cores it counted. The registers of the
local APIC are left out.
-/

namespace Ne.Kernel.HAL.Mp
open ByteMem Loops Courses Acpi

def kMaxAPInsideSched : ℕ := 8
def kCPSProcessLimitPerTeam : ℕ := 32

/-- `offsetof(HAL_APIC_MADT, List)`. -/
def madtList : BitVec 64 := 44

namespace LAPIC
def size : ℕ := 8
def ProcessorID : BitVec 64 := 2
def Flags : Field := { off := 4, size := 4 }
end LAPIC

structure HardwareThread where
  mFramePtr : UIntPtr
  mThreadID : BitVec 64

structure SmpState where
  kSMPAware : Bool
  kSMPCount : ℕ
  kAPICLocales : ℕ → BitVec 64
  kHWThread : ℕ → HardwareThread

def smpBoot : SmpState := ⟨false, 0, fun _ => 0, fun _ => ⟨0, 0⟩⟩

/-- A read of the firmware's memory, or the use of an entry of `kAPICLocales` and `kHWThread`. -/
inductive MpAccess
  | read (a : UIntPtr) (n : ℕ)
  | entry (i : ℕ)

def SmpState.record (smp : SmpState) (processorID : Byte) : SmpState :=
  { smp with
    kAPICLocales := Function.update smp.kAPICLocales smp.kSMPCount (processorID.setWidth 64)
    kHWThread := Function.update smp.kHWThread smp.kSMPCount
      { smp.kHWThread smp.kSMPCount with mThreadID := processorID.setWidth 64 }
    kSMPCount := smp.kSMPCount + 1 }

def visitRecord (m : Memory) (entryPtr : UIntPtr) (smp : SmpState) : Traced MpAccess SmpState := do
  let type ← Traced.emit (.read entryPtr 1) (m entryPtr)
  let length ← Traced.emit (.read (entryPtr + 1) 1) (m (entryPtr + 1))
  if type = 0 ∧ length.toNat = LAPIC.size then do
    let flags ← Traced.emit (.read (entryPtr + BitVec.ofNat 64 LAPIC.Flags.off) LAPIC.Flags.size)
      (LAPIC.Flags.on m entryPtr)
    if flags &&& 1 ≠ 0 then do
      let id ← Traced.emit (.read (entryPtr + LAPIC.ProcessorID) 1) (m (entryPtr + LAPIC.ProcessorID))
      Traced.emit (.entry smp.kSMPCount) ()
      pure (smp.record id)
    else pure smp
  else pure smp

structure Walk where
  entryPtr : UIntPtr
  smp : SmpState
  log : List MpAccess

def nextRecord (m : Memory) (entryPtr : UIntPtr) : UIntPtr := entryPtr + (m (entryPtr + 1)).setWidth 64

def Walk.visit (m : Memory) (w : Walk) : Walk :=
  ⟨nextRecord m w.entryPtr, (visitRecord m w.entryPtr w.smp).val, w.log ++ (visitRecord m w.entryPtr w.smp).log⟩

def walkRound (m : Memory) (endPtr : UIntPtr) (w : Walk) : Turn Walk Walk :=
  if w.entryPtr < endPtr then .again (w.visit m) else .done w

/-- `mp_init_cores`, by what the search for the table found. Fuel counts the tests of the loop. -/
def mpInitCores (fuel : ℕ) (found : Except Int UIntPtr) (m : Memory) (vendorPtr : UIntPtr) (smp : SmpState) :
    Option Walk :=
  if vendorPtr = 0 then some ⟨0, smp, []⟩
  else match found with
    | .error _ => some ⟨0, { smp with kSMPAware := false }, []⟩
    | .ok block =>
        let smp := { smp with kSMPAware := false }
        if block = 0 then some ⟨0, smp, []⟩
        else loop (walkRound m (block + SDT.Length.on m block)) fuel
          ⟨block + madtList, { smp with kSMPCount := 0 }, []⟩

def mpGetCurrentTask (thrdid : BitVec 32) (smp : SmpState) : Traced MpAccess UIntPtr :=
  if thrdid.toNat > smp.kSMPCount then pure 0
  else .emit (.entry thrdid.toNat) (smp.kHWThread thrdid.toNat).mFramePtr

/-- Without SMP the task is jumped to. -/
def mpRegisterTask (stackFrame : UIntPtr) (thrdid : BitVec 32) (smp : SmpState) : Traced MpAccess (Bool × SmpState) :=
  if stackFrame = 0 then pure (false, smp)
  else if !smp.kSMPAware then pure (true, smp)
  else if thrdid.toNat > smp.kSMPCount then pure (false, smp)
  else .emit (.entry thrdid.toNat) (true, { smp with
    kHWThread := Function.update smp.kHWThread thrdid.toNat ⟨stackFrame, thrdid.setWidth 64⟩ })

/-! ## The walk -/

/-- A processor of the table that is enabled. -/
def Lapic (m : Memory) (entryPtr : UIntPtr) : Prop :=
  m entryPtr = 0 ∧ (m (entryPtr + 1)).toNat = LAPIC.size

def Enabled (m : Memory) (entryPtr : UIntPtr) : Prop := Lapic m entryPtr ∧ LAPIC.Flags.on m entryPtr &&& 1 ≠ 0

instance (m : Memory) (entryPtr : UIntPtr) : Decidable (Lapic m entryPtr) := inferInstanceAs (Decidable (_ ∧ _))

instance (m : Memory) (entryPtr : UIntPtr) : Decidable (Enabled m entryPtr) := inferInstanceAs (Decidable (_ ∧ _))

/-- What looking at a record reads. -/
structure ReadsOnly (P : MpAccess → Prop) (m : Memory) (p : UIntPtr) : Prop where
  type : P (.read p 1)
  length : P (.read (p + 1) 1)
  flags : Lapic m p → P (.read (p + BitVec.ofNat 64 LAPIC.Flags.off) LAPIC.Flags.size)
  id : Enabled m p → P (.read (p + LAPIC.ProcessorID) 1)

/-- The records from the first one on, up to the end that the table states. -/
abbrev Records (m : Memory) (block : UIntPtr) : List UIntPtr → UIntPtr → Prop :=
  Course (nextRecord m) (fun p => ¬ p < block + SDT.Length.on m block) (block + madtList)

section Walks
variable {m : Memory} {p b block endPtr vendorPtr : UIntPtr} {smp : SmpState} {P : MpAccess → Prop} {w r : Walk}
  {nodes : List UIntPtr} {found : Except Int UIntPtr} {fuel i : ℕ}

theorem visitRecord_only : Traced.Only P (visitRecord m p smp) ↔
    ReadsOnly P m p ∧ (Enabled m p → P (.entry smp.kSMPCount)) := by
  have parts : ReadsOnly P m p ↔ P (.read p 1) ∧ P (.read (p + 1) 1) ∧
      (Lapic m p → P (.read (p + BitVec.ofNat 64 LAPIC.Flags.off) LAPIC.Flags.size)) ∧
      (Enabled m p → P (.read (p + LAPIC.ProcessorID) 1)) :=
    ⟨fun only => ⟨only.type, only.length, only.flags, only.id⟩,
      fun ⟨type, length, flags, id⟩ => ⟨type, length, flags, id⟩⟩
  rw [parts]
  unfold visitRecord Enabled Lapic
  simp only [Traced.only_bind, Traced.only_emit, Traced.val_emit, Traced.only_ite, Traced.only_pure]
  constructor
  · rintro ⟨type, length, lapic, -⟩
    exact ⟨⟨type, length, fun is => (lapic is).1, fun on => ((lapic on.1).2.1 on.2).1⟩,
      fun on => ((lapic on.1).2.1 on.2).2.1⟩
  · rintro ⟨⟨type, length, flags, id⟩, entry⟩
    exact ⟨type, length, fun is => ⟨flags is, fun on => ⟨id ⟨is, on⟩, entry ⟨is, on⟩, trivial⟩, fun _ => trivial⟩,
      fun _ => trivial⟩

theorem visitRecord_val : (visitRecord m p smp).val =
    if Enabled m p then smp.record (m (p + LAPIC.ProcessorID)) else smp := by
  by_cases enabled : Enabled m p
  · rw [if_pos enabled]
    obtain ⟨⟨zero, length⟩, flag⟩ := enabled
    unfold visitRecord
    simp only [Traced.val_bind, Traced.val_emit, Traced.val_ite, Traced.val_pure]
    rw [if_pos ⟨zero, length⟩, if_pos flag]
  · rw [if_neg enabled]
    unfold visitRecord
    simp only [Traced.val_bind, Traced.val_emit, Traced.val_ite, Traced.val_pure]
    split
    · next lapic => rw [if_neg fun flag => enabled ⟨lapic, flag⟩]
    · rfl

theorem visitRecord_count : (visitRecord m p smp).val.kSMPCount =
    smp.kSMPCount + if Enabled m p then 1 else 0 := by
  rw [visitRecord_val]
  split <;> rfl

/-- After a record for each place of the course, every enabled processor has been counted, and the entries
used are those it was counted at. -/
theorem visits (course : Course (nextRecord m) (fun p => ¬ p < endPtr) w.entryPtr nodes b) :
    ((Walk.visit m)^[nodes.length] w).smp.kSMPCount = w.smp.kSMPCount + nodes.countP (Enabled m ·) ∧
    ((∀ e ∈ ((Walk.visit m)^[nodes.length] w).log, P e) ↔ (∀ e ∈ w.log, P e) ∧
      (∀ q ∈ nodes, ReadsOnly P m q) ∧
      ∀ i, w.smp.kSMPCount ≤ i → i < w.smp.kSMPCount + nodes.countP (Enabled m ·) → P (.entry i)) := by
  generalize start : w.entryPtr = a at course
  induction course generalizing w with
  | stop _ =>
      have none (i : ℕ) (above : w.smp.kSMPCount ≤ i) (below : i < w.smp.kSMPCount + 0) : P (.entry i) :=
        absurd below (by omega)
      simpa using fun _ => none
  | @pass a b rest _ _ ih =>
      obtain ⟨count, log⟩ := @ih (w.visit m) (by rw [← start]; rfl)
      have here : (w.visit m).smp.kSMPCount = w.smp.kSMPCount + if Enabled m a then 1 else 0 := by
        rw [← start]
        exact visitRecord_count
      have logged : (∀ e ∈ (w.visit m).log, P e) ↔ (∀ e ∈ w.log, P e) ∧ ReadsOnly P m a ∧
          (Enabled m a → P (.entry w.smp.kSMPCount)) := by
        rw [← start, ← visitRecord_only]
        show (∀ e ∈ w.log ++ _, P e) ↔ _
        simp only [List.mem_append, or_imp, forall_and]
        rfl
      have counted : (a :: rest).countP (Enabled m ·) =
          rest.countP (Enabled m ·) + if Enabled m a then 1 else 0 := by
        rw [List.countP_cons]
        simp
      rw [List.length_cons, Function.iterate_succ_apply, count, log, here, counted, logged, List.forall_mem_cons]
      refine ⟨by omega, ?_⟩
      by_cases enabled : Enabled m a
      · -- The entry of this processor comes before those of the later ones.
        rw [if_pos enabled]
        constructor
        · rintro ⟨⟨before, reads, own⟩, rest_reads, entries⟩
          refine ⟨before, ⟨reads, rest_reads⟩, fun i above below => ?_⟩
          rcases Nat.eq_or_lt_of_le above with rfl | later
          · exact own enabled
          · exact entries i (by omega) (by omega)
        · rintro ⟨before, ⟨reads, rest_reads⟩, entries⟩
          exact ⟨⟨before, reads, fun _ => entries _ le_rfl (by omega)⟩, rest_reads,
            fun i above below => entries i (by omega) (by omega)⟩
      · rw [if_neg enabled]
        constructor
        · rintro ⟨⟨before, reads, -⟩, rest_reads, entries⟩
          exact ⟨before, ⟨reads, rest_reads⟩, entries⟩
        · rintro ⟨before, ⟨reads, rest_reads⟩, entries⟩
          exact ⟨⟨before, reads, fun on => absurd on enabled⟩, rest_reads, entries⟩

/-- The walk ends exactly if the records lead past the end of the table. -/
theorem walk_iff : (∃ fuel, loop (walkRound m endPtr) fuel w = some r) ↔
    ∃ nodes b, Course (nextRecord m) (fun p => ¬ p < endPtr) w.entryPtr nodes b ∧
      r = (Walk.visit m)^[nodes.length] w :=
  @loop_course_iff _ _ (nextRecord m) (fun p => ¬ p < endPtr) _ (Walk.visit m) Walk.entryPtr w r
    (fun _ here => ⟨if_pos (not_not.mp here), rfl⟩) (fun _ here => if_neg here)

theorem entries_below (ran : mpInitCores fuel found m vendorPtr smpBoot = some w) :
    MpAccess.entry i ∈ w.log ↔ i < w.smp.kSMPCount := by
  have empty : MpAccess.entry i ∈ ([] : List MpAccess) ↔ i < 0 :=
    iff_of_false (List.not_mem_nil) (Nat.not_lt_zero i)
  unfold mpInitCores at ran
  split at ran
  · cases ran
    exact empty
  · split at ran
    · cases ran
      exact empty
    · dsimp only at ran
      split at ran
      · cases ran
        exact empty
      · obtain ⟨nodes, b, course, rfl⟩ := walk_iff.mp ⟨fuel, ran⟩
        obtain ⟨count, log⟩ := @visits _ _ _ (· ≠ MpAccess.entry i) _ _ course
        have reads (q : UIntPtr) : ReadsOnly (· ≠ MpAccess.entry i) m q := ⟨nofun, nofun, nofun, nofun⟩
        have unused {entries : List MpAccess} :
            MpAccess.entry i ∉ entries ↔ ∀ e ∈ entries, e ≠ MpAccess.entry i :=
          ⟨fun out e member same => out (same ▸ member), fun all member => all _ member rfl⟩
        rw [← not_iff_not, unused, log, count]
        constructor
        · rintro ⟨-, -, later⟩ below
          exact later i (Nat.zero_le i) below rfl
        · intro above
          refine ⟨nofun, fun q _ => reads q, fun j _ below same => above ?_⟩
          cases same
          exact below

end Walks

def InBounds (m : Memory) (block : UIntPtr) : MpAccess → Prop
  | .read a n => Covers block (SDT.Length.on m block).toNat a n
  | .entry i => i < kMaxAPInsideSched ∧ i < kCPSProcessLimitPerTeam

section Tables
variable {m : Memory} {block vendorPtr : UIntPtr} {smp : SmpState}

/-- The walk itself: it must come past the end, look only at what is inside, and count no more than eight. -/
theorem walk_safe_iff (vendor : vendorPtr ≠ 0) (there : block ≠ 0) :
    (∃ fuel w, mpInitCores fuel (.ok block) m vendorPtr smp = some w ∧ ∀ e ∈ w.log, InBounds m block e) ↔
      ∃ nodes b, Records m block nodes b ∧ (∀ q ∈ nodes, ReadsOnly (InBounds m block) m q) ∧
        nodes.countP (Enabled m ·) ≤ kMaxAPInsideSched := by
  have run (fuel : ℕ) : mpInitCores fuel (.ok block) m vendorPtr smp =
      loop (walkRound m (block + SDT.Length.on m block)) fuel
        ⟨block + madtList, { smp with kSMPAware := false, kSMPCount := 0 }, []⟩ := by
    unfold mpInitCores
    rw [if_neg vendor]
    exact if_neg there
  have entries (k : ℕ) : (∀ i, 0 ≤ i → i < 0 + k → InBounds m block (.entry i)) ↔ k ≤ kMaxAPInsideSched := by
    unfold InBounds kMaxAPInsideSched kCPSProcessLimitPerTeam
    constructor
    · intro all
      by_contra more
      have ninth := (all 8 (by omega) (by omega)).1
      omega
    · intro few i _ below
      omega
  simp only [run]
  constructor
  · rintro ⟨fuel, w, ran, safe⟩
    obtain ⟨nodes, b, course, rfl⟩ := walk_iff.mp ⟨fuel, ran⟩
    obtain ⟨-, reads, stores⟩ := (visits course).2.mp safe
    exact ⟨nodes, b, course, reads, (entries _).mp stores⟩
  · rintro ⟨nodes, b, course, reads, few⟩
    obtain ⟨fuel, ran⟩ := (@walk_iff m (block + SDT.Length.on m block)
      ⟨block + madtList, { smp with kSMPAware := false, kSMPCount := 0 }, []⟩ _).mpr ⟨nodes, b, course, rfl⟩
    exact ⟨fuel, _, ran, (visits course).2.mpr ⟨nofun, reads, (entries _).mpr few⟩⟩

end Tables

structure MadtSafe (found : Except Int UIntPtr) (m : Memory) (vendorPtr : UIntPtr) : Prop where
  ends : ∃ fuel w, mpInitCores fuel found m vendorPtr smpBoot = some w
  reads : ∀ fuel w block a n, mpInitCores fuel found m vendorPtr smpBoot = some w → found = .ok block →
    MpAccess.read a n ∈ w.log → Covers block (SDT.Length.on m block).toNat a n
  stores : ∀ fuel w i, mpInitCores fuel found m vendorPtr smpBoot = some w → MpAccess.entry i ∈ w.log →
    i < kMaxAPInsideSched ∧ i < kCPSProcessLimitPerTeam
  recorded : ∀ fuel w, mpInitCores fuel found m vendorPtr smpBoot = some w → ∀ thrdid stackFrame,
    Traced.Only (· ∈ w.log) (mpRegisterTask stackFrame thrdid w.smp) ∧
    Traced.Only (· ∈ w.log) (mpGetCurrentTask thrdid w.smp)

/-- The thread whose number is the count of the cores. -/
theorem mpGetCurrentTask_past {w : Walk} {thrdid : BitVec 32} (count : thrdid.toNat = w.smp.kSMPCount)
    (unused : MpAccess.entry w.smp.kSMPCount ∉ w.log) :
    ¬ Traced.Only (· ∈ w.log) (mpGetCurrentTask thrdid w.smp) := by
  have within : ¬ thrdid.toNat > w.smp.kSMPCount := by omega
  unfold mpGetCurrentTask
  rw [if_neg within, Traced.only_emit, count]
  exact unused

theorem mpInitCores_never_safe (found : Except Int UIntPtr) (m : Memory) (vendorPtr : UIntPtr) :
    ¬ MadtSafe found m vendorPtr := by
  rintro ⟨⟨fuel, w, ran⟩, -, stores, recorded⟩
  have few : w.smp.kSMPCount ≤ 8 := by
    by_contra more
    have ninth := stores fuel w 8 ran ((entries_below ran).mpr (by omega))
    exact absurd ninth.1 (by decide)
  have count : (BitVec.ofNat 32 w.smp.kSMPCount).toNat = w.smp.kSMPCount := by
    rw [BitVec.toNat_ofNat, Nat.mod_eq_of_lt (by omega)]
  have unused : MpAccess.entry w.smp.kSMPCount ∉ w.log :=
    fun used => Nat.lt_irrefl _ ((entries_below ran).mp used)
  exact mpGetCurrentTask_past count unused (recorded fuel w ran _ 0).2

/-- A table at 0x3000 with one enabled processor and nothing else. -/
def oneProcessor : Memory := fun a =>
  if a = 0x3004 then 52 else if a = 0x302D then 8 else if a = 0x3030 then 1 else 0

theorem second_thread_unrecorded : ¬ ∀ (found : Except Int UIntPtr) (m : Memory) (vendorPtr : UIntPtr),
    MadtSafe found m vendorPtr := by
  intro safe
  have counts : (mpInitCores 2 (.ok 0x3000) oneProcessor 0x1000 smpBoot).map (·.smp.kSMPCount) = some 1 := by
    decide +kernel
  obtain ⟨w, ran, count⟩ := Option.map_eq_some_iff.mp counts
  have unused : MpAccess.entry w.smp.kSMPCount ∉ w.log :=
    fun used => Nat.lt_irrefl _ ((entries_below ran).mp used)
  have second : (1 : BitVec 32).toNat = w.smp.kSMPCount := count.symm
  exact mpGetCurrentTask_past second unused ((safe _ _ _).recorded 2 w ran 1 0).2

end Ne.Kernel.HAL.Mp
