import NeKernel.Sched.BinaryMutex
import NeKernel.Lib.Loop

/-!
# Timers

The software timer counts by itself. The hardware timer reads its counter from the start of the timer block, where the
block keeps its capabilities, which do not change.
-/

namespace Ne.Kernel.Sched
open Loops

/-! ## The software timer -/

structure SoftwareTimer where
  fDigitalTimer : UIntPtr
  fWaitFor : BitVec 64

/-- The constructor. The new cell is zero. -/
def SoftwareTimer.make (seconds : BitVec 64) : SoftwareTimer := ⟨0, seconds⟩

def softwareRound (fWaitFor : BitVec 64) (fDigitalTimer : UIntPtr) : Turn UIntPtr UIntPtr :=
  if fDigitalTimer < fDigitalTimer + fWaitFor then .again (fDigitalTimer + 1) else .done fDigitalTimer

/-- The answer and the timer behind it. No answer stands for a loop that does not end on the fuel. -/
def SoftwareTimer.Wait (fuel : ℕ) (timer : SoftwareTimer) : Option (Bool × SoftwareTimer) :=
  if timer.fWaitFor < 1 then some (false, timer)
  else (loop (softwareRound timer.fWaitFor) fuel timer.fDigitalTimer).map fun fDigitalTimer =>
    (true, { timer with fDigitalTimer })

section Software
variable {wait : BitVec 64} {t : UIntPtr} {fuel left : ℕ}

theorem softwareRound_again (some : 0 < wait.toNat) (early : t.toNat + wait.toNat < 2 ^ 64) :
    softwareRound wait t = .again (t + 1) := by
  refine if_pos ?_
  rw [BitVec.lt_def, BitVec.toNat_add, Nat.mod_eq_of_lt early]
  omega

theorem softwareRound_done (late : 2 ^ 64 ≤ t.toNat + wait.toNat) : softwareRound wait t = .done t := by
  have bound := wait.isLt
  have here := t.isLt
  refine if_neg ?_
  rw [BitVec.lt_def, BitVec.toNat_add, Nat.mod_eq_sub_mod late, Nat.mod_eq_of_lt (by omega)]
  omega

/-- The loop counts up to where the sum wraps. -/
theorem software_loop (some : 0 < wait.toNat) (rest : t.toNat + left + wait.toNat = 2 ^ 64) :
    loop (softwareRound wait) fuel t = if left < fuel then .some (t + BitVec.ofNat 64 left) else none := by
  induction left generalizing t fuel with
  | zero =>
      cases fuel with
      | zero => rfl
      | succ fuel =>
          rw [loop_done (softwareRound_done (by omega)), if_pos (Nat.succ_pos fuel)]
          exact congrArg Option.some (BitVec.add_zero t).symm
  | succ left ih =>
      cases fuel with
      | zero => rfl
      | succ fuel =>
          have next : (t + 1).toNat = t.toNat + 1 := by
            have one : (1 : BitVec 64).toNat = 1 := rfl
            rw [BitVec.toNat_add, one, Nat.mod_eq_of_lt (by omega)]
          have place : t + 1 + BitVec.ofNat 64 left = t + BitVec.ofNat 64 (left + 1) := by
            rw [Nat.add_comm left 1, BitVec.ofNat_add, BitVec.add_assoc]
            rfl
          rw [loop_again (softwareRound_again some (by omega)), ih (by omega), place]
          simp only [Nat.add_lt_add_iff_right]

end Software

/-- A software timer waits for what is left of 64 bits when its time is taken off, so a longer time is a shorter wait.
The next wait of the same timer is over at once. -/
theorem software_wait (timer : SoftwareTimer) (fuel : ℕ) (positive : 0 < timer.fWaitFor.toNat) :
    timer.Wait fuel =
      if 2 ^ 64 - timer.fWaitFor.toNat - timer.fDigitalTimer.toNat < fuel then
        some (true, { timer with
          fDigitalTimer := timer.fDigitalTimer +
            BitVec.ofNat 64 (2 ^ 64 - timer.fWaitFor.toNat - timer.fDigitalTimer.toNat) })
      else none := by
  have bound := timer.fWaitFor.isLt
  have waits : ¬ timer.fWaitFor < 1 := by
    rw [BitVec.lt_def]
    exact Nat.not_lt.mpr positive
  rw [SoftwareTimer.Wait, if_neg waits]
  by_cases early : timer.fDigitalTimer.toNat + timer.fWaitFor.toNat ≤ 2 ^ 64
  · rw [@software_loop _ _ _ (2 ^ 64 - timer.fWaitFor.toNat - timer.fDigitalTimer.toNat) positive (by omega)]
    split <;> rfl
  · have beyond : 2 ^ 64 - timer.fWaitFor.toNat - timer.fDigitalTimer.toNat = 0 := by omega
    rw [beyond]
    cases fuel with
    | zero => rfl
    | succ fuel =>
        rw [loop_done (softwareRound_done (by omega)), if_pos fuel.succ_pos]
        exact congrArg (fun fDigitalTimer => some (true, ({ timer with fDigitalTimer } : SoftwareTimer)))
          (BitVec.add_zero _).symm

/-! ## The hardware timer

`kHPETCounterRegValue` is 0, where the block keeps its capabilities. Every read is from there.
-/

structure HardwareTimer where
  fDigitalTimer : UIntPtr
  fWaitFor : BitVec 64

def kHPETCounterRegValue : UIntPtr := 0

/-- The wait in ticks of the counter. -/
def hardwareTicks (fWaitFor femtosecondsPerTick : BitVec 64) : BitVec 64 :=
  fWaitFor * 1000000000000 / femtosecondsPerTick

def hardwareRound (register : ℕ → BitVec 64) (stopAt : BitVec 64) (reads : ℕ) : Turn ℕ ℕ :=
  if register reads < stopAt then .again (reads + 1) else .done reads

/-- `register i` is what the read with number `i` returns. -/
def HardwareTimer.Wait (fuel : ℕ) (register : ℕ → BitVec 64) (timer : HardwareTimer) : Option Bool :=
  if timer.fWaitFor < 1 then some false
  else if timer.fWaitFor > 1000000 then some false
  else if timer.fDigitalTimer + kHPETCounterRegValue = 0 then some false
  else
    let femtosecondsPerTick := register 0 >>> 32
    if femtosecondsPerTick = 0 then some false
    else (loop (hardwareRound register (register 1 + hardwareTicks timer.fWaitFor femtosecondsPerTick)) fuel 2).map
      fun _ => true

/-- Why a hardware timer comes back without a wait. -/
def HardwareTimer.Refuses (cap : BitVec 64) (timer : HardwareTimer) : Prop :=
  timer.fWaitFor = 0 ∨ 1000000 < timer.fWaitFor.toNat ∨ timer.fDigitalTimer = 0 ∨ cap >>> 32 = 0

section Hardware
variable {cap stopAt : BitVec 64} {timer : HardwareTimer} {fuel reads : ℕ} {answer : Bool}

theorem hardware_loop_stuck (early : cap < stopAt) :
    loop (hardwareRound (fun _ => cap) stopAt) fuel reads = none := by
  induction fuel generalizing reads with
  | zero => rfl
  | succ fuel ih =>
      have turn : hardwareRound (fun _ => cap) stopAt reads = .again (reads + 1) := if_pos early
      rw [loop_again turn, ih]

theorem wait_refused (refused : timer.Refuses cap) : timer.Wait fuel (fun _ => cap) = some false := by
  by_cases none : timer.fWaitFor < 1
  · exact if_pos none
  by_cases long : timer.fWaitFor > 1000000
  · rw [HardwareTimer.Wait, if_neg none, if_pos long]
  by_cases null : timer.fDigitalTimer + kHPETCounterRegValue = 0
  · rw [HardwareTimer.Wait, if_neg none, if_neg long, if_pos null]
  have period : cap >>> 32 = 0 := by
    obtain zero | beyond | zero | zero := refused
    · exact absurd (by simp [zero]) none
    · exact absurd beyond long
    · exact absurd ((BitVec.add_zero _).trans zero) null
    · exact zero
  rw [HardwareTimer.Wait, if_neg none, if_neg long, if_neg null]
  exact if_pos period

theorem wait_taken (taken : ¬ timer.Refuses cap) : timer.Wait fuel (fun _ => cap) =
    (loop (hardwareRound (fun _ => cap) (cap + hardwareTicks timer.fWaitFor (cap >>> 32))) fuel 2).map
      fun _ => true := by
  simp only [HardwareTimer.Refuses, not_or, Nat.not_lt] at taken
  obtain ⟨some, short, block, period⟩ := taken
  have positive : ¬ timer.fWaitFor < 1 := by
    intro less
    exact some (BitVec.eq_of_toNat_eq (Nat.lt_one_iff.mp less))
  have bounded : ¬ timer.fWaitFor > 1000000 := by
    rw [gt_iff_lt, BitVec.lt_def]
    exact Nat.not_lt.mpr short
  have place : timer.fDigitalTimer + kHPETCounterRegValue = timer.fDigitalTimer := BitVec.add_zero _
  simp only [HardwareTimer.Wait, if_neg positive, if_neg bounded, place, if_neg block, if_neg period]

theorem cap_period : (cap >>> 32).toNat = cap.toNat / 2 ^ 32 := by
  rw [BitVec.toNat_ushiftRight, Nat.shiftRight_eq_div_pow]

theorem hardwareTicks_toNat (short : timer.fWaitFor.toNat ≤ 1000000) :
    (hardwareTicks timer.fWaitFor (cap >>> 32)).toNat =
      timer.fWaitFor.toNat * 1000000000000 / (cap.toNat / 2 ^ 32) := by
  have unit : (1000000000000 : BitVec 64).toNat = 1000000000000 := rfl
  rw [hardwareTicks, BitVec.toNat_udiv, BitVec.toNat_mul, unit, cap_period, Nat.mod_eq_of_lt (by omega)]

/-- The sum of the register and the wait passes 64 bits. -/
def HardwareTimer.Wraps (cap : BitVec 64) (timer : HardwareTimer) : Prop :=
  2 ^ 64 ≤ cap.toNat + timer.fWaitFor.toNat * 1000000000000 / (cap.toNat / 2 ^ 32)

theorem stop_early_iff (taken : ¬ timer.Refuses cap) :
    cap < cap + hardwareTicks timer.fWaitFor (cap >>> 32) ↔ ¬ timer.Wraps cap := by
  simp only [HardwareTimer.Refuses, not_or, Nat.not_lt] at taken
  obtain ⟨waits, short, -, period⟩ := taken
  have ticks := @hardwareTicks_toNat cap timer short
  have bound := cap.isLt
  have below := (hardwareTicks timer.fWaitFor (cap >>> 32)).isLt
  have unit : cap.toNat / 2 ^ 32 ≠ 0 := by
    intro zero
    exact period (BitVec.eq_of_toNat_eq (cap_period.trans zero))
  have some : timer.fWaitFor.toNat ≠ 0 := fun zero => waits (BitVec.eq_of_toNat_eq zero)
  have positive : 0 < timer.fWaitFor.toNat * 1000000000000 / (cap.toNat / 2 ^ 32) :=
    Nat.div_pos (by omega) (Nat.pos_of_ne_zero unit)
  rw [BitVec.lt_def, BitVec.toNat_add, HardwareTimer.Wraps, ← ticks]
  rw [← ticks] at positive
  by_cases beyond : 2 ^ 64 ≤ cap.toNat + (hardwareTicks timer.fWaitFor (cap >>> 32)).toNat
  · rw [Nat.mod_eq_sub_mod beyond, Nat.mod_eq_of_lt (by omega)]
    omega
  · rw [Nat.mod_eq_of_lt (by omega)]
    omega

theorem wraps_period (short : timer.fWaitFor.toNat ≤ 1000000) (beyond : timer.Wraps cap) :
    cap.toNat / 2 ^ 32 = 2 ^ 32 - 1 := by
  have bound := cap.isLt
  have low := Nat.mod_lt cap.toNat (Nat.two_pow_pos 32)
  have split := Nat.div_add_mod cap.toNat (2 ^ 32)
  unfold HardwareTimer.Wraps at beyond
  set period := cap.toNat / 2 ^ 32
  by_cases slow : 2 ^ 31 ≤ period
  · have ticks : timer.fWaitFor.toNat * 1000000000000 / period < 2 ^ 32 := by
      refine (Nat.div_lt_iff_lt_mul (by omega)).mpr ?_
      calc timer.fWaitFor.toNat * 1000000000000 < 2 ^ 32 * 2 ^ 31 := by omega
        _ ≤ 2 ^ 32 * period := Nat.mul_le_mul_left _ slow
    omega
  · have ticks := Nat.div_le_self (timer.fWaitFor.toNat * 1000000000000) period
    omega

/-- A register that stays the same never lets a wait come to its end, unless the sum wraps. -/
theorem hardware_wait_iff : (∃ fuel, timer.Wait fuel (fun _ => cap) = some answer) ↔
    timer.Refuses cap ∧ answer = false ∨ ¬ timer.Refuses cap ∧ timer.Wraps cap ∧ answer = true := by
  by_cases refused : timer.Refuses cap
  · simp only [wait_refused refused, refused, exists_const, Option.some.injEq, true_and, not_true, false_and, or_false]
    exact eq_comm
  · simp only [wait_taken refused, refused, false_and, not_false_eq_true, true_and, false_or]
    by_cases wraps : timer.Wraps cap
    · have late : ¬ cap < cap + hardwareTicks timer.fWaitFor (cap >>> 32) := by
        rw [stop_early_iff refused, not_not]
        exact wraps
      constructor
      · rintro ⟨fuel, ends⟩
        obtain ⟨_, -, rfl⟩ := Option.map_eq_some_iff.mp ends
        exact ⟨wraps, rfl⟩
      · rintro ⟨-, rfl⟩
        have turn : hardwareRound (fun _ => cap) (cap + hardwareTicks timer.fWaitFor (cap >>> 32)) 2 = .done 2 :=
          if_neg late
        exact ⟨1, by rw [loop_done turn, Option.map_some]⟩
    · have early := (stop_early_iff refused).mpr wraps
      simp [hardware_loop_stuck early, wraps]

end Hardware

/-! ## A mutex behind a timer

`after` is what other cores do to the processes and the mutex during the wait.
-/

def rtlMilliseconds (time : BitVec 64) : BitVec 64 := if time < 1 then 0 else time

section Waits
variable {ι : Type*} [DecidableEq ι]

/-- The block of the timer is at `address`. -/
def Mutexed.WaitForProcess (fuel : ℕ) (register : ℕ → BitVec 64) (address : UIntPtr) (sec : BitVec 32)
    (after : Mutexed ι → Mutexed ι) (s : Mutexed ι) : Option (Bool × Mutexed ι) :=
  let hw_timer : HardwareTimer := ⟨address, rtlMilliseconds (sec.setWidth 64)⟩
  (hw_timer.Wait fuel register).map fun _ => (!(after s).IsLocked, after s)

def Mutexed.LockAndWait (fuel : ℕ) (register : ℕ → BitVec 64) (process : Option ι) (timer : Option HardwareTimer)
    (after : Mutexed ι → Mutexed ι) (s : Mutexed ι) : Option (Bool × Mutexed ι) :=
  match timer with
  | none => some (false, s)
  | some timer =>
      if process.isNone then some (false, s)
      else match s.Lock process with
        | (true, s) => some (true, s)
        | (false, s) => (timer.Wait fuel register).map fun _ => (after s).Lock process

theorem rtlMilliseconds_same (time : BitVec 64) : rtlMilliseconds time = time := by
  unfold rtlMilliseconds
  split
  next zero => exact (BitVec.eq_of_toNat_eq (Nat.lt_one_iff.mp zero)).symm
  next => rfl

variable {cap : BitVec 64} {timer : HardwareTimer} {α : Type*} {r value : α}

/-- A caller of a wait, on a register whose period is not the longest. -/
theorem answered_iff (period : cap.toNat / 2 ^ 32 < 2 ^ 32 - 1) :
    (∃ fuel, (timer.Wait fuel fun _ => cap).map (fun _ => value) = some r) ↔ timer.Refuses cap ∧ r = value := by
  have back := @hardware_wait_iff cap timer
  constructor
  · rintro ⟨fuel, ends⟩
    obtain ⟨answer, wait, rfl⟩ := Option.map_eq_some_iff.mp ends
    obtain ⟨refused, -⟩ | ⟨taken, beyond, -⟩ := back.mp ⟨fuel, wait⟩
    · exact ⟨refused, rfl⟩
    · simp only [HardwareTimer.Refuses, not_or, Nat.not_lt] at taken
      have longest := wraps_period taken.2.1 beyond
      omega
  · rintro ⟨refused, rfl⟩
    exact ⟨0, by rw [wait_refused refused, Option.map_some]⟩

end Waits

end Ne.Kernel.Sched
