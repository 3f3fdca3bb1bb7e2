import NeKernel.Sched.UserProcessScheduler

/-!
# Binary mutexes

A mutex keeps a pointer to the process it was last given to. Processes are told apart by that
pointer only, so they are a family over any type of pointers.
-/

namespace Ne.Kernel.Sched

structure BinaryMutex (ι : Type*) where
  fLockingProcess : Option ι
  fOwnerOriginalAffinity : AffinityKind

/-- A mutex whose initialisers have run. -/
def unlocked {ι : Type*} : BinaryMutex ι := ⟨none, .kInvalid⟩

structure Mutexed (ι : Type*) where
  processes : ι → UserProcess
  mutex : BinaryMutex ι

section Calls
variable {ι : Type*} [DecidableEq ι]

def setAffinity (processes : ι → UserProcess) (pointer : ι) (affinity : AffinityKind) : ι → UserProcess :=
  fun other => if other = pointer then { processes pointer with Affinity := affinity } else processes other

/-- The process the mutex is locked for. -/
def Mutexed.locker (s : Mutexed ι) : Option ι :=
  s.mutex.fLockingProcess.filter fun owner => (s.processes owner).Status = .kRunning

def Mutexed.IsLocked (s : Mutexed ι) : Bool := s.locker.isSome

def Mutexed.Unlock (s : Mutexed ι) : Bool × Mutexed ι :=
  match s.mutex.fLockingProcess with
  | none => (false, s)
  | some owner =>
      if s.mutex.fOwnerOriginalAffinity ≠ .kInvalid then
        (true, ⟨setAffinity s.processes owner s.mutex.fOwnerOriginalAffinity, ⟨none, .kInvalid⟩⟩)
      else (true, { s with mutex := { s.mutex with fLockingProcess := none } })

def Mutexed.Lock (process : Option ι) (s : Mutexed ι) : Bool × Mutexed ι :=
  match process with
  | none => (false, s)
  | some process =>
      match s.locker with
      | some owner =>
          if (s.processes process).Affinity < (s.processes owner).Affinity then
            (false, {
              processes := setAffinity s.processes owner (s.processes process).Affinity
              mutex := { s.mutex with fOwnerOriginalAffinity := (s.processes owner).Affinity } })
          else (false, s)
      | none => (true, { s with mutex := ⟨some process, .kInvalid⟩ })

end Calls

/-! ## Runs

`LockAndWait` comes back to the mutex after its timer, and other calls can come first. Beside the
mutex a run keeps who waits, who got an acquiring call answered with `Yes` since the last `Unlock`,
the affinity each process had when it last got one, and how often the owner has been boosted since.
-/

inductive MutexCall (ι : Type*) where
  | lock (process : Option ι)
  | lockAndWait (process : Option ι) (timer : Bool)
  | waited (process : ι)
  | unlock
  | status (process : ι) (kind : ProcessStatusKind)

structure MutexHistory (ι : Type*) extends Mutexed ι where
  waiting : List ι
  held : List ι
  acquired : ι → Option AffinityKind
  boosts : Nat

section Runs
variable {ι : Type*} [DecidableEq ι]

def MutexHistory.start (processes : ι → UserProcess) : MutexHistory ι where
  processes := processes
  mutex := unlocked
  waiting := []
  held := []
  acquired := fun _ => none
  boosts := 0

/-- A `Lock` by `process`, with what it means for the history. -/
def MutexHistory.attempt (process : ι) (h : MutexHistory ι) : Bool × MutexHistory ι :=
  match h.toMutexed.Lock (some process) with
  | (true, s) => (true, {
      toMutexed := s
      waiting := h.waiting
      held := process :: h.held
      acquired := fun other => if other = process then some (h.processes process).Affinity else h.acquired other
      boosts := 0 })
  | (false, s) => (false, {
      toMutexed := s
      waiting := h.waiting
      held := h.held
      acquired := h.acquired
      boosts := if ∃ owner ∈ h.locker, (h.processes process).Affinity < (h.processes owner).Affinity then h.boosts + 1
        else h.boosts })

def setStatus (processes : ι → UserProcess) (pointer : ι) (status : ProcessStatusKind) : ι → UserProcess :=
  fun other => if other = pointer then { processes pointer with Status := status } else processes other

/-- `none` stands for a timer that has not been waited for. -/
def MutexCall.run (call : MutexCall ι) (h : MutexHistory ι) : Option (MutexHistory ι) :=
  match call with
  | .lock none => some h
  | .lock (some process) => some (h.attempt process).2
  | .lockAndWait _ false => some h
  | .lockAndWait none true => some h
  | .lockAndWait (some process) true =>
      match h.attempt process with
      | (true, h) => some h
      | (false, h) => some { h with waiting := process :: h.waiting }
  | .waited process =>
      if process ∈ h.waiting then some { (h.attempt process).2 with waiting := h.waiting.erase process } else none
  | .unlock =>
      match h.toMutexed.Unlock with
      | (true, s) => some { h with toMutexed := s, held := [] }
      | (false, _) => some h
  | .status process kind => some { h with processes := setStatus h.processes process kind }

def MutexStep (call : MutexCall ι) (h h' : MutexHistory ι) : Prop := call.run h = some h'

/-- The process the call asks the mutex for. -/
def MutexCall.asks : MutexCall ι → Option ι
  | .lock process => process
  | .lockAndWait process timer => if timer then process else none
  | .waited process => some process
  | .unlock => none
  | .status _ _ => none

end Runs

end Ne.Kernel.Sched
