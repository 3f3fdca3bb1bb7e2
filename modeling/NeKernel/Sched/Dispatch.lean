import NeKernel.Sched.ProcessSlots

/-!
# Dispatch and faults

`Run` steps through the list of the team with a cursor that outlives the call. The copy of the
current process lies at the index behind the list, and behind that copy lies memory that is not the
team's.
-/

namespace Ne.Kernel.Sched
open ByteMem Runs

def SIGKILL : UIntPtr := 1
def SIGTRAP : UIntPtr := 4
def SIGSEG : UIntPtr := 7
def kUserSignalSeed : UIntPtr := 0x0895034f

def sigGenerateUnique (sig : UIntPtr) : UIntPtr := sig ^^^ kUserSignalSeed

def CanBeScheduled (process : UserProcess) : Bool :=
  if process.Affinity = .kUltraHigh then true
  else if process.Status ≠ .kRunning then false
  else if process.Affinity = .kInvalid then false
  else if process.StackSize > kCPSMaxStackSz then false
  else if process.Name.headD 0 = 0 then false
  else if process.Signal.SignalID = sigGenerateUnique SIGTRAP then false
  else process.PTime < 1

/-- The index of the copy of the current process. -/
def kCurrentSlot : Nat := kCPSProcessLimitPerTeam

structure Scheduler where
  team : UserProcessTeam
  /-- The `process_index` of `Run`. -/
  processIndex : Nat
  /-- What the memory behind the team's processes holds, read as a process. -/
  behind : UserProcess

def Scheduler.slot (s : Scheduler) (index : Nat) : UserProcess :=
  if index ≤ kCurrentSlot then s.team.mProcessList index else s.behind

def Scheduler.store (index : Nat) (process : UserProcess) (s : Scheduler) : Scheduler :=
  if index ≤ kCurrentSlot then { s with team := s.team.put index process } else { s with behind := process }

/-- The times of a process that is about to be switched to. -/
def beforeSwitch (process : UserProcess) : UserProcess :=
  let process := if process.UTime < process.PTime then { process with UTime := process.UTime + 1 } else process
  if process.STime > 0 then
    let boost := process.STime / 10
    let boost := if boost > 200 then 200 else boost
    { process with PTime := process.PTime + boost, STime := 0 }
  else process

def afterSwitch (process : UserProcess) : UserProcess :=
  if process.PTime < process.RTime ∧ process.Affinity ≠ .kUltraHigh then
    let RTime :=
      if process.RTime < 150 then process.RTime + 1500
      else if process.RTime < 200 then process.RTime + 1000
      else if process.RTime < 1000 then process.RTime + 200
      else process.RTime
    { process with PTime := process.PTime - RTime, RTime := 0 }
  else if process.Affinity ≠ .kUltraHigh then { process with PTime := process.PTime + 100 }
  else process

/-- The times of a process that is passed over. -/
def passOver (process : UserProcess) : UserProcess :=
  let process := if process.Status = .kFrozen then { process with STime := process.STime + 1 } else process
  { process with RTime := process.RTime + 1, PTime := process.PTime - 1 }

def nextIndex (processIndex : Nat) : Nat :=
  if processIndex > kCPSProcessLimitPerTeam then 0 else processIndex + 1

/-- `switched` is what `UserProcessHelper::Switch` returns. `none` is its access through a null stack frame. -/
def Scheduler.Run (switched : Bool) (s : Scheduler) : Option (Nat × Scheduler) :=
  if s.team.mProcessCur < 1 then some (0, s) else
  let index := nextIndex s.processIndex
  let s := { s with processIndex := index }
  if CanBeScheduled (s.slot index) then
    let process := beforeSwitch (s.slot index)
    if process.StackFrame.isNone then none else
    -- the copy that `TheCurrentProcess` hands out from now on
    let s := (s.store index process).store kCurrentSlot process
    some (index, if switched then s.store index (afterSwitch process) else s)
  else some (index, s.store index (passOver (s.slot index)))

/-! ## Fault handlers -/

inductive FaultHandler where
  | gpf
  | pf
  | math
  | generic
  | breakpoint
  | ud
  deriving DecidableEq, Repr

def UserProcess.signal (arg id : UIntPtr) (process : UserProcess) : UserProcess :=
  { process with Signal := { SignalArg := arg, SignalID := id, Status := process.Status } }

/-- What a handler does to the process that `TheCurrentProcess` refers to. -/
def FaultHandler.handle (handler : FaultHandler) (rsp : UIntPtr) (process : UserProcess) : UserProcess :=
  let process := if process.Status = .kRunning then process.Crash else process
  match handler with
  | .gpf | .pf => if process.Status = .kRunning then process.signal rsp SIGKILL else process
  | .math => if process.Status = .kRunning then process.signal rsp (sigGenerateUnique SIGKILL) else process
  | .generic => process.signal rsp (sigGenerateUnique SIGSEG)
  | .breakpoint => { process.signal rsp (sigGenerateUnique SIGTRAP) with Status := .kFrozen }
  | .ud => process.signal rsp (sigGenerateUnique SIGKILL)

/-! ## Runs -/

inductive SchedEvent where
  | spawn (vm : VoidPtr) (name : Option (List Byte)) (code image : VoidPtr) (imageSz : SizeT) (heap : Grants)
  | remove (returns : Returns) (processId : ProcessID)
  | exit (exitCode : Int) (returns : Returns) (slot : Fin (kCPSProcessLimitPerTeam + 1))
  | run (switched : Bool)
  | fault (handler : FaultHandler) (rsp : UIntPtr)

/-- Exits can also be of the copy of the current process. -/
def SchedEvent.step (event : SchedEvent) (s : Scheduler) : Option Scheduler :=
  match event with
  | .spawn vm name code image imageSz heap =>
      (Spawn vm name code image imageSz heap s.team).map fun (_, team) => { s with team := team }
  | .remove returns processId => (Remove returns processId s.team).map fun team => { s with team := team }
  | .exit exitCode returns slot => (Exit exitCode returns slot.val s.team).map fun team => { s with team := team }
  | .run switched => (s.Run switched).map Prod.snd
  | .fault handler rsp => some (s.store kCurrentSlot (handler.handle rsp (s.slot kCurrentSlot)))

def EventStep (event : SchedEvent) (s s' : Scheduler) : Prop := event.step s = some s'

/-- The scheduler after the switch to the kernel's team of zeros. -/
def Scheduler.start (behind : UserProcess) : Scheduler := ⟨kRTUserTeam, 0, behind⟩

end Ne.Kernel.Sched
