import NeKernel.Machine
import NeKernel.Lib.Runs
import Mathlib.Data.Int.Order.Basic
import Mathlib.Order.Lattice

/-!
# The user process scheduler

A team is the storage of its processes together with a count, which is also the slot the next process
is put in. Behind the last process of the list lies the copy of the current one, so that an index of
`kCPSProcessLimitPerTeam` still finds storage; a negative index finds none.
-/

namespace Ne.Kernel

def kErrorProcessFault : Int := 39

namespace Sched
open ByteMem Runs

abbrev ProcessID := Int
abbrev VoidPtr := UIntPtr

def kCPSProcessLimitPerTeam : Nat := 32
def kCPSNameLen : Nat := 128
def kCPSMaxStackSz : SizeT := 8192

inductive ProcessStatusKind where
  | kInvalid
  | kStarting
  | kRunning
  | kKilled
  | kFrozen
  | kFinished
  deriving DecidableEq, Repr

inductive AffinityKind where
  | kInvalid
  | kUltraHigh
  | kVeryHigh
  | kHigh
  | kStandard
  | kLowUsage
  | kVeryLowUsage
  deriving DecidableEq, Repr

def AffinityKind.toInt : AffinityKind → Int
  | .kInvalid => 0
  | .kUltraHigh => 100
  | .kVeryHigh => 150
  | .kHigh => 200
  | .kStandard => 1000
  | .kLowUsage => 1500
  | .kVeryLowUsage => 2000

instance : LinearOrder AffinityKind := LinearOrder.lift' AffinityKind.toInt fun a b same => by
  cases a <;> cases b <;> first | rfl | cases same

inductive ExecutableKind where
  | kInvalidExecutableKind
  | kExecutableKind
  | kExecutableDylibKind
  deriving DecidableEq, Repr

structure ProcessImage where
  fCode : VoidPtr
  fBlob : VoidPtr
  fBlobSz : SizeT

/-- An address as an offset from `StackReserve` of the process in a slot. -/
structure StackAddress where
  slot : ProcessID
  offset : SizeT

structure StackFrame where
  IP : UIntPtr
  SP : StackAddress

structure UserProcessSignal where
  SignalArg : UIntPtr
  Status : ProcessStatusKind
  SignalID : UIntPtr

/-- The trees count as what `Exit` and `Spawn` ask of them: whether there is one. -/
structure UserProcess where
  Name : List Byte
  StackFrame : Option StackFrame
  Affinity : AffinityKind
  Status : ProcessStatusKind
  StackSize : SizeT
  DylibDelegate : Bool
  Signal : UserProcessSignal
  Image : ProcessImage
  FileTree : Bool
  HeapTree : Bool
  Parent : Bool
  VMRegister : VoidPtr
  PTime : BitVec 64
  RTime : BitVec 64
  UTime : BitVec 64
  STime : BitVec 64
  ProcessId : ProcessID
  Kind : ExecutableKind
  LastExitCode : Int

structure UserProcessTeam where
  mProcessList : ProcessID → UserProcess
  mProcessCur : ProcessID

/-- A process whose constructor never ran. -/
def zeroProcess : UserProcess where
  Name := List.replicate kCPSNameLen 0
  StackFrame := none
  Affinity := .kInvalid
  Status := .kInvalid
  StackSize := 0
  DylibDelegate := false
  Signal := ⟨0, .kInvalid, 0⟩
  Image := ⟨0, 0, 0⟩
  FileTree := false
  HeapTree := false
  Parent := false
  VMRegister := 0
  PTime := 0
  RTime := 0
  UTime := 0
  STime := 0
  ProcessId := 0
  Kind := .kInvalidExecutableKind
  LastExitCode := 0

/-- The team that is switched to when the kernel starts, a global of zeros. -/
def kRTUserTeam : UserProcessTeam := ⟨fun _ => zeroProcess, 0⟩

def UserProcessTeam.put (team : UserProcessTeam) (pid : ProcessID) (process : UserProcess) : UserProcessTeam :=
  { team with mProcessList := fun slot => if slot = pid then process else team.mProcessList slot }

def UserProcess.Crash (process : UserProcess) : UserProcess :=
  if process.Status = .kRunning then { process with Status := .kKilled } else process

/-- Whether the heap grants the two allocations of `Spawn`. -/
structure Grants where
  stackFrame : Bool
  fileTree : Bool

/-- Whether the heap takes every entry of the trees back, and the loader the library. -/
structure Returns where
  trees : Bool
  dylib : Bool

/-- What `Spawn` does with the process once it is counted, and what it returns. -/
def fill (vm : VoidPtr) (pid : ProcessID) (name : List Byte) (code image : VoidPtr) (imageSz : SizeT)
    (heap : Grants) (process : UserProcess) : ProcessID × UserProcess :=
  let process := { process with Image := ⟨code, image, imageSz⟩ }
  if name.length > kCPSNameLen then (-kErrorProcessFault, process) else
  let process := { process with
    Name := name ++ process.Name.drop name.length
    VMRegister := vm
    StackFrame := if heap.stackFrame then some ⟨code, ⟨pid, process.StackSize⟩⟩ else none }
  if !heap.stackFrame then (-kErrorProcessFault, process.Crash) else
  let process := { process with
    StackSize := kCPSMaxStackSz
    Parent := true
    ProcessId := pid
    Status := .kRunning
    PTime := 0
    Affinity := .kStandard
    RTime := 0
    UTime := 0
    STime := 0 }
  if process.FileTree then (pid, process)
  else if !heap.fileTree then (-kErrorHeapOutOfMemory, process.Crash)
  else (pid, { process with FileTree := true })

/-- `none` is an access outside the team. -/
def Spawn (vm : VoidPtr) (name : Option (List Byte)) (code image : VoidPtr) (imageSz : SizeT) (heap : Grants)
    (team : UserProcessTeam) : Option (ProcessID × UserProcessTeam) :=
  match name with
  | none => some (-kErrorProcessFault, team)
  | some name =>
      if code = 0 then some (-kErrorProcessFault, team) else
      if name = [] then some (-kErrorProcessFault, team) else
      let pid := team.mProcessCur
      if pid > kCPSProcessLimitPerTeam then some (-kErrorProcessFault, team) else
      if pid < 0 then none else
      let team := { team with mProcessCur := team.mProcessCur + 1 }
      let (result, process) := fill vm pid name code image imageSz heap (team.mProcessList pid)
      some (result, team.put pid process)

/-- The method on the process in slot `pid`. `none` is a stop of the machine, or the access through a
`Parent` that was never set. -/
def Exit (exitCode : Int) (returns : Returns) (pid : ProcessID) (team : UserProcessTeam) :
    Option UserProcessTeam :=
  let process := team.mProcessList pid
  let process := { process with
    Status := if exitCode > 0 then .kKilled else .kFrozen
    LastExitCode := exitCode }
  if !returns.trees then none else
  let process := { process with
    HeapTree := false
    FileTree := false
    Image := { process.Image with fCode := 0, fBlob := 0 }
    StackFrame := none }
  if process.Kind = .kExecutableDylibKind ∧ !returns.dylib then none else
  let process := { process with
    DylibDelegate := if process.Kind = .kExecutableDylibKind then false else process.DylibDelegate
    ProcessId := 0
    Status := .kFinished }
  if !process.Parent then none else
  some { team.put pid process with mProcessCur := team.mProcessCur - 1 }

def Remove (returns : Returns) (processId : ProcessID) (team : UserProcessTeam) : Option UserProcessTeam :=
  if processId < 0 ∨ processId > kCPSProcessLimitPerTeam then some team
  else if (team.mProcessList processId).Status = .kInvalid then some team
  else Exit kErrorSuccess returns processId team

/-! ## Runs

Beside the team a run keeps the processes that have been spawned and have not exited, by the
identifier `Spawn` returned for each.
-/

inductive SchedCall where
  | spawn (vm : VoidPtr) (name : Option (List Byte)) (code image : VoidPtr) (imageSz : SizeT) (heap : Grants)
  | remove (returns : Returns) (processId : ProcessID)
  | exit (exitCode : Int) (returns : Returns) (pid : Fin kCPSProcessLimitPerTeam)

structure History where
  team : UserProcessTeam
  live : List ProcessID

def start : History := ⟨kRTUserTeam, []⟩

/-- The slot whose process the call takes through `Exit`. -/
def SchedCall.leaves (team : UserProcessTeam) : SchedCall → Option ProcessID
  | .spawn .. => none
  | .remove _ processId =>
      if processId < 0 ∨ processId > kCPSProcessLimitPerTeam then none
      else if (team.mProcessList processId).Status = .kInvalid then none
      else some processId
  | .exit _ _ pid => some pid.val

/-- The live processes once `call` has taken one through `Exit`. -/
def SchedCall.left (call : SchedCall) (h : History) : List ProcessID :=
  match call.leaves h.team with
  | some pid => h.live.erase pid
  | none => h.live

def SchedCall.run (call : SchedCall) (h : History) : Option History :=
  match call with
  | .spawn vm name code image imageSz heap =>
      (Spawn vm name code image imageSz heap h.team).map fun (pid, team) =>
        ⟨team, if pid < 0 then h.live else pid :: h.live⟩
  | .remove returns processId => (Remove returns processId h.team).map fun team => ⟨team, call.left h⟩
  | .exit exitCode returns pid => (Exit exitCode returns pid.val h.team).map fun team => ⟨team, call.left h⟩

def SchedStep (call : SchedCall) (h h' : History) : Prop := call.run h = some h'

/-- A call the heap and the checks of `Spawn` let through. -/
def spawnOf (letter : Byte) : SchedCall := .spawn 0 (some [letter]) 1 0 0 ⟨true, true⟩

def removeOf (processId : ProcessID) : SchedCall := .remove ⟨true, true⟩ processId

end Sched

end Ne.Kernel
