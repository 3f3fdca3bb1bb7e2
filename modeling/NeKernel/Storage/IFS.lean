import NeKernel.Machine
import NeKernel.Lib.Runs

/-!
# The filesystem to mountpoint interface
-/

namespace Ne.Kernel.IFS
open Runs

def kErrorDisk : Int := 55

/-- The fields of a `DriveTrait::DrivePacket` that the interface and the driver read or set. -/
structure DrivePacket where
  fPacketGood : Bool
  fPacketLba : Lba
  fPacketReadOnly : Bool
  deriving DecidableEq

/-- The disk driver the kernel is built with; `none` stands for a build with neither. -/
inductive DiskDriver
  | ahci
  | ata
  | none
  deriving DecidableEq

/-- How the transfer ends if the driver makes it: whether the device moved the data, and
`err_global_get()` behind it. -/
structure Outcome where
  succeeded : Bool
  errGlobal : Int

/-- The packet behind a driver function, and whether `drv_std_read` or `drv_std_write` was called. -/
structure Driven where
  packet : DrivePacket
  carriedOut : Bool

/-- What follows the checks of `io_drv_input` and `io_drv_output`. -/
def transferred (driver : DiskDriver) (outcome : Outcome) (pckt : DrivePacket) : Driven :=
  match driver with
  | .ahci =>
    if outcome.errGlobal ≠ kErrorSuccess then ⟨{ pckt with fPacketGood := false }, true⟩ else ⟨pckt, true⟩
  | .ata => ⟨pckt, true⟩
  | .none => ⟨pckt, false⟩

def ioDrvInput (driver : DiskDriver) (outcome : Outcome) (pckt : DrivePacket) : Driven :=
  transferred driver outcome pckt

def ioDrvOutput (driver : DiskDriver) (outcome : Outcome) (pckt : DrivePacket) : Driven :=
  if pckt.fPacketReadOnly then ⟨{ pckt with fPacketGood := false }, false⟩
  else if ¬ pckt.fPacketReadOnly ∧ pckt.fPacketLba = 0 then ⟨{ pckt with fPacketGood := false }, false⟩
  else transferred driver outcome pckt

def ioDrvUnimplemented (pckt : DrivePacket) : Driven := ⟨pckt, false⟩

/-- What `fInput` or `fOutput` of a drive points to. A drive nobody constructed has a null pointer. -/
inductive DriveFunction
  | null
  | unimplemented
  | input
  | output
  deriving DecidableEq

/-- A call through the pointer, `none` where there is nothing to call. -/
def DriveFunction.call (driver : DiskDriver) (outcome : Outcome) (pckt : DrivePacket) :
    DriveFunction → Option Driven
  | .null => none
  | .unimplemented => some (ioDrvUnimplemented pckt)
  | .input => some (ioDrvInput driver outcome pckt)
  | .output => some (ioDrvOutput driver outcome pckt)

structure DriveTrait where
  fInput : DriveFunction := .null
  fOutput : DriveFunction := .null
  deriving DecidableEq

/-- `io_construct_blank_drive`. -/
def ioConstructBlankDrive : DriveTrait := ⟨.unimplemented, .unimplemented⟩

/-- `io_construct_main_drive`. -/
def ioConstructMainDrive : DriveTrait := ⟨.input, .output⟩

structure IMountpoint where
  mA : DriveTrait := {}
  mB : DriveTrait := {}
  mC : DriveTrait := {}
  mD : DriveTrait := {}
  deriving DecidableEq

def kDriveIndexInvalid : Int := 4

/-- The drive a `switch` on the index selects, `none` where no case matches. -/
def IMountpoint.select (mnt : IMountpoint) (drvIndex : Int) : Option DriveTrait :=
  if drvIndex = 0 then some mnt.mA
  else if drvIndex = 1 then some mnt.mB
  else if drvIndex = 2 then some mnt.mC
  else if drvIndex = 3 then some mnt.mD
  else none

/-- The status returned, and what the driver function left. -/
structure Reply where
  status : Int
  driven : Driven

def statusOf (pckt : DrivePacket) : Int := if pckt.fPacketGood then kErrorSuccess else kErrorDisk

/-- The part of both functions behind their checks: `none` if the call does not return. -/
def dispatch (driver : DiskDriver) (outcome : Outcome) (function : Option DriveFunction)
    (pckt : DrivePacket) : Option Reply :=
  let pckt := { pckt with fPacketGood := false }
  match function with
  | none => some ⟨statusOf pckt, pckt, false⟩
  | some function => (function.call driver outcome pckt).map fun driven => ⟨statusOf driven.packet, driven⟩

/-- `fs_ifs_read`. -/
def fsIfsRead (driver : DiskDriver) (outcome : Outcome) (mnt : Option IMountpoint) (drvIndex : Int)
    (pckt : DrivePacket) : Option Reply :=
  match mnt with
  | none => some ⟨kErrorDisk, pckt, false⟩
  | some mnt =>
    if kDriveIndexInvalid ≤ drvIndex then some ⟨kErrorDisk, pckt, false⟩
    else dispatch driver outcome ((mnt.select drvIndex).map (·.fInput)) pckt

/-- `fs_ifs_write`. -/
def fsIfsWrite (driver : DiskDriver) (outcome : Outcome) (mnt : Option IMountpoint) (drvIndex : Int)
    (pckt : DrivePacket) : Option Reply :=
  match mnt with
  | none => some ⟨kErrorDisk, pckt, false⟩
  | some mnt =>
    if kDriveIndexInvalid ≤ drvIndex then some ⟨kErrorDisk, pckt, false⟩
    else if pckt.fPacketGood = false then some ⟨kErrorDisk, pckt, false⟩
    else dispatch driver outcome ((mnt.select drvIndex).map (·.fOutput)) pckt

/-! ## The packets of a run -/

inductive Operation
  | read
  | write
  deriving DecidableEq

/-- A caller fills the packet of its drive trait, or makes a call with it. -/
inductive IfsCall
  | prepare (pckt : DrivePacket)
  | transfer (operation : Operation) (mnt : Option IMountpoint) (drvIndex : Int) (outcome : Outcome)

def reply (driver : DiskDriver) (pckt : DrivePacket) : Operation → Option IMountpoint → Int → Outcome → Option Reply
  | .read, mnt, drvIndex, outcome => fsIfsRead driver outcome mnt drvIndex pckt
  | .write, mnt, drvIndex, outcome => fsIfsWrite driver outcome mnt drvIndex pckt

inductive IfsStep (driver : DiskDriver) : IfsCall → DrivePacket → DrivePacket → Prop
  | prepare (old pckt : DrivePacket) : IfsStep driver (.prepare pckt) old pckt
  | transfer {operation : Operation} {mnt : Option IMountpoint} {drvIndex : Int} {outcome : Outcome}
      {pckt : DrivePacket} {answer : Reply}
      (returned : reply driver pckt operation mnt drvIndex outcome = some answer) :
      IfsStep driver (.transfer operation mnt drvIndex outcome) pckt answer.driven.packet

/-- A call that returns reports success exactly if its driver operation was carried out and succeeded. -/
def Honest (driver : DiskDriver) : IfsCall → DrivePacket → Prop
  | .prepare _, _ => True
  | .transfer operation mnt drvIndex outcome, pckt =>
    ∀ answer, reply driver pckt operation mnt drvIndex outcome = some answer →
      (answer.status = kErrorSuccess ↔ answer.driven.carriedOut ∧ outcome.succeeded)

/-- The driver function the call's drive has for the operation. -/
def functionOf (operation : Operation) (drive : DriveTrait) : DriveFunction :=
  match operation with
  | .read => drive.fInput
  | .write => drive.fOutput

/-- What `io_drv_input` and `io_drv_output` ask for before they start the transfer. -/
def Accepts (pckt : DrivePacket) : DriveFunction → Prop
  | .input => True
  | .output => pckt.fPacketReadOnly = false ∧ pckt.fPacketLba ≠ 0
  | _ => False

/-- The transfer is made: the kernel has a disk driver, the index names a drive of the mountpoint whose function
takes the packet, and a write comes with `fPacketGood` set. -/
def Reaches (driver : DiskDriver) (operation : Operation) (mnt : Option IMountpoint) (drvIndex : Int)
    (pckt : DrivePacket) : Prop :=
  driver ≠ .none ∧ (operation = .write → pckt.fPacketGood) ∧
    ∃ drive, mnt.bind (·.select drvIndex) = some drive ∧ Accepts pckt (functionOf operation drive)

/-- The transfer of the call is made, and the device moves the data. -/
def Succeeds (driver : DiskDriver) : IfsCall → DrivePacket → Prop
  | .prepare _, _ => False
  | .transfer operation mnt drvIndex outcome, pckt =>
    Reaches driver operation mnt drvIndex pckt ∧ outcome.succeeded

/-- The calls that return before they touch the packet. -/
def Refused (operation : Operation) (mnt : Option IMountpoint) (drvIndex : Int) (pckt : DrivePacket) : Prop :=
  mnt = none ∨ kDriveIndexInvalid ≤ drvIndex ∨ operation = .write ∧ pckt.fPacketGood = false

section Status
variable {driver : DiskDriver} {outcome : Outcome} {pckt : DrivePacket} {answer : Reply}
  {operation : Operation} {mnt : Option IMountpoint} {drvIndex : Int}

theorem transferred_good (bad : pckt.fPacketGood = false) :
    (transferred driver outcome pckt).packet.fPacketGood = false := by
  unfold transferred
  split
  · split
    · rfl
    · exact bad
  · exact bad
  · exact bad

theorem transferred_carriedOut : (transferred driver outcome pckt).carriedOut ↔ driver ≠ .none := by
  cases driver with
  | ahci =>
      by_cases failed : outcome.errGlobal ≠ kErrorSuccess
      · simp [transferred, failed]
      · simp [transferred, failed]
  | ata => simp [transferred]
  | none => simp [transferred]

theorem call_good {function : DriveFunction} {driven : Driven}
    (called : function.call driver outcome pckt = some driven) (bad : pckt.fPacketGood = false) :
    driven.packet.fPacketGood = false := by
  cases function with
  | null => cases called
  | unimplemented =>
      obtain rfl := Option.some.inj called
      exact bad
  | input =>
      obtain rfl := Option.some.inj called
      exact transferred_good bad
  | output =>
      obtain rfl := Option.some.inj called
      unfold ioDrvOutput
      split
      · rfl
      split
      · rfl
      · exact transferred_good bad

theorem call_carriedOut {function : DriveFunction} {driven : Driven}
    (called : function.call driver outcome pckt = some driven) :
    driven.carriedOut ↔ driver ≠ .none ∧ Accepts pckt function := by
  cases function with
  | null => cases called
  | unimplemented =>
      obtain rfl := Option.some.inj called
      simp [ioDrvUnimplemented, Accepts]
  | input =>
      obtain rfl := Option.some.inj called
      simp [ioDrvInput, Accepts, transferred_carriedOut]
  | output =>
      obtain rfl := Option.some.inj called
      unfold ioDrvOutput
      split
      · next readOnly => simp [Accepts, readOnly]
      split
      · next writable start => simp [Accepts, start.2]
      · next writable start =>
          have accepts : Accepts pckt .output := by
            refine ⟨by simpa using writable, fun zero => start ⟨writable, zero⟩⟩
          simp [accepts, transferred_carriedOut]

theorem accepts_returns {function : DriveFunction} (accepts : Accepts pckt function) :
    ∃ driven, function.call driver outcome pckt = some driven := by
  cases function with
  | null => cases accepts
  | unimplemented => cases accepts
  | input => exact ⟨_, rfl⟩
  | output => exact ⟨_, rfl⟩

theorem accepts_good {function : DriveFunction} {good : Bool} :
    Accepts { pckt with fPacketGood := good } function ↔ Accepts pckt function := by
  cases function <;> rfl

theorem dispatch_fails {function : Option DriveFunction}
    (returned : dispatch driver outcome function pckt = some answer) : answer.status = kErrorDisk := by
  cases function with
  | none =>
      obtain rfl := Option.some.inj returned
      rfl
  | some function =>
      obtain ⟨driven, called, rfl⟩ := Option.map_eq_some_iff.mp returned
      simp [statusOf, call_good called rfl]

theorem dispatch_carriedOut {function : Option DriveFunction}
    (returned : dispatch driver outcome function pckt = some answer) :
    answer.driven.carriedOut ↔ driver ≠ .none ∧ ∃ f, function = some f ∧ Accepts pckt f := by
  cases function with
  | none =>
      obtain rfl := Option.some.inj returned
      simp
  | some function =>
      obtain ⟨driven, called, rfl⟩ := Option.map_eq_some_iff.mp returned
      simp [call_carriedOut called, accepts_good]

theorem select_none {mnt : IMountpoint} {drvIndex : Int} (invalid : kDriveIndexInvalid ≤ drvIndex) :
    mnt.select drvIndex = none := by
  have large : 4 ≤ drvIndex := invalid
  unfold IMountpoint.select
  rw [if_neg (by omega), if_neg (by omega), if_neg (by omega), if_neg (by omega)]

theorem reply_refused (refused : Refused operation mnt drvIndex pckt) :
    reply driver pckt operation mnt drvIndex outcome = some ⟨kErrorDisk, pckt, false⟩ := by
  cases mnt with
  | none => cases operation <;> rfl
  | some mountpoint =>
      rcases refused with absent | invalid | ⟨rfl, bad⟩
      · cases absent
      · cases operation <;> simp [reply, fsIfsRead, fsIfsWrite, invalid]
      · simp [reply, fsIfsWrite, bad]

theorem reply_admitted (admitted : ¬ Refused operation mnt drvIndex pckt) :
    reply driver pckt operation mnt drvIndex outcome =
      dispatch driver outcome ((mnt.bind (·.select drvIndex)).map (functionOf operation)) pckt := by
  obtain ⟨present, valid, good⟩ : mnt ≠ none ∧ ¬ kDriveIndexInvalid ≤ drvIndex ∧
      ¬ (operation = .write ∧ pckt.fPacketGood = false) := by
    simpa only [Refused, not_or] using admitted
  cases mnt with
  | none => exact absurd rfl present
  | some mountpoint =>
      cases operation with
      | read =>
          simp only [reply, fsIfsRead, if_neg valid, Option.bind_some]
          rfl
      | write =>
          have good : ¬ pckt.fPacketGood = false := fun bad => good ⟨rfl, bad⟩
          simp only [reply, fsIfsWrite, if_neg valid, if_neg good, Option.bind_some]
          rfl

theorem Reaches.not_refused (reaches : Reaches driver operation mnt drvIndex pckt) :
    ¬ Refused operation mnt drvIndex pckt := by
  obtain ⟨-, good, drive, selected, -⟩ := reaches
  rintro (rfl | invalid | ⟨write, bad⟩)
  · cases selected
  · obtain ⟨mountpoint, -, selected⟩ := Option.bind_eq_some_iff.mp selected
    rw [select_none invalid] at selected
    cases selected
  · simp [good write] at bad

theorem reply_fails (returned : reply driver pckt operation mnt drvIndex outcome = some answer) :
    answer.status = kErrorDisk := by
  by_cases refused : Refused operation mnt drvIndex pckt
  · rw [reply_refused refused] at returned
    obtain rfl := Option.some.inj returned
    rfl
  · rw [reply_admitted refused] at returned
    exact dispatch_fails returned

theorem reply_carriedOut (returned : reply driver pckt operation mnt drvIndex outcome = some answer) :
    answer.driven.carriedOut ↔ Reaches driver operation mnt drvIndex pckt := by
  by_cases refused : Refused operation mnt drvIndex pckt
  · rw [reply_refused refused] at returned
    obtain rfl := Option.some.inj returned
    exact iff_of_false Bool.false_ne_true fun reaches => reaches.not_refused refused
  · rw [reply_admitted refused] at returned
    have good : operation = .write → pckt.fPacketGood := fun write =>
      Bool.eq_true_of_not_eq_false fun bad => refused (.inr (.inr ⟨write, bad⟩))
    rw [dispatch_carriedOut returned]
    constructor
    · rintro ⟨built, function, selected, accepts⟩
      obtain ⟨drive, named, rfl⟩ := Option.map_eq_some_iff.mp selected
      exact ⟨built, good, drive, named, accepts⟩
    · rintro ⟨built, -, drive, selected, accepts⟩
      exact ⟨built, _, Option.map_eq_some_iff.mpr ⟨drive, selected, rfl⟩, accepts⟩

theorem Reaches.returns (reaches : Reaches driver operation mnt drvIndex pckt) :
    ∃ answer, reply driver pckt operation mnt drvIndex outcome = some answer := by
  rw [reply_admitted reaches.not_refused]
  obtain ⟨-, -, drive, selected, accepts⟩ := reaches
  have blanked : Accepts { pckt with fPacketGood := false } (functionOf operation drive) := by
    rwa [accepts_good]
  obtain ⟨driven, called⟩ := accepts_returns blanked
  rw [selected]
  exact ⟨_, Option.map_eq_some_iff.mpr ⟨driven, called, rfl⟩⟩

theorem honest_iff (call : IfsCall) : Honest driver call pckt ↔ ¬ Succeeds driver call pckt := by
  cases call with
  | prepare pckt => simp [Honest, Succeeds]
  | transfer operation mnt drvIndex outcome =>
      constructor
      · rintro honest ⟨reaches, succeeded⟩
        obtain ⟨answer, returned⟩ := reaches.returns
        have success := (honest answer returned).mpr ⟨(reply_carriedOut returned).mpr reaches, succeeded⟩
        rw [reply_fails returned] at success
        revert success
        decide
      · intro fails answer returned
        rw [reply_fails returned]
        refine iff_of_false (by decide) ?_
        rintro ⟨carriedOut, succeeded⟩
        exact fails ⟨(reply_carriedOut returned).mp carriedOut, succeeded⟩

end Status

/-- The calls of a run tell the truth exactly as long as none of their transfers succeeds. -/
theorem statuses_honest_iff (driver : DiskDriver) (start : DrivePacket) (calls : List IfsCall) :
    AllSteps (IfsStep driver) (Honest driver) start calls ↔
      AllSteps (IfsStep driver) (fun call pckt => ¬ Succeeds driver call pckt) start calls :=
  have same (call : IfsCall) (pckt : DrivePacket) (_ : True) : Honest driver call pckt ↔ ¬ Succeeds driver call pckt :=
    honest_iff call
  allSteps_iff trivial same fun _ _ _ _ _ _ => trivial

def mainMount : IMountpoint := { mA := ioConstructMainDrive }

/-- One read from the main drive that succeeds and reports `kErrorDisk`. -/
theorem successful_read_reported :
    ¬ AllSteps (IfsStep .ahci) (Honest .ahci) ⟨true, 1, false⟩
        [.transfer .read (some mainMount) 0 ⟨true, kErrorSuccess⟩] := by
  rw [allSteps_cons]
  rintro ⟨honest, -⟩
  refine (honest_iff _).mp honest ⟨⟨by decide, by decide, ioConstructMainDrive, rfl, trivial⟩, rfl⟩

end Ne.Kernel.IFS
