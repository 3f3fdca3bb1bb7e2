import NeKernel.Sched.RoundRobin

/-!
# Crashed processes

A fault handler crashes what `TheCurrentProcess` refers to, the copy behind the list, and `Run` goes on
with the slot the copy was made from.
-/

namespace Ne.Kernel.Sched
open Runs

/-- A run with the slot of the current process and the slots whose process a handler has crashed. -/
structure Tracked where
  scheduler : Scheduler
  /-- None once the slot has been given to another process, and the copy is all that is left. -/
  current : Option Nat
  crashed : List Nat

/-- The index of the process that is handed to `Switch`. -/
def SchedEvent.hands (event : SchedEvent) (s : Scheduler) : Option Nat :=
  match event with
  | .run _ =>
      if 1 ≤ s.team.mProcessCur ∧ CanBeScheduled (s.slot (nextIndex s.processIndex)) then
        some (nextIndex s.processIndex)
      else none
  | _ => none

def Tracked.switch (h : Tracked) (s : Scheduler) : Option Nat → Tracked
  | none => { h with scheduler := s }
  | some index => { h with
      scheduler := s
      current := if index = kCurrentSlot then h.current else some index }

/-- A process spawned behind the list takes the place of the copy. -/
def Tracked.respawn (h : Tracked) (s : Scheduler) (pid : ProcessID) : Tracked :=
  if pid < 0 then { h with scheduler := s } else
  { scheduler := s
    current :=
      if pid.toNat = kCurrentSlot then some kCurrentSlot
      else if h.current = some pid.toNat then none
      else h.current
    crashed := h.crashed.filter (· ≠ pid.toNat) }

def Tracked.crash (h : Tracked) (s : Scheduler) : Tracked :=
  { h with
    scheduler := s
    crashed :=
      if (h.scheduler.slot kCurrentSlot).Status = .kRunning then h.current.toList ++ h.crashed else h.crashed }

def SchedEvent.track (event : SchedEvent) (h : Tracked) : Option Tracked :=
  match event with
  | .spawn vm name code image imageSz heap =>
      (Spawn vm name code image imageSz heap h.scheduler.team).map fun (pid, team) =>
        h.respawn { h.scheduler with team := team } pid
  | .run _ => (event.step h.scheduler).map fun s => h.switch s (event.hands h.scheduler)
  | .fault .. => (event.step h.scheduler).map h.crash
  | _ => (event.step h.scheduler).map fun s => { h with scheduler := s }

def TrackStep (event : SchedEvent) (h h' : Tracked) : Prop := event.track h = some h'

def Tracked.start (behind : UserProcess) : Tracked := ⟨.start behind, none, []⟩

/-- `Run` hands over no slot whose process has been crashed, nor the copy made from one. -/
def StaysStopped (event : SchedEvent) (h : Tracked) : Prop :=
  ∀ index, event.hands h.scheduler = some index →
    index ∉ h.crashed ∧ (index = kCurrentSlot → ∀ slot ∈ h.current, slot ∉ h.crashed)

/-- The process is not scheduled, whatever its times. -/
def Stopped (process : UserProcess) : Prop := ∀ later, Timed process later → CanBeScheduled later = false

/-- A handler that crashes the current process finds the slot of the list it was copied from stopped. -/
def FaultReaches (event : SchedEvent) (h : Tracked) : Prop :=
  ∀ handler rsp, event = .fault handler rsp → (h.scheduler.slot kCurrentSlot).Status = .kRunning →
    ∀ slot ∈ h.current, slot ≠ kCurrentSlot ∧ Stopped (h.scheduler.slot slot) ∧
      (h.scheduler.slot kCurrentSlot).Affinity ≠ .kUltraHigh

section Stopping
variable {p q : UserProcess} {handler : FaultHandler} {rsp : UIntPtr}

theorem Stopped.timed (stopped : Stopped p) (times : Timed p q) : Stopped q :=
  fun later after => stopped later (times.trans after)

theorem Stopped.waits (stopped : Stopped p) : CanBeScheduled p = false := stopped p (.refl p)

theorem Stopped.affinity (stopped : Stopped p) : p.Affinity ≠ .kUltraHigh := by
  intro ultra
  have scheduled : CanBeScheduled p = true := if_pos ultra
  cases scheduled.symm.trans stopped.waits

theorem stopped_of_status (affinity : p.Affinity ≠ .kUltraHigh) (status : p.Status ≠ .kRunning) : Stopped p := by
  rintro later ⟨PTime, RTime, UTime, STime, rfl⟩
  simp [CanBeScheduled, affinity, status]

theorem crash_stopped (affinity : p.Affinity ≠ .kUltraHigh) : Stopped p.Crash :=
  stopped_of_status ((Crash_frame p).2 ▸ affinity) (Crash_stopped p)

theorem Stopped.image {image : ProcessImage} (stopped : Stopped p) : Stopped { p with Image := image } := by
  rintro later ⟨PTime, RTime, UTime, STime, rfl⟩
  exact stopped { p with PTime := PTime, RTime := RTime, UTime := UTime, STime := STime } ⟨_, _, _, _, rfl⟩

/-- Every handler leaves the process not running, and touches its signal beside its status. -/
theorem handle_cases : ∃ signal status, handler.handle rsp p = { p with Signal := signal, Status := status } ∧
    status ≠ .kRunning := by
  have crashed : ∃ status, (if p.Status = .kRunning then p.Crash else p) = { p with Status := status } ∧
      status ≠ .kRunning := by
    by_cases running : p.Status = .kRunning
    · exact ⟨.kKilled, by rw [if_pos running, UserProcess.Crash, if_pos running], nofun⟩
    · exact ⟨p.Status, if_neg running, running⟩
  obtain ⟨status, same, stopped⟩ := crashed
  unfold FaultHandler.handle
  rw [same]
  cases handler with
  | breakpoint => exact ⟨_, .kFrozen, rfl, nofun⟩
  | generic | ud => exact ⟨_, status, rfl, stopped⟩
  | gpf | pf | math => exact ⟨p.Signal, status, if_neg stopped, stopped⟩

theorem handle_stopped (affinity : p.Affinity ≠ .kUltraHigh) : Stopped (handler.handle rsp p) := by
  obtain ⟨signal, status, same, stopped⟩ := @handle_cases p handler rsp
  rw [same]
  exact stopped_of_status affinity stopped

end Stopping

section Frames
variable {s : Scheduler} {vm code image : VoidPtr} {name : Option (List ByteMem.Byte)} {text : List ByteMem.Byte}
  {imageSz : SizeT} {heap : Grants} {team : UserProcessTeam} {process filled : UserProcess} {pid result : ProcessID}
  {returns : Returns} {exitCode : Int} {i : Nat}

/-- Every process that was stopped still is. -/
def KeepsStopped (s s' : Scheduler) : Prop := ∀ i ≤ kCurrentSlot + 1, Stopped (s.slot i) → Stopped (s'.slot i)

theorem keepsStopped_of_team (others : ∀ slot, slot ≠ pid → team.mProcessList slot = s.team.mProcessList slot)
    (own : Stopped (s.team.mProcessList pid) → Stopped (team.mProcessList pid)) :
    KeepsStopped s { s with team := team } := by
  intro i bound stopped
  by_cases inside : i ≤ kCurrentSlot
  · rw [slot_team inside] at stopped ⊢
    by_cases here : (i : ProcessID) = pid
    · rw [here] at stopped ⊢
      exact own stopped
    · exact (others i here).symm ▸ stopped
  · unfold Scheduler.slot at stopped ⊢
    rwa [if_neg inside] at stopped ⊢

theorem Exit_stopped (taken : Exit exitCode returns pid s.team = some team) :
    KeepsStopped s { s with team := team } := by
  obtain ⟨finished, -, affinity⟩ := Exit_own taken
  apply keepsStopped_of_team (Exit_cases taken).2
  intro stopped
  exact stopped_of_status (affinity ▸ stopped.affinity) (by rw [finished]; exact nofun)

/-- A `Spawn` that fails after it has counted leaves a stopped process stopped. -/
theorem fill_stopped (put : fill vm pid text code image imageSz heap process = (result, filled))
    (valid : 0 ≤ pid) (failed : result < 0) (stopped : Stopped process) : Stopped filled := by
  obtain ⟨rfl, rfl⟩ := Prod.ext_iff.mp put
  revert failed
  unfold fill
  dsimp only
  split
  · exact fun _ => stopped.image
  split
  · rintro -
    exact crash_stopped stopped.affinity
  split
  · exact fun negative => absurd valid (not_le.mpr negative)
  split
  · rintro -
    exact crash_stopped nofun
  · exact fun negative => absurd valid (not_le.mpr negative)

theorem Spawn_stopped (taken : Spawn vm name code image imageSz heap s.team = some (pid, team)) (failed : pid < 0) :
    KeepsStopped s { s with team := team } := by
  rcases Spawn_put taken with ⟨-, -, rfl⟩ | ⟨-, low, text, filled, -, put, rfl⟩
  · exact fun _ _ stopped => stopped
  · apply keepsStopped_of_team fun slot other => put_other other
    intro stopped
    rw [put_same]
    exact fill_stopped put low failed stopped

theorem Spawn_others (taken : Spawn vm name code image imageSz heap s.team = some (pid, team)) (valid : ¬ pid < 0)
    (other : i ≠ pid.toNat) : Scheduler.slot { s with team := team } i = s.slot i := by
  rcases Spawn_cases taken with ⟨-, negative, -⟩ | ⟨-, low, counts, text, -, ⟨-, negative⟩ | ⟨-, rfl, -⟩⟩
  · exact absurd negative valid
  · exact absurd negative valid
  · unfold Scheduler.slot
    split
    · apply counts.2
      rintro same
      exact other (by rw [← same, Int.toNat_natCast])
    · rfl

end Frames

/-! ## Runs -/

/-- The crashed processes are stopped in the slots of the list, and so is the copy of one. -/
structure AtRest (h : Tracked) : Prop where
  inside : ∀ slot ∈ h.crashed, slot ≤ kCurrentSlot + 1 ∧ slot ≠ kCurrentSlot
  slots : ∀ slot ∈ h.crashed, Stopped (h.scheduler.slot slot)
  current : ∀ slot ∈ h.current, slot ≤ kCurrentSlot + 1
  copy : ∀ slot ∈ h.current, slot ∈ h.crashed → Stopped (h.scheduler.slot kCurrentSlot)

section Tracking
variable {h h' : Tracked} {s : Scheduler} {event : SchedEvent} {pid : ProcessID}

theorem hands_cases {index : Nat} (handed : event.hands s = some index) :
    1 ≤ s.team.mProcessCur ∧ index = nextIndex s.processIndex ∧ CanBeScheduled (s.slot index) = true := by
  cases event with
  | run switched =>
      obtain ⟨⟨peopled, scheduled⟩, same⟩ := Option.ite_none_right_eq_some.mp handed
      obtain rfl := Option.some.inj same
      exact ⟨peopled, rfl, scheduled⟩
  | _ => cases handed

theorem AtRest.staysStopped (rest : AtRest h) : StaysStopped event h := by
  intro index handed
  obtain ⟨-, -, scheduled⟩ := hands_cases handed
  have never (stopped : Stopped (h.scheduler.slot index)) : False := by cases scheduled.symm.trans stopped.waits
  refine ⟨fun member => never (rest.slots index member), ?_⟩
  rintro rfl slot copied member
  exact never (rest.copy slot copied member)

theorem AtRest.keeps (rest : AtRest h) (stops : KeepsStopped h.scheduler s) : AtRest { h with scheduler := s } :=
  ⟨rest.inside, fun slot member => stops slot (rest.inside slot member).1 (rest.slots slot member), rest.current,
    fun slot copied member => stops kCurrentSlot (Nat.le_succ _) (rest.copy slot copied member)⟩

theorem AtRest.respawn {name : Option (List ByteMem.Byte)} {vm code image : VoidPtr} {imageSz : SizeT} {heap : Grants}
    {team : UserProcessTeam} (rest : AtRest h)
    (taken : Spawn vm name code image imageSz heap h.scheduler.team = some (pid, team)) :
    AtRest (h.respawn { h.scheduler with team := team } pid) := by
  unfold Tracked.respawn
  split
  · rename_i failed
    exact rest.keeps (Spawn_stopped taken failed)
  · rename_i valid
    have old {slot : Nat} (member : slot ∈ h.crashed.filter (· ≠ pid.toNat)) : slot ∈ h.crashed ∧ slot ≠ pid.toNat := by
      simpa using member
    have kept {slot : Nat} (other : slot ≠ pid.toNat) (stopped : Stopped (h.scheduler.slot slot)) :
        Stopped (Scheduler.slot { h.scheduler with team := team } slot) := by
      rwa [Spawn_others taken valid other]
    refine ⟨fun slot member => rest.inside slot (old member).1, fun slot member =>
      kept (old member).2 (rest.slots slot (old member).1), ?_, ?_⟩
    · intro slot copied
      dsimp only at copied
      split at copied
      · obtain rfl := Option.some.inj copied
        exact Nat.le_succ _
      split at copied
      · cases copied
      · exact rest.current slot copied
    · intro slot copied member
      dsimp only at copied
      split at copied
      · obtain rfl := Option.some.inj copied
        exact absurd rfl (rest.inside _ (old member).1).2
      split at copied
      · cases copied
      · rename_i apart _
        exact kept (Ne.symm apart) (rest.copy slot copied (old member).1)

theorem AtRest.ran {switched : Bool} (rest : AtRest h) (taken : (SchedEvent.run switched).step h.scheduler = some s) :
    AtRest (h.switch s ((SchedEvent.run switched).hands h.scheduler)) := by
  have stays : StaysStopped (.run switched) h := rest.staysStopped
  obtain ⟨⟨result, next⟩, ran, rfl⟩ := Option.map_eq_some_iff.mp taken
  rcases Run_cases ran with ⟨empty, rfl⟩ | ran
  · have none : (SchedEvent.run switched).hands h.scheduler = none :=
      if_neg fun both => absurd both.1 (not_le.mpr empty)
    rw [none]
    exact rest
  -- no slot is changed but the one considered and the copy
  have slots {slot : Nat} (member : slot ∈ h.crashed) : Stopped (next.slot slot) := by
    obtain ⟨bound, inList⟩ := rest.inside slot member
    have before := rest.slots slot member
    by_cases here : slot = nextIndex h.scheduler.processIndex
    · subst here
      exact before.timed (ran.own inList)
    · rwa [ran.others slot bound here inList]
  cases handed : (SchedEvent.run switched).hands h.scheduler with
  | none =>
      have waits : CanBeScheduled (h.scheduler.slot (nextIndex h.scheduler.processIndex)) ≠ true :=
        fun scheduled => by cases handed.symm.trans (if_pos ⟨ran.peopled, scheduled⟩)
      have current := ran.current
      rw [if_neg waits] at current
      exact ⟨rest.inside, fun slot => slots, rest.current,
        fun slot copied member => (rest.copy slot copied member).timed current⟩
  | some index =>
      obtain ⟨-, rfl, -⟩ := hands_cases handed
      obtain ⟨fresh, copies⟩ := stays _ handed
      refine ⟨rest.inside, fun slot => slots, ?_, ?_⟩
      · intro slot copied
        dsimp only [Tracked.switch] at copied
        split at copied
        · exact rest.current slot copied
        · obtain rfl := Option.some.inj copied
          exact nextIndex_le _
      · intro slot copied member
        dsimp only [Tracked.switch] at copied
        split at copied
        · rename_i last
          exact absurd member (copies last slot copied)
        · obtain rfl := Option.some.inj copied
          exact absurd member fresh

theorem AtRest.fault {handler : FaultHandler} {rsp : UIntPtr} (rest : AtRest h)
    (reaches : FaultReaches (.fault handler rsp) h) :
    AtRest (h.crash (h.scheduler.store kCurrentSlot (handler.handle rsp (h.scheduler.slot kCurrentSlot)))) := by
  have apart {slot : Nat} (other : slot ≠ kCurrentSlot) :
      (h.scheduler.store kCurrentSlot (handler.handle rsp (h.scheduler.slot kCurrentSlot))).slot slot =
        h.scheduler.slot slot := slot_store_other other (.inl le_rfl)
  unfold Tracked.crash
  by_cases running : (h.scheduler.slot kCurrentSlot).Status = .kRunning
  · rw [if_pos running]
    have reached := reaches handler rsp rfl running
    refine ⟨?_, ?_, rest.current, ?_⟩
    · intro slot member
      rcases List.mem_append.mp member with copied | member
      · have copied := Option.mem_toList.mp copied
        exact ⟨rest.current slot copied, (reached slot copied).1⟩
      · exact rest.inside slot member
    · intro slot member
      rcases List.mem_append.mp member with copied | member
      · obtain ⟨other, stopped, -⟩ := reached slot (Option.mem_toList.mp copied)
        rwa [apart other]
      · rw [apart (rest.inside slot member).2]
        exact rest.slots slot member
    · intro slot copied _
      rw [slot_store_same]
      exact handle_stopped (reached slot copied).2.2
  · rw [if_neg running]
    refine ⟨rest.inside, ?_, rest.current, ?_⟩
    · intro slot member
      rw [apart (rest.inside slot member).2]
      exact rest.slots slot member
    · intro slot copied member
      rw [slot_store_same]
      exact handle_stopped (rest.copy slot copied member).affinity

theorem atRest_kept (rest : AtRest h) (reaches : FaultReaches event h) (taken : TrackStep event h h') : AtRest h' := by
  cases event with
  | spawn vm name code image imageSz heap =>
      obtain ⟨⟨pid, team⟩, spawned, rfl⟩ := Option.map_eq_some_iff.mp taken
      exact rest.respawn spawned
  | remove returns processId =>
      obtain ⟨s, step, rfl⟩ := Option.map_eq_some_iff.mp taken
      obtain ⟨team, removed, rfl⟩ := Option.map_eq_some_iff.mp step
      rcases Remove_cases removed with rfl | ⟨-, -, exits⟩
      · exact rest
      · exact rest.keeps (Exit_stopped exits)
  | exit exitCode returns slot =>
      obtain ⟨s, step, rfl⟩ := Option.map_eq_some_iff.mp taken
      obtain ⟨team, exits, rfl⟩ := Option.map_eq_some_iff.mp step
      exact rest.keeps (Exit_stopped exits)
  | run switched =>
      obtain ⟨s, step, rfl⟩ := Option.map_eq_some_iff.mp taken
      exact rest.ran step
  | fault handler rsp =>
      obtain rfl := Option.some.inj taken
      exact rest.fault reaches

theorem start_atRest (behind : UserProcess) : AtRest (.start behind) := by
  constructor
  all_goals
    intro slot member
    cases member

/-- Crashed processes stay stopped as long as the handlers find their slots in the list stopped. -/
theorem crashed_stay_stopped (behind : UserProcess) (events : List SchedEvent)
    (reaches : AllSteps TrackStep FaultReaches (.start behind) events) :
    AllSteps TrackStep StaysStopped (.start behind) events :=
  reaches.of_invariant (start_atRest behind) (fun _ _ _ => atRest_kept) fun _ _ => AtRest.staysStopped

theorem reaches_last {calls : List SchedEvent} (calm : ∀ handler rsp, SchedEvent.fault handler rsp ∉ calls)
    (last : ∀ t, Run TrackStep h calls t → FaultReaches event t) :
    AllSteps TrackStep FaultReaches h (calls ++ [event]) := by
  intro before earlier after split t run
  induction after using List.reverseRecOn with
  | nil =>
      obtain ⟨rfl, same⟩ := List.append_inj' split rfl
      obtain rfl := List.singleton_inj.mp same
      exact last t run
  | append_singleton after k =>
      rw [← List.cons_append, ← List.append_assoc] at split
      obtain ⟨rfl, -⟩ := List.append_inj' split rfl
      rintro handler rsp rfl
      exact absurd (by simp) (calm handler rsp)

end Tracking

/-- The process in slot 1 is handed over. -/
def handedCalls : List SchedEvent :=
  [.spawn 0 (some [97]) 1 0 0 ⟨true, true⟩, .spawn 0 (some [98]) 1 0 0 ⟨true, true⟩, .run false]

/-- It exits, and then its copy faults. -/
def exitedCalls : List SchedEvent := handedCalls ++ [.exit 0 ⟨true, true⟩ 1]

theorem exited_reaches : AllSteps TrackStep FaultReaches (.start zeroProcess) (exitedCalls ++ [.fault .gpf 0]) := by
  have computed : (exitedCalls.foldlM (fun h event => SchedEvent.track event h) (Tracked.start zeroProcess)).map
      (fun h => (h.current, (h.scheduler.slot 1).Affinity, (h.scheduler.slot 1).Status,
        (h.scheduler.slot kCurrentSlot).Affinity)) = some (some 1, .kStandard, .kFinished, .kStandard) := by
    decide
  apply reaches_last (by simp [exitedCalls, handedCalls])
  intro h run
  rw [run_iff_foldlM.mp run] at computed
  simp only [Option.map_some, Option.some.injEq, Prod.mk.injEq] at computed
  obtain ⟨current, affinity, finished, copy⟩ := computed
  intro handler rsp fault running slot member
  obtain rfl := Option.some.inj (current.symm.trans member)
  refine ⟨by decide, stopped_of_status ?_ ?_, ?_⟩
  · exact affinity ▸ nofun
  · exact finished ▸ nofun
  · exact copy ▸ nofun

theorem exited_stay_stopped :
    AllSteps TrackStep FaultReaches (.start zeroProcess) (exitedCalls ++ [.fault .gpf 0]) ∧
    AllSteps TrackStep StaysStopped (.start zeroProcess) (exitedCalls ++ [.fault .gpf 0]) :=
  ⟨exited_reaches, crashed_stay_stopped _ _ exited_reaches⟩

/-- The current process faults in slot 1, and the list is gone round once. -/
def crashCalls : List SchedEvent := handedCalls ++ .fault .gpf 0 :: List.replicate 33 (.run true)

theorem crash_handed : ∃ h, Run TrackStep (.start zeroProcess) crashCalls h ∧
    1 ∈ h.crashed ∧ (SchedEvent.run true).hands h.scheduler = some 1 := by
  have computed : (crashCalls.foldlM (fun h event => SchedEvent.track event h) (Tracked.start zeroProcess)).map
      (fun h => (h.crashed, (SchedEvent.run true).hands h.scheduler)) = some ([1], some 1) := by
    decide
  obtain ⟨h, taken, values⟩ := Option.map_eq_some_iff.mp computed
  obtain ⟨crashed, hands⟩ := Prod.mk.inj values
  exact ⟨h, run_iff_foldlM.mpr taken, by rw [crashed]; exact List.mem_singleton_self 1, hands⟩

/-- The process crashed in slot 1 is handed over again. -/
theorem crashed_handed_over : ¬ ∀ behind events, AllSteps TrackStep StaysStopped (.start behind) events := by
  intro every
  obtain ⟨h, run, crashed, handed⟩ := crash_handed
  exact (every zeroProcess (crashCalls ++ [.run true]) crashCalls (.run true) [] rfl h run 1 handed).1 crashed

end Ne.Kernel.Sched
