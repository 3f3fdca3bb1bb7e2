import NeKernel.Sched.BinaryMutex
import NeKernel.Sched.CrashedSlots

/-!
# Processes of the highest affinity

`CanBeScheduled` accepts a process of affinity `kUltraHigh` before it looks at its status. No process is
spawned with that affinity; one can get it from a process that waits for a mutex it has locked.
-/

namespace Ne.Kernel.Sched
open Runs

/-- The scheduler beside any mutexes and any processes that are not in its team. -/
structure Machine (κ ω : Type*) where
  scheduler : Scheduler
  outside : ω → UserProcess
  mutexes : κ → BinaryMutex (ProcessID ⊕ ω)

inductive MachineEvent (κ ω : Type*) where
  | sched (event : SchedEvent)
  | crash (pid : ProcessID)
  | wake (pid : ProcessID) (shouldWakeup : Bool)
  | lock (mutex : κ) (process : Option (ProcessID ⊕ ω))
  | unlock (mutex : κ)
  | change (pointer : ω) (process : UserProcess)

def UserProcess.Wake (shouldWakeup : Bool) (process : UserProcess) : UserProcess :=
  { process with Status := if shouldWakeup then .kRunning else .kFrozen }

section Machine
variable {κ ω : Type*} [DecidableEq κ] [DecidableEq ω]

/-- What the calls on one mutex work on. -/
def Machine.mutexed (m : Machine κ ω) (mutex : κ) : Mutexed (ProcessID ⊕ ω) where
  processes := Sum.elim m.scheduler.team.mProcessList m.outside
  mutex := m.mutexes mutex

def Machine.put (m : Machine κ ω) (mutex : κ) (s : Mutexed (ProcessID ⊕ ω)) : Machine κ ω where
  scheduler := { m.scheduler with team := { m.scheduler.team with mProcessList := fun pid => s.processes (.inl pid) } }
  outside := fun pointer => s.processes (.inr pointer)
  mutexes := Function.update m.mutexes mutex s.mutex

/-- A method of the process in slot `pid`. -/
def Machine.call (m : Machine κ ω) (pid : ProcessID) (method : UserProcess → UserProcess) : Machine κ ω :=
  { m with scheduler := { m.scheduler with
      team := m.scheduler.team.put pid (method (m.scheduler.team.mProcessList pid)) } }

def MachineEvent.step (event : MachineEvent κ ω) (m : Machine κ ω) : Option (Machine κ ω) :=
  match event with
  | .sched event => (event.step m.scheduler).map fun s => { m with scheduler := s }
  | .crash pid => some (m.call pid .Crash)
  | .wake pid shouldWakeup => some (m.call pid (.Wake shouldWakeup))
  | .lock mutex process => some (m.put mutex ((m.mutexed mutex).Lock process).2)
  | .unlock mutex => some (m.put mutex (m.mutexed mutex).Unlock.2)
  | .change pointer process => some { m with outside := Function.update m.outside pointer process }

def MachineStep (event : MachineEvent κ ω) (m m' : Machine κ ω) : Prop := event.step m = some m'

def Machine.start (behind : UserProcess) (outside : ω → UserProcess) : Machine κ ω :=
  ⟨.start behind, outside, fun _ => unlocked⟩

/-- `Run` hands over running processes only. -/
def OnlyRunning (event : MachineEvent κ ω) (m : Machine κ ω) : Prop :=
  ∀ call index, event = .sched call → call.hands m.scheduler = some index →
    (m.scheduler.slot index).Status = .kRunning

/-- A process of affinity `kUltraHigh` that the cursor comes to is running. -/
def UltraRuns (event : MachineEvent κ ω) (m : Machine κ ω) : Prop :=
  ∀ switched, event = .sched (.run switched) → 1 ≤ m.scheduler.team.mProcessCur →
    (m.scheduler.slot (nextIndex m.scheduler.processIndex)).Affinity = .kUltraHigh →
    (m.scheduler.slot (nextIndex m.scheduler.processIndex)).Status = .kRunning

/-- A process of the team is not boosted to `kUltraHigh`, and the cursor finds no such affinity behind the team. -/
def NoUltra (event : MachineEvent κ ω) (m : Machine κ ω) : Prop :=
  match event with
  | .lock mutex (some process) => ∀ pid, (m.mutexed mutex).locker = some (.inl pid) →
      ((m.mutexed mutex).processes process).Affinity ≠ .kUltraHigh
  | .sched (.run _) => nextIndex m.scheduler.processIndex > kCurrentSlot → m.scheduler.behind.Affinity ≠ .kUltraHigh
  | _ => True

end Machine

/-! ## Affinities -/

section Affinities
variable {s s' : Scheduler} {i : Nat} {process : UserProcess}

def Tame (process : UserProcess) : Prop := process.Affinity ≠ .kUltraHigh

theorem Timed.tame {q : UserProcess} (times : Timed process q) (tame : Tame process) : Tame q := by
  obtain ⟨_, _, _, _, rfl⟩ := times
  exact tame

theorem handle_tame {handler : FaultHandler} {rsp : UIntPtr} (tame : Tame process) :
    Tame (handler.handle rsp process) := by
  obtain ⟨signal, status, same, -⟩ := @handle_cases process handler rsp
  rw [same]
  exact tame

theorem crash_tame (tame : Tame process) : Tame process.Crash := by
  unfold Tame
  rw [(Crash_frame process).2]
  exact tame

theorem put_tame {team : UserProcessTeam} {pid : ProcessID} (all : ∀ slot, Tame (team.mProcessList slot))
    (own : Tame process) (slot : ProcessID) : Tame ((team.put pid process).mProcessList slot) := by
  by_cases here : slot = pid
  · rwa [here, put_same]
  · rw [put_other here]
    exact all slot

theorem store_tame (all : ∀ slot, Tame (s.team.mProcessList slot)) (own : Tame process) (slot : ProcessID) :
    Tame ((s.store i process).team.mProcessList slot) := by
  unfold Scheduler.store
  split
  · exact put_tame all own slot
  · exact all slot

theorem Run_tame {switched : Bool} {result : Nat} (taken : s.Run switched = some (result, s'))
    (all : ∀ slot, Tame (s.team.mProcessList slot)) (next : Tame (s.slot (nextIndex s.processIndex)))
    (slot : ProcessID) : Tame (s'.team.mProcessList slot) := by
  have before := (beforeSwitch_timed _).tame next
  unfold Scheduler.Run at taken
  dsimp only at taken
  split at taken
  · obtain ⟨-, rfl⟩ := Prod.ext_iff.mp (Option.some.inj taken)
    exact all slot
  split at taken
  · split at taken
    · cases taken
    obtain ⟨-, rfl⟩ := Prod.ext_iff.mp (Option.some.inj taken)
    have copied := store_tame (i := kCurrentSlot) (store_tame (i := nextIndex s.processIndex)
      (s := { s with processIndex := nextIndex s.processIndex }) all before) before
    cases switched with
    | false => exact copied slot
    | true => exact store_tame copied ((afterSwitch_timed _).tame before) slot
  · obtain ⟨-, rfl⟩ := Prod.ext_iff.mp (Option.some.inj taken)
    exact store_tame (s := { s with processIndex := nextIndex s.processIndex }) all ((passOver_timed _).tame next) slot

theorem step_tame {event : SchedEvent} (taken : EventStep event s s') (all : ∀ slot, Tame (s.team.mProcessList slot))
    (next : ∀ switched, event = .run switched → Tame (s.slot (nextIndex s.processIndex))) (slot : ProcessID) :
    Tame (s'.team.mProcessList slot) := by
  have exited {exitCode : Int} {returns : Returns} {pid : ProcessID} {team : UserProcessTeam}
      (exits : Exit exitCode returns pid s.team = some team) : Tame (team.mProcessList slot) := by
    by_cases here : slot = pid
    · unfold Tame
      rw [here, (Exit_own exits).2.2]
      exact all pid
    · rw [(Exit_cases exits).2 slot here]
      exact all slot
  cases event with
  | run switched =>
      obtain ⟨⟨result, s''⟩, ran, rfl⟩ := Option.map_eq_some_iff.mp taken
      exact Run_tame ran all (next switched rfl) slot
  | fault handler rsp =>
      obtain rfl := Option.some.inj taken
      exact store_tame all (handle_tame (all kCurrentSlot)) slot
  | exit exitCode returns pid =>
      obtain ⟨team, exits, rfl⟩ := Option.map_eq_some_iff.mp taken
      exact exited exits
  | remove returns processId =>
      obtain ⟨team, removed, rfl⟩ := Option.map_eq_some_iff.mp taken
      rcases Remove_cases removed with rfl | ⟨-, -, exits⟩
      · exact all slot
      · exact exited exits
  | spawn vm name code image imageSz heap =>
      obtain ⟨⟨pid, team⟩, spawned, rfl⟩ := Option.map_eq_some_iff.mp taken
      rcases Spawn_put spawned with ⟨-, -, rfl⟩ | ⟨-, -, text, filled, -, put, rfl⟩
      · exact all slot
      · refine @put_tame _ { s.team with mProcessCur := s.team.mProcessCur + 1 } s.team.mProcessCur all ?_ slot
        unfold Tame
        rcases (fill_frame put).2 with same | standard
        · rw [same]
          exact all s.team.mProcessCur
        · rw [standard]
          exact nofun

end Affinities

section Mutexes
variable {ω : Type*} [DecidableEq ω] {s : Mutexed (ProcessID ⊕ ω)}

/-- Neither the processes of the team have the affinity, nor would an `Unlock` give it back to one. -/
structure Plain (s : Mutexed (ProcessID ⊕ ω)) : Prop where
  slots : ∀ pid, Tame (s.processes (.inl pid))
  saved : ∀ pid, s.mutex.fLockingProcess = some (.inl pid) → s.mutex.fOwnerOriginalAffinity ≠ .kUltraHigh

theorem setAffinity_tame {owner : ProcessID ⊕ ω} {affinity : AffinityKind} (plain : Plain s)
    (own : ∀ pid, owner = .inl pid → affinity ≠ .kUltraHigh) (pid : ProcessID) :
    Tame (setAffinity s.processes owner affinity (.inl pid)) := by
  unfold setAffinity
  split
  · rename_i here
    exact own pid here.symm
  · exact plain.slots pid

theorem Unlock_plain (plain : Plain s) : Plain s.Unlock.2 := by
  unfold Mutexed.Unlock
  split
  · exact plain
  rename_i owner locked
  split
  · refine ⟨setAffinity_tame plain ?_, nofun⟩
    rintro pid rfl
    exact plain.saved pid locked
  · exact ⟨plain.slots, nofun⟩

theorem Lock_plain {process : Option (ProcessID ⊕ ω)} (plain : Plain s)
    (waits : ∀ waiter ∈ process, ∀ pid, s.locker = some (.inl pid) → Tame (s.processes waiter)) :
    Plain (s.Lock process).2 := by
  unfold Mutexed.Lock
  split
  · exact plain
  rename_i waiter
  split
  · rename_i owner locked
    split
    · refine ⟨setAffinity_tame plain ?_, ?_⟩
      · rintro pid rfl
        exact waits waiter rfl pid locked
      · intro pid locks
        have same : s.mutex.fLockingProcess = some owner := (Option.filter_eq_some_iff.mp locked).1
        obtain rfl := Option.some.inj (same.symm.trans locks)
        exact plain.slots pid
    · exact plain
  · exact ⟨plain.slots, nofun⟩

end Mutexes

section Machine
variable {κ ω : Type*} {event : MachineEvent κ ω} {m m' : Machine κ ω}

theorem onlyRunning_iff : OnlyRunning event m ↔ UltraRuns event m := by
  constructor
  · rintro only switched rfl peopled ultra
    exact only (.run switched) _ rfl (if_pos ⟨peopled, if_pos ultra⟩)
  · rintro ultra call index rfl handed
    obtain ⟨peopled, rfl, scheduled⟩ := hands_cases handed
    cases call with
    | run switched =>
        by_cases affinity : (m.scheduler.slot (nextIndex m.scheduler.processIndex)).Affinity = .kUltraHigh
        · exact ultra switched rfl peopled affinity
        · by_contra waits
          exact absurd scheduled (by simp [CanBeScheduled, affinity, waits])
    | _ => cases handed

structure AllPlain (m : Machine κ ω) : Prop where
  slots : ∀ pid, Tame (m.scheduler.team.mProcessList pid)
  mutexes : ∀ mutex, Plain (m.mutexed mutex)

theorem AllPlain.team {s : Scheduler} (all : AllPlain m) (tame : ∀ slot, Tame (s.team.mProcessList slot)) :
    AllPlain { m with scheduler := s } :=
  ⟨tame, fun mutex => ⟨tame, (all.mutexes mutex).saved⟩⟩

/-- The cursor comes to processes of the team, which do not have the affinity, or to the one behind them. -/
theorem AllPlain.next {switched : Bool} (all : AllPlain m) (none : NoUltra (.sched (.run switched)) m) :
    Tame (m.scheduler.slot (nextIndex m.scheduler.processIndex)) := by
  unfold Scheduler.slot
  split
  · exact all.slots _
  · rename_i past
    exact none (Nat.not_le.mp past)

theorem start_allPlain (behind : UserProcess) (outside : ω → UserProcess) :
    AllPlain (.start (κ := κ) behind outside) := by
  have slots (pid : ProcessID) : Tame (kRTUserTeam.mProcessList pid) := nofun
  exact ⟨slots, fun _ => ⟨slots, nofun⟩⟩

variable [DecidableEq κ]

theorem AllPlain.put {mutex : κ} {s : Mutexed (ProcessID ⊕ ω)} (all : AllPlain m) (plain : Plain s) :
    AllPlain (m.put mutex s) := by
  refine ⟨plain.slots, fun other => ⟨plain.slots, fun pid locks => ?_⟩⟩
  by_cases here : other = mutex
  · subst here
    simp only [Machine.mutexed, Machine.put, Function.update_self] at locks ⊢
    exact plain.saved pid locks
  · simp only [Machine.mutexed, Machine.put, Function.update_of_ne here] at locks ⊢
    exact (all.mutexes other).saved pid locks

variable [DecidableEq ω]

theorem allPlain_kept (all : AllPlain m) (none : NoUltra event m) (taken : MachineStep event m m') : AllPlain m' := by
  cases event with
  | sched call =>
      obtain ⟨s, step, rfl⟩ := Option.map_eq_some_iff.mp taken
      refine all.team (step_tame step all.slots ?_)
      rintro switched rfl
      exact all.next none
  | crash pid =>
      obtain rfl := Option.some.inj taken
      exact all.team (put_tame all.slots (crash_tame (all.slots pid)))
  | wake pid shouldWakeup =>
      obtain rfl := Option.some.inj taken
      exact all.team (put_tame all.slots (all.slots pid))
  | lock mutex process =>
      obtain rfl := Option.some.inj taken
      refine all.put (Lock_plain (all.mutexes mutex) ?_)
      rintro waiter rfl
      exact none
  | unlock mutex =>
      obtain rfl := Option.some.inj taken
      exact all.put (Unlock_plain (all.mutexes mutex))
  | change pointer process =>
      obtain rfl := Option.some.inj taken
      exact ⟨all.slots, fun mutex => ⟨all.slots, (all.mutexes mutex).saved⟩⟩

/-- `Run` hands over running processes only, exactly as long as the cursor comes to no stopped process of affinity
`kUltraHigh`; and it comes to none as long as no process of the team is boosted to that affinity. -/
theorem only_running_iff (behind : UserProcess) (outside : ω → UserProcess) (events : List (MachineEvent κ ω)) :
    (AllSteps MachineStep OnlyRunning (.start behind outside) events ↔
      AllSteps MachineStep UltraRuns (.start behind outside) events) ∧
    (AllSteps MachineStep NoUltra (.start behind outside) events →
      AllSteps MachineStep UltraRuns (.start behind outside) events) := by
  constructor
  · exact @allSteps_iff _ _ _ _ _ _ _ (fun _ => True) trivial (fun _ _ _ => onlyRunning_iff) fun _ _ _ _ _ _ => trivial
  · intro none
    have both : AllSteps MachineStep (fun _ m => AllPlain m) (.start behind outside) events :=
      none.of_invariant (start_allPlain behind outside) (fun _ _ _ => allPlain_kept) fun _ _ all => all
    rintro before event after split m run switched rfl - ultra
    exact absurd ultra ((both before _ after split m run).next (none before _ after split m run))

end Machine

/-- A process of the highest affinity that is not in the team. -/
def urgent (_ : Unit) : UserProcess := { zeroProcess with Status := .kRunning, Affinity := .kUltraHigh }

/-- It waits for the mutex of the process in slot 1, which then crashes. -/
def urgentCalls : List (MachineEvent Unit Unit) :=
  [.sched (.spawn 0 (some [97]) 1 0 0 ⟨true, true⟩), .sched (.spawn 0 (some [98]) 1 0 0 ⟨true, true⟩),
    .lock () (some (.inl 1)), .lock () (some (.inr ())), .crash 1]

theorem urgent_state : ∃ m, Run MachineStep (.start zeroProcess urgent) urgentCalls m ∧
    (SchedEvent.run true).hands m.scheduler = some 1 ∧ (m.scheduler.slot 1).Status = .kKilled := by
  have computed : (urgentCalls.foldlM (fun m event => MachineEvent.step event m) (Machine.start zeroProcess urgent)).map
      (fun m => ((SchedEvent.run true).hands m.scheduler, (m.scheduler.slot 1).Status)) = some (some 1, .kKilled) := by
    decide
  obtain ⟨m, taken, values⟩ := Option.map_eq_some_iff.mp computed
  obtain ⟨hands, killed⟩ := Prod.mk.inj values
  exact ⟨m, run_iff_foldlM.mpr taken, hands, killed⟩

/-- The crashed process is handed over. -/
theorem killed_handed_over : ¬ ∀ (behind : UserProcess) (outside : Unit → UserProcess)
    (events : List (MachineEvent Unit Unit)),
    AllSteps MachineStep OnlyRunning (.start behind outside) events := by
  intro every
  obtain ⟨m, run, handed, killed⟩ := urgent_state
  have running := every zeroProcess urgent (urgentCalls ++ [.sched (.run true)]) urgentCalls _ [] rfl m run _ 1 rfl
    handed
  cases killed.symm.trans running

end Ne.Kernel.Sched
