import NeKernel.Sched.Dispatch

/-!
# The cursor of `Run`

The cursor goes round thirty-four indexes, two more than the list has.
-/

namespace Ne.Kernel.Sched
open Runs

section Slots
variable {s s' : Scheduler} {process p q r : UserProcess} {i j : Nat} {switched : Bool}

@[simp] theorem store_index : (s.store i process).processIndex = s.processIndex := by
  unfold Scheduler.store
  split <;> rfl

@[simp] theorem store_count : (s.store i process).team.mProcessCur = s.team.mProcessCur := by
  unfold Scheduler.store
  split <;> rfl

@[simp] theorem slot_store_same : (s.store i process).slot i = process := by
  unfold Scheduler.store Scheduler.slot
  by_cases inside : i ≤ kCurrentSlot
  · rw [if_pos inside, if_pos inside, put_same]
  · rw [if_neg inside, if_neg inside]

theorem slot_team (inside : i ≤ kCurrentSlot) : s.slot i = s.team.mProcessList i := if_pos inside

theorem slot_store_other (other : j ≠ i) (inside : i ≤ kCurrentSlot ∨ j ≤ kCurrentSlot) :
    (s.store i process).slot j = s.slot j := by
  unfold Scheduler.store Scheduler.slot
  by_cases first : i ≤ kCurrentSlot
  · rw [if_pos first, put_other (by simpa using other)]
  · rw [if_neg first, if_pos (inside.resolve_left first), if_pos (inside.resolve_left first)]

/-- The processes differ in their times only. -/
def Timed (p q : UserProcess) : Prop :=
  ∃ PTime RTime UTime STime, q = { p with PTime := PTime, RTime := RTime, UTime := UTime, STime := STime }

theorem Timed.refl (p : UserProcess) : Timed p p := ⟨_, _, _, _, rfl⟩

theorem Timed.trans (first : Timed p q) (second : Timed q r) : Timed p r := by
  obtain ⟨_, _, _, _, rfl⟩ := first
  obtain ⟨_, _, _, _, rfl⟩ := second
  exact ⟨_, _, _, _, rfl⟩

theorem beforeSwitch_timed (p : UserProcess) : Timed p (beforeSwitch p) := by
  unfold beforeSwitch
  dsimp only
  split <;> split <;> exact ⟨_, _, _, _, rfl⟩

theorem afterSwitch_timed (p : UserProcess) : Timed p (afterSwitch p) := by
  unfold afterSwitch
  split
  · exact ⟨_, _, _, _, rfl⟩
  · split <;> exact ⟨_, _, _, _, rfl⟩

theorem passOver_timed (p : UserProcess) : Timed p (passOver p) := by
  unfold passOver
  dsimp only
  split <;> exact ⟨_, _, _, _, rfl⟩

theorem nextIndex_le (i : Nat) : nextIndex i ≤ kCurrentSlot + 1 := by
  unfold nextIndex
  split
  · exact Nat.zero_le _
  · rename_i low
    exact Nat.succ_le_succ (Nat.not_lt.mp low)

/-- What a `Run` with a process in the team does. -/
structure Ran (s s' : Scheduler) : Prop where
  peopled : 1 ≤ s.team.mProcessCur
  cursor : s'.processIndex = nextIndex s.processIndex
  count : s'.team.mProcessCur = s.team.mProcessCur
  others : ∀ i ≤ kCurrentSlot + 1, i ≠ nextIndex s.processIndex → i ≠ kCurrentSlot → s'.slot i = s.slot i
  own : nextIndex s.processIndex ≠ kCurrentSlot →
    Timed (s.slot (nextIndex s.processIndex)) (s'.slot (nextIndex s.processIndex))
  current : Timed (if CanBeScheduled (s.slot (nextIndex s.processIndex)) then s.slot (nextIndex s.processIndex)
    else s.slot kCurrentSlot) (s'.slot kCurrentSlot)

theorem Run_cases {result : Nat} (taken : s.Run switched = some (result, s')) :
    (s.team.mProcessCur < 1 ∧ s' = s) ∨ Ran s s' := by
  unfold Scheduler.Run at taken
  split at taken
  · rename_i empty
    obtain ⟨-, rfl⟩ := Prod.ext_iff.mp (Option.some.inj taken)
    exact .inl ⟨empty, rfl⟩
  rename_i peopled
  have near := nextIndex_le s.processIndex
  have apart {i : Nat} (bound : i ≤ kCurrentSlot + 1) (other : i ≠ nextIndex s.processIndex) :
      nextIndex s.processIndex ≤ kCurrentSlot ∨ i ≤ kCurrentSlot := by omega
  dsimp only at taken
  split at taken
  · rename_i scheduled
    split at taken
    · cases taken
    obtain ⟨-, rfl⟩ := Prod.ext_iff.mp (Option.some.inj taken)
    have scheduled : CanBeScheduled (s.slot (nextIndex s.processIndex)) = true := scheduled
    have before := beforeSwitch_timed (s.slot (nextIndex s.processIndex))
    have after := before.trans (afterSwitch_timed (beforeSwitch (s.slot (nextIndex s.processIndex))))
    cases switched with
    | false =>
        refine .inr ⟨not_lt.mp peopled, by simp, by simp, fun i bound other current => ?_, fun distinct => ?_, ?_⟩
        · simp only [Bool.false_eq_true, if_false]
          rw [slot_store_other current (.inl le_rfl), slot_store_other other (apart bound other)]
          rfl
        · simp only [Bool.false_eq_true, if_false]
          rw [slot_store_other distinct (.inl le_rfl), slot_store_same]
          exact before
        · simp only [Bool.false_eq_true, if_false]
          rw [if_pos scheduled, slot_store_same]
          exact before
    | true =>
        refine .inr ⟨not_lt.mp peopled, by simp, by simp, fun i bound other current => ?_, fun distinct => ?_, ?_⟩
        · simp only [if_true]
          rw [slot_store_other other (apart bound other), slot_store_other current (.inl le_rfl),
            slot_store_other other (apart bound other)]
          rfl
        · simp only [if_true]
          rw [slot_store_same]
          exact after
        · simp only [if_true]
          rw [if_pos scheduled]
          by_cases same : kCurrentSlot = nextIndex s.processIndex
          · rw [← same, slot_store_same, same]
            exact after
          · rw [slot_store_other same (.inr le_rfl), slot_store_same]
            exact before
  · rename_i waits
    obtain ⟨-, rfl⟩ := Prod.ext_iff.mp (Option.some.inj taken)
    have waits : ¬ CanBeScheduled (s.slot (nextIndex s.processIndex)) = true := waits
    refine .inr ⟨not_lt.mp peopled, by simp, by simp, fun i bound other _ => ?_, fun _ => ?_, ?_⟩
    · rw [slot_store_other other (apart bound other)]
      rfl
    · rw [slot_store_same]
      exact passOver_timed _
    · rw [if_neg waits]
      by_cases same : kCurrentSlot = nextIndex s.processIndex
      · rw [← same, slot_store_same]
        exact passOver_timed _
      · rw [slot_store_other same (.inr le_rfl)]
        exact .refl _

end Slots

/-! ## Effects of the other calls -/

section Calls
variable {vm code image : VoidPtr} {text : List ByteMem.Byte} {imageSz : SizeT} {heap : Grants}
  {team team' : UserProcessTeam} {process : UserProcess} {pid : ProcessID} {returns : Returns} {exitCode : Int}

theorem Crash_frame (process : UserProcess) : process.Crash.ProcessId = process.ProcessId ∧
    process.Crash.Affinity = process.Affinity := by
  unfold UserProcess.Crash
  split <;> exact ⟨rfl, rfl⟩

theorem Crash_stopped (process : UserProcess) : process.Crash.Status ≠ .kRunning := by
  unfold UserProcess.Crash
  split
  · exact nofun
  · assumption

theorem fill_frame {result : ProcessID} {filled : UserProcess}
    (put : fill vm pid text code image imageSz heap process = (result, filled)) :
    (filled.ProcessId = process.ProcessId ∨ filled.ProcessId = pid) ∧
      (filled.Affinity = process.Affinity ∨ filled.Affinity = .kStandard) := by
  obtain rfl := congrArg Prod.snd put
  unfold fill
  dsimp only
  split
  · exact ⟨.inl rfl, .inl rfl⟩
  · split
    · exact ⟨.inl (Crash_frame _).1, .inl (Crash_frame _).2⟩
    · split
      · exact ⟨.inr rfl, .inr rfl⟩
      · split
        · exact ⟨.inr (Crash_frame _).1, .inr (Crash_frame _).2⟩
        · exact ⟨.inr rfl, .inr rfl⟩

theorem Exit_own (taken : Exit exitCode returns pid team = some team') :
    (team'.mProcessList pid).Status = .kFinished ∧ (team'.mProcessList pid).ProcessId = 0 ∧
      (team'.mProcessList pid).Affinity = (team.mProcessList pid).Affinity := by
  obtain rfl := Exit_put taken
  simp only [UserProcessTeam.put, if_true, and_self]

theorem Remove_cases (taken : Remove returns pid team = some team') :
    team' = team ∨ (0 ≤ pid ∧ pid ≤ kCPSProcessLimitPerTeam ∧ Exit kErrorSuccess returns pid team = some team') := by
  unfold Remove at taken
  split at taken
  · exact .inl (Option.some.inj taken).symm
  rename_i inside
  obtain ⟨low, high⟩ := not_or.mp inside
  split at taken
  · exact .inl (Option.some.inj taken).symm
  · exact .inr ⟨not_lt.mp low, not_lt.mp high, taken⟩

end Calls

/-! ## Indexes -/

section Indexes
variable {s s' : Scheduler} {event : SchedEvent} {i : ProcessID}

/-- The call addresses the list of the team with index `i`; as a `SizeT`, a negative one is beyond any list. -/
def SchedEvent.Uses (event : SchedEvent) (s : Scheduler) (i : ProcessID) : Prop :=
  match event with
  | .spawn _ name code _ _ _ => ¬ Rejects name code s.team ∧ i = s.team.mProcessCur
  | .remove _ processId => ¬ (processId < 0 ∨ processId > kCPSProcessLimitPerTeam) ∧ i = processId
  | .exit .. => False
  | .run switched => 1 ≤ s.team.mProcessCur ∧ (i = nextIndex s.processIndex ∨
      CanBeScheduled (s.slot (nextIndex s.processIndex)) = true ∧ switched = true ∧
        i = (s.slot (nextIndex s.processIndex)).ProcessId)
  | .fault .. => False

def IndexSafe (event : SchedEvent) (s : Scheduler) : Prop :=
  ∀ i, event.Uses s i → 0 ≤ i ∧ i < kCPSProcessLimitPerTeam

/-- The count names a slot of the list, the copy of the current process is not removed, and `Run` does not
step to that copy or past it. -/
def InList (event : SchedEvent) (s : Scheduler) : Prop :=
  match event with
  | .spawn _ name code _ _ _ =>
      ¬ Rejects name code s.team → 0 ≤ s.team.mProcessCur ∧ s.team.mProcessCur < kCPSProcessLimitPerTeam
  | .remove _ processId => processId ≠ kCPSProcessLimitPerTeam
  | .exit .. => True
  | .run _ => 1 ≤ s.team.mProcessCur → s.processIndex ≠ 31 ∧ s.processIndex ≠ 32
  | .fault .. => True

structure Bounded (s : Scheduler) : Prop where
  cursor : s.processIndex < 32
  named : ∀ i < 32, 0 ≤ (s.slot i).ProcessId ∧ (s.slot i).ProcessId < kCPSProcessLimitPerTeam

theorem inList_iff {n : Nat} : (0 ≤ (n : ProcessID) ∧ (n : ProcessID) < kCPSProcessLimitPerTeam) ↔ n < 32 :=
  ⟨fun both => Int.ofNat_lt.mp both.2, fun below => ⟨Int.natCast_nonneg n, Int.ofNat_lt.mpr below⟩⟩

theorem zero_inList : 0 ≤ (0 : ProcessID) ∧ (0 : ProcessID) < kCPSProcessLimitPerTeam :=
  inList_iff.mpr (Nat.succ_pos 31)

theorem start_bounded (behind : UserProcess) : Bounded (.start behind) := by
  refine ⟨Nat.zero_lt_succ 31, fun i inside => ?_⟩
  rw [slot_team (by rw [kCurrentSlot, kCPSProcessLimitPerTeam]; omega)]
  exact zero_inList

theorem indexSafe_iff (bounded : Bounded s) : IndexSafe event s ↔ InList event s := by
  cases event with
  | exit => exact ⟨fun _ => trivial, fun _ _ uses => uses.elim⟩
  | fault => exact ⟨fun _ => trivial, fun _ _ uses => uses.elim⟩
  | spawn vm name code image imageSz heap =>
      constructor
      · exact fun safe accepted => safe _ ⟨accepted, rfl⟩
      · rintro inside i ⟨accepted, rfl⟩
        exact inside accepted
  | remove returns processId =>
      constructor
      · rintro safe rfl
        exact absurd (safe _ ⟨by decide, rfl⟩).2 (lt_irrefl _)
      · rintro inside i ⟨range, rfl⟩
        obtain ⟨low, high⟩ := not_or.mp range
        exact ⟨not_lt.mp low, lt_of_le_of_ne (not_lt.mp high) inside⟩
  | run switched =>
      have cursor := bounded.cursor
      have next : nextIndex s.processIndex = s.processIndex + 1 :=
        if_neg (by rw [kCPSProcessLimitPerTeam]; omega)
      constructor
      · intro safe peopled
        have below := inList_iff.mp (safe _ ⟨peopled, .inl rfl⟩)
        change s.processIndex ≠ 31 ∧ s.processIndex ≠ 32
        omega
      · rintro inside i ⟨peopled, used⟩
        have outside : s.processIndex ≠ 31 ∧ s.processIndex ≠ 32 := inside peopled
        rcases used with rfl | ⟨-, -, rfl⟩
        · apply inList_iff.mpr
          omega
        · apply bounded.named
          omega

/-- The count and what the slots say of themselves, before and after an event other than `Run`. -/
theorem named_kept (taken : EventStep event s s') (other : ∀ switched, event ≠ .run switched) :
    s'.processIndex = s.processIndex ∧ ∀ i < 32, (s'.slot i).ProcessId = (s.slot i).ProcessId ∨
      (s'.slot i).ProcessId = 0 ∨ (s'.slot i).ProcessId = s.team.mProcessCur ∧
        (i : ProcessID) = s.team.mProcessCur ∧ ∃ vm name code image imageSz heap,
          event = .spawn vm name code image imageSz heap ∧ ¬ Rejects name code s.team := by
  have limit : kCurrentSlot = 32 := rfl
  have exited {exitCode : Int} {returns : Returns} {pid : ProcessID} {team : UserProcessTeam}
      (exits : Exit exitCode returns pid s.team = some team) (i : Nat) (inside : i < 32) :
      (Scheduler.slot { s with team := team } i).ProcessId = (s.slot i).ProcessId ∨
        (Scheduler.slot { s with team := team } i).ProcessId = 0 := by
    rw [slot_team (by omega), slot_team (by omega)]
    by_cases here : (i : ProcessID) = pid
    · rw [here]
      exact .inr (Exit_own exits).2.1
    · exact .inl (by rw [(Exit_cases exits).2 i here])
  cases event with
  | run switched => exact absurd rfl (other switched)
  | fault handler rsp =>
      obtain rfl := Option.some.inj taken
      refine ⟨store_index, fun i inside => .inl ?_⟩
      rw [slot_store_other (by omega) (.inl le_rfl)]
  | exit exitCode returns slot =>
      obtain ⟨team, exits, rfl⟩ := Option.map_eq_some_iff.mp taken
      exact ⟨rfl, fun i inside => (exited exits i inside).imp_right .inl⟩
  | remove returns processId =>
      obtain ⟨team, removed, rfl⟩ := Option.map_eq_some_iff.mp taken
      refine ⟨rfl, fun i inside => ?_⟩
      rcases Remove_cases removed with rfl | ⟨-, -, exits⟩
      · exact .inl rfl
      · exact (exited exits i inside).imp_right .inl
  | spawn vm name code image imageSz heap =>
      obtain ⟨⟨pid, team⟩, spawned, rfl⟩ := Option.map_eq_some_iff.mp taken
      refine ⟨rfl, fun i inside => ?_⟩
      rcases Spawn_put spawned with ⟨-, -, rfl⟩ | ⟨accepted, -, text, filled, -, put, rfl⟩
      · exact .inl rfl
      · rw [slot_team (by omega), slot_team (by omega)]
        by_cases here : (i : ProcessID) = s.team.mProcessCur
        · have own := (fill_frame put).1
          rw [here, put_same]
          exact own.imp_right fun named => .inr ⟨named, rfl, _, _, _, _, _, _, rfl, accepted⟩
        · rw [put_other here]
          exact .inl rfl

theorem bounded_kept (bounded : Bounded s) (inside : InList event s) (taken : EventStep event s s') : Bounded s' := by
  cases event with
  | run switched =>
      obtain ⟨⟨result, next⟩, ran, rfl⟩ := Option.map_eq_some_iff.mp taken
      rcases Run_cases ran with ⟨-, rfl⟩ | ran
      · exact bounded
      · have outside : s.processIndex ≠ 31 ∧ s.processIndex ≠ 32 := inside ran.peopled
        have cursor := bounded.cursor
        have index : nextIndex s.processIndex = s.processIndex + 1 :=
          if_neg (by rw [kCPSProcessLimitPerTeam]; omega)
        have limit : kCurrentSlot = 32 := rfl
        constructor
        · rw [ran.cursor, index]
          omega
        · intro i small
          by_cases here : i = nextIndex s.processIndex
          · obtain ⟨_, _, _, _, same⟩ := ran.own (by omega)
            rw [here, same]
            exact bounded.named _ (here ▸ small)
          · rw [ran.others i (by omega) here (by omega)]
            exact bounded.named i small
  | _ =>
      obtain ⟨cursor, slots⟩ := named_kept taken nofun
      refine ⟨cursor ▸ bounded.cursor, fun i small => ?_⟩
      rcases slots i small with same | none | ⟨same, here, -⟩
      · rw [same]
        exact bounded.named i small
      · rw [none]
        exact zero_inList
      · rw [same, ← here]
        exact inList_iff.mpr small

/-- Every index used is one of the list exactly as long as no call takes the count, an identifier or the cursor
to the copy of the current process. -/
theorem indexes_safe_iff (behind : UserProcess) (events : List SchedEvent) :
    AllSteps EventStep IndexSafe (.start behind) events ↔ AllSteps EventStep InList (.start behind) events :=
  allSteps_iff (start_bounded behind) (fun _ _ => indexSafe_iff) fun _ _ _ => bounded_kept

end Indexes

/-! ## Windows -/

section Windows
variable {s s' : Scheduler} {event : SchedEvent} {events : List SchedEvent} {considered : List Nat} {c n : Nat}

/-- The indexes that the `Run` calls among the events consider. -/
def considers : List SchedEvent → Scheduler → Option (List Nat)
  | [], _ => some []
  | event :: events, s =>
      (event.step s).bind fun s' =>
        match event with
        | .run _ => (considers events s').map fun later => s'.processIndex :: later
        | _ => considers events s'

/-- The team has a process whenever `Run` is called. -/
def Peopled (event : SchedEvent) (s : Scheduler) : Prop := ∀ switched, event = .run switched → 1 ≤ s.team.mProcessCur

def cursors : Nat → Nat → List Nat
  | _, 0 => []
  | c, n + 1 => nextIndex c :: cursors (nextIndex c) n

theorem considers_cursors (peopled : AllSteps EventStep Peopled s events)
    (taken : considers events s = some considered) :
    considered = cursors s.processIndex considered.length := by
  induction events generalizing s considered with
  | nil =>
      obtain rfl := Option.some.inj taken
      rfl
  | cons event events ih =>
      obtain ⟨here, later⟩ := allSteps_cons.mp peopled
      obtain ⟨s', step, rest⟩ := Option.bind_eq_some_iff.mp taken
      cases event with
      | run switched =>
          obtain ⟨tail, below, rfl⟩ := Option.map_eq_some_iff.mp rest
          obtain ⟨⟨result, next⟩, ran, rfl⟩ := Option.map_eq_some_iff.mp step
          have count := here switched rfl
          rcases Run_cases ran with ⟨empty, -⟩ | ran
          · exact absurd count (not_le.mpr empty)
          · have indices := ih (later next step) below
            rw [ran.cursor] at indices
            simp only [List.length_cons, cursors, ran.cursor]
            rw [← indices]
      | _ =>
          have same := (named_kept step nofun).1
          rw [← same]
          exact ih (later s' step) rest

theorem cursors_reach {k : Nat} (inside : c + k ≤ 32) (few : k < n) : c + k + 1 ∈ cursors c n := by
  induction n generalizing c k with
  | zero => cases few
  | succ n ih =>
      have next : nextIndex c = c + 1 := if_neg (by rw [kCPSProcessLimitPerTeam]; omega)
      rw [cursors, next]
      cases k with
      | zero => simp
      | succ k =>
          have later := ih (c := c + 1) (k := k) (by omega) (by omega)
          rw [show c + (k + 1) + 1 = c + 1 + k + 1 by omega]
          exact List.mem_cons_of_mem _ later

/-- From an index at the list or its copy, thirty-two steps lead past the list. -/
theorem cursors_leave (bound : c ≤ 32) : ∃ i ∈ cursors c 32, 32 ≤ i := by
  by_cases last : c = 32
  · exact ⟨33, by simpa [last] using cursors_reach (c := 32) (k := 0) (n := 32) le_rfl (by omega), by omega⟩
  · exact ⟨c + (31 - c) + 1, cursors_reach (by omega) (by omega), by omega⟩

/-- A window of thirty-two `Run` calls takes every slot once exactly if it starts behind the last index. -/
theorem window_fair_iff (bound : s.processIndex ≤ 33) (peopled : AllSteps EventStep Peopled s events)
    (taken : considers events s = some considered) (window : considered.length = kCPSProcessLimitPerTeam) :
    considered.Perm (List.range kCPSProcessLimitPerTeam) ↔ s.processIndex = 33 := by
  have indexes := considers_cursors peopled taken
  rw [window] at indexes
  constructor
  · intro fair
    by_contra other
    obtain ⟨i, member, high⟩ := cursors_leave (c := s.processIndex) (by omega)
    rw [indexes] at fair
    exact absurd (List.mem_range.mp (fair.mem_iff.mp member)) (not_lt.mpr high)
  · intro start
    rw [indexes, start]
    exact .of_eq (by decide)

theorem considers_below (safe : AllSteps EventStep IndexSafe s events) (peopled : AllSteps EventStep Peopled s events)
    (taken : considers events s = some considered) : ∀ i ∈ considered, i < kCPSProcessLimitPerTeam := by
  induction events generalizing s considered with
  | nil =>
      obtain rfl := Option.some.inj taken
      simp
  | cons event events ih =>
      obtain ⟨here, later⟩ := allSteps_cons.mp peopled
      obtain ⟨used, others⟩ := allSteps_cons.mp safe
      obtain ⟨s', step, rest⟩ := Option.bind_eq_some_iff.mp taken
      cases event with
      | run switched =>
          obtain ⟨tail, below, rfl⟩ := Option.map_eq_some_iff.mp rest
          have count := here switched rfl
          intro i member
          rcases List.mem_cons.mp member with rfl | member
          · obtain ⟨⟨result, next⟩, ran, rfl⟩ := Option.map_eq_some_iff.mp step
            rcases Run_cases ran with ⟨empty, -⟩ | ran
            · exact absurd count (not_le.mpr empty)
            · rw [ran.cursor]
              exact inList_iff.mp (used _ ⟨count, .inl rfl⟩)
          · exact ih (others s' step) (later s' step) below i member
      | _ => exact ih (others s' step) (later s' step) rest

/-- Every window of thirty-two `Run` calls with a process in the team takes every slot once. -/
def FairWindows (start : Scheduler) (events : List SchedEvent) : Prop :=
  ∀ before window after, events = before ++ window ++ after → ∀ s, Run EventStep start before s →
    AllSteps EventStep Peopled s window → ∀ considered, considers window s = some considered →
      considered.length = kCPSProcessLimitPerTeam → considered.Perm (List.range kCPSProcessLimitPerTeam)

/-- The windows that do are those that start with the cursor behind its last index. -/
def FairFromEnd (start : Scheduler) (events : List SchedEvent) : Prop :=
  ∀ before window after, events = before ++ window ++ after → ∀ s, Run EventStep start before s →
    AllSteps EventStep Peopled s window → ∀ considered, considers window s = some considered →
      considered.length = kCPSProcessLimitPerTeam →
      (considered.Perm (List.range kCPSProcessLimitPerTeam) ↔ s.processIndex = 33)

theorem cursor_bound (behind : UserProcess) (run : Run EventStep (.start behind) events s) : s.processIndex ≤ 33 := by
  have kept (event : SchedEvent) (s s' : Scheduler) (bound : s.processIndex ≤ 33) (step : EventStep event s s') :
      s'.processIndex ≤ 33 := by
    cases event with
    | run switched =>
        obtain ⟨⟨result, next⟩, ran, rfl⟩ := Option.map_eq_some_iff.mp step
        rcases Run_cases ran with ⟨-, rfl⟩ | ran
        · exact bound
        · rw [ran.cursor]
          exact nextIndex_le s.processIndex
    | _ =>
        rw [(named_kept step nofun).1]
        exact bound
  exact run.invariant kept (Nat.zero_le 33)

/-- A run uses indexes of the list only, with fair windows, exactly as long as no call takes the count, an
identifier or the cursor to the copy of the current process. -/
theorem round_robin_iff (behind : UserProcess) (events : List SchedEvent) :
    ((AllSteps EventStep IndexSafe (.start behind) events ∧ FairWindows (.start behind) events) ↔
      AllSteps EventStep InList (.start behind) events) ∧ FairFromEnd (.start behind) events := by
  refine ⟨⟨fun both => (indexes_safe_iff behind events).mp both.1, fun inside => ?_⟩, ?_⟩
  · have safe := (indexes_safe_iff behind events).mpr inside
    refine ⟨safe, ?_⟩
    rintro before window after rfl s run peopled considered taken length
    have bounded : Bounded s := (run.guarded inside.front.front).invariant
      (fun _ _ _ bounded step => bounded_kept bounded step.1 step.2) (start_bounded behind)
    have cursor := bounded.cursor
    have below := considers_below (safe.front.later run) peopled taken
    rw [considers_cursors peopled taken, length] at below
    obtain ⟨i, member, high⟩ := cursors_leave (c := s.processIndex) (by omega)
    exact absurd (below i member) (not_lt.mpr high)
  · rintro before window after rfl s run peopled considered taken length
    exact window_fair_iff (cursor_bound behind run) peopled taken length

def roundCalls : List SchedEvent :=
  .spawn 0 (some [97]) 1 0 0 ⟨true, true⟩ :: List.replicate 31 (.run false)

theorem round_copy : ∃ s, Run EventStep (.start zeroProcess) roundCalls s ∧
    s.processIndex = 31 ∧ 1 ≤ s.team.mProcessCur := by
  have computed : (roundCalls.foldlM (fun s event => SchedEvent.step event s) (Scheduler.start zeroProcess)).map
      (fun s => (s.processIndex, s.team.mProcessCur)) = some (31, 1) := by
    decide
  obtain ⟨s, taken, values⟩ := Option.map_eq_some_iff.mp computed
  obtain ⟨index, count⟩ := Prod.ext_iff.mp values
  exact ⟨s, run_iff_foldlM.mpr taken, index, count.ge⟩

/-- The thirty-second `Run` considers the copy of the current process. -/
theorem copy_considered : ¬ ∀ behind events,
    AllSteps EventStep IndexSafe (.start behind) events ∧ FairWindows (.start behind) events := by
  intro every
  obtain ⟨s, run, index, peopled⟩ := round_copy
  have safe := (every zeroProcess (roundCalls ++ [.run false])).1 roundCalls (.run false) [] rfl s run
  have below := (safe _ ⟨peopled, .inl rfl⟩).2
  rw [index] at below
  revert below
  decide

end Windows

end Ne.Kernel.Sched
