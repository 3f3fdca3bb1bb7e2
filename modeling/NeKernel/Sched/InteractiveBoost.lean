import NeKernel.Sched.CrashedSlots
import NeKernel.Sched.TimeAccounting

/-!
# The interactive boost

Two runs of the scheduler from states that differ in how long one process has slept. The boost goes to
`PTime`, which has to run out before the process is switched to again.
-/

namespace Ne.Kernel.Sched

/-- The calls of `Run` that switch to the process in slot `i`, numbered from `n` on. Beside the scheduler a run has
what `Switch` answers in each call. -/
def switchCalls (i : ℕ) : ℕ → List Bool → Scheduler → List ℕ
  | _, [], _ => []
  | n, switched :: answers, s =>
      match s.Run switched with
      | none => []
      | some (_, s') =>
          let later := switchCalls i (n + 1) answers s'
          if switched ∧ (SchedEvent.run switched).hands s = some i then n :: later else later

/-- What happens for the `k`-th time at some call in the first run has then happened in the second. -/
def NoLater (first second : List ℕ) : Prop :=
  ∀ k n : ℕ, first[k]? = some n → ∃ m ≤ n, second[k]? = some m

/-- The state in which the process in slot `i` has slept for another time. -/
def Scheduler.slept (s : Scheduler) (i : ℕ) (sleep : BitVec 64) : Scheduler :=
  s.store i { s.slot i with STime := sleep }

/-- With the longer sleep the process is switched to no later, in every run. -/
def BoostMonotone (s : Scheduler) (i : ℕ) (sleep : BitVec 64) : Prop :=
  ∀ answers, NoLater (switchCalls i 0 answers s) (switchCalls i 0 answers (s.slept i sleep))

/-- The longer sleep is not worth more of a boost, or the boost does not decide when the process is scheduled. -/
def BoostIdle (s : Scheduler) (i : ℕ) (sleep : BitVec 64) : Prop :=
  s.team.mProcessCur < 1 ∨ boost (s.slot i).STime = boost sleep ∨ (s.slot i).Affinity = .kUltraHigh ∨ Stopped (s.slot i)

/-! ## Runs that stay alike -/

/-- The processes are scheduled alike from now on. -/
inductive Alike (p : UserProcess) : UserProcess → Prop
  | same : Alike p p
  | ultra {q : UserProcess} (timed : Timed p q) (ultra : p.Affinity = .kUltraHigh) : Alike p q
  | stopped {q : UserProcess} (timed : Timed p q) (stopped : Stopped p) : Alike p q
  | slept (sleep : BitVec 64) (boosted : boost p.STime = boost sleep) (awake : p.Status ≠ .kFrozen) :
      Alike p { p with STime := sleep }

section Pairs
variable {p q r : UserProcess}

theorem Timed.symm (timed : Timed p q) : Timed q p := by
  obtain ⟨_, _, _, _, rfl⟩ := timed
  exact ⟨_, _, _, _, rfl⟩

theorem Timed.affinity (timed : Timed p q) : q.Affinity = p.Affinity := by
  obtain ⟨_, _, _, _, rfl⟩ := timed
  rfl

theorem Timed.status (timed : Timed p q) : q.Status = p.Status := by
  obtain ⟨_, _, _, _, rfl⟩ := timed
  rfl

theorem Timed.frame (timed : Timed p q) : q.StackFrame = p.StackFrame := by
  obtain ⟨_, _, _, _, rfl⟩ := timed
  rfl

theorem timed_ext (timed : Timed p q) (times : q.times = p.times) : q = p := by
  obtain ⟨_, _, _, _, rfl⟩ := timed
  have used := congrFun times .PTime
  have ran := congrFun times .RTime
  have counted := congrFun times .UTime
  have slept := congrFun times .STime
  simp only [UserProcess.times] at used ran counted slept
  subst used ran counted slept
  rfl

theorem ultra_scheduled (ultra : p.Affinity = .kUltraHigh) : CanBeScheduled p = true := if_pos ultra

theorem Alike.timed (alike : Alike p q) : Timed p q := by
  cases alike with
  | same => exact .refl p
  | ultra timed => exact timed
  | stopped timed => exact timed
  | slept => exact ⟨_, _, _, _, rfl⟩

theorem Alike.scheduled (alike : Alike p q) : CanBeScheduled q = CanBeScheduled p := by
  cases alike with
  | same => rfl
  | ultra timed ultra => rw [ultra_scheduled ultra, ultra_scheduled (timed.affinity.trans ultra)]
  | stopped timed stopped => rw [stopped.waits, stopped q timed]
  | slept => rfl

theorem beforeSwitch_slept {sleep : BitVec 64} (boosted : boost p.STime = boost sleep) :
    beforeSwitch { p with STime := sleep } = beforeSwitch p := by
  have timed : Timed (beforeSwitch p) (beforeSwitch { p with STime := sleep }) :=
    (beforeSwitch_timed p).symm.trans (.trans ⟨_, _, _, _, rfl⟩ (beforeSwitch_timed { p with STime := sleep }))
  have cleared (p : UserProcess) : (beforeSwitch p).STime = 0 := by
    refine (congrFun (beforeSwitch_times p) .STime).trans ?_
    unfold beforeUpdates
    by_cases slept : p.STime > 0
    · rw [if_pos slept]
      split <;> rfl
    · have awake : p.STime = 0 := by bv_omega
      rw [if_neg slept]
      split <;> exact awake
  have used (p : UserProcess) : (beforeSwitch p).UTime = if p.UTime < p.PTime then p.UTime + 1 else p.UTime := by
    refine (congrFun (beforeSwitch_times p) .UTime).trans ?_
    unfold beforeUpdates
    split <;> split <;> rfl
  refine timed_ext timed (funext fun clock => ?_)
  cases clock
  · change (beforeSwitch _).PTime = (beforeSwitch p).PTime
    rw [before_PTime, before_PTime, boosted]
  · change (beforeSwitch _).RTime = (beforeSwitch p).RTime
    rw [before_RTime, before_RTime]
  · change (beforeSwitch _).UTime = (beforeSwitch p).UTime
    rw [used, used]
  · change (beforeSwitch _).STime = (beforeSwitch p).STime
    rw [cleared, cleared]

theorem Alike.before (alike : Alike p q) (scheduled : CanBeScheduled p = true) :
    Alike (beforeSwitch p) (beforeSwitch q) := by
  cases alike with
  | same => exact .same
  | ultra timed ultra =>
      exact .ultra ((beforeSwitch_timed p).symm.trans (timed.trans (beforeSwitch_timed q)))
        ((before_Affinity p).trans ultra)
  | stopped timed stopped => cases scheduled.symm.trans stopped.waits
  | slept sleep boosted => rw [beforeSwitch_slept boosted]; exact .same

theorem Alike.after (alike : Alike p q) (scheduled : CanBeScheduled p = true) :
    Alike (afterSwitch (beforeSwitch p)) (afterSwitch (beforeSwitch q)) := by
  have whole (r : UserProcess) : Timed r (afterSwitch (beforeSwitch r)) :=
    (beforeSwitch_timed r).trans (afterSwitch_timed (beforeSwitch r))
  cases alike with
  | same => exact .same
  | ultra timed ultra =>
      exact .ultra ((whole p).symm.trans (timed.trans (whole q))) ((whole p).affinity.trans ultra)
  | stopped timed stopped => cases scheduled.symm.trans stopped.waits
  | slept sleep boosted => rw [beforeSwitch_slept boosted]; exact .same

theorem Alike.passed (alike : Alike p q) : Alike (passOver p) (passOver q) := by
  cases alike with
  | same => exact .same
  | ultra timed ultra =>
      exact .ultra ((passOver_timed p).symm.trans (timed.trans (passOver_timed q)))
        ((passOver_timed p).affinity.trans ultra)
  | stopped timed stopped =>
      exact .stopped ((passOver_timed p).symm.trans (timed.trans (passOver_timed q))) (stopped.timed (passOver_timed p))
  | slept sleep boosted awake =>
      have here (r : UserProcess) (awake : r.Status ≠ .kFrozen) :
          passOver r = { r with RTime := r.RTime + 1, PTime := r.PTime - 1 } := by
        unfold passOver
        rw [if_neg awake]
      rw [here p awake, here { p with STime := sleep } awake]
      exact .slept sleep boosted awake

end Pairs

/-- The runs are alike in every slot that `Run` can come to. -/
structure Lockstep (s t : Scheduler) : Prop where
  index : t.processIndex = s.processIndex
  count : t.team.mProcessCur = s.team.mProcessCur
  slots : ∀ i ≤ kCurrentSlot + 1, Alike (s.slot i) (t.slot i)

section Locksteps
variable {s t : Scheduler} {p q : UserProcess} {i n : ℕ} {switched : Bool} {answers : List Bool}

theorem Lockstep.store (lockstep : Lockstep s t) (alike : Alike p q) (inside : i ≤ kCurrentSlot + 1) :
    Lockstep (s.store i p) (t.store i q) := by
  constructor
  · rw [store_index, store_index, lockstep.index]
  · rw [store_count, store_count, lockstep.count]
  · intro j bound
    by_cases here : j = i
    · rw [here, slot_store_same, slot_store_same]
      exact alike
    · have near : i ≤ kCurrentSlot ∨ j ≤ kCurrentSlot := by omega
      rw [slot_store_other here near, slot_store_other here near]
      exact lockstep.slots j bound

theorem Lockstep.turned (lockstep : Lockstep s t) : Lockstep s.turned t.turned :=
  ⟨congrArg nextIndex lockstep.index, lockstep.count, lockstep.slots⟩

theorem Lockstep.next (lockstep : Lockstep s t) : Alike s.next t.next := by
  unfold Scheduler.next
  rw [lockstep.index]
  exact lockstep.slots _ (nextIndex_le _)

theorem Lockstep.hands (lockstep : Lockstep s t) :
    (SchedEvent.run switched).hands t = (SchedEvent.run switched).hands s := by
  have scheduled := lockstep.next.scheduled
  unfold Scheduler.next at scheduled
  unfold SchedEvent.hands
  rw [lockstep.count, scheduled, lockstep.index]

theorem Lockstep.run (lockstep : Lockstep s t) :
    (s.Run switched = none ∧ t.Run switched = none) ∨
    ∃ result s' t', s.Run switched = some (result, s') ∧ t.Run switched = some (result, t') ∧ Lockstep s' t' := by
  have near := nextIndex_le s.processIndex
  have alike := lockstep.next
  by_cases empty : s.team.mProcessCur < 1
  · exact .inr ⟨0, s, t, Run_empty empty, Run_empty (lockstep.count ▸ empty), lockstep⟩
  have peopled : 1 ≤ s.team.mProcessCur := not_lt.mp empty
  have peopled' : 1 ≤ t.team.mProcessCur := lockstep.count ▸ peopled
  cases scheduled : CanBeScheduled s.next with
  | false =>
      refine .inr ⟨_, _, _, Run_waits peopled scheduled, ?_, lockstep.turned.store alike.passed near⟩
      rw [Run_waits peopled' (alike.scheduled.trans scheduled), lockstep.index]
  | true =>
      rw [Run_scheduled peopled scheduled, Run_scheduled peopled' (alike.scheduled.trans scheduled),
        alike.timed.frame, lockstep.index]
      split
      · exact .inl ⟨rfl, rfl⟩
      have handed : Lockstep s.handed t.handed := by
        unfold Scheduler.handed
        rw [lockstep.index]
        exact (lockstep.turned.store (alike.before scheduled) near).store (alike.before scheduled) (Nat.le_succ _)
      refine .inr ⟨_, _, _, rfl, rfl, ?_⟩
      cases switched with
      | false => exact handed
      | true => exact handed.store (alike.after scheduled) near

theorem Lockstep.switchCalls (lockstep : Lockstep s t) : switchCalls i n answers t = switchCalls i n answers s := by
  induction answers generalizing s t n with
  | nil => rfl
  | cons switched answers ih =>
      unfold Sched.switchCalls
      rcases @Lockstep.run _ _ switched lockstep with ⟨first, second⟩ | ⟨result, s', t', first, second, later⟩
      · rw [first, second]
      · rw [first, second]
        dsimp only
        rw [lockstep.hands, ih later]

/-- States with the same schedule, before and after `sleep` is taken for what the process has slept. -/
theorem slept_lockstep {sleep : BitVec 64} (inside : i < kCPSProcessLimitPerTeam)
    (alike : Alike (s.slot i) { s.slot i with STime := sleep }) : Lockstep s (s.slept i sleep) := by
  refine ⟨store_index, store_count, fun j bound => ?_⟩
  by_cases here : j = i
  · rw [here, Scheduler.slept, slot_store_same]
    exact alike
  · rw [Scheduler.slept, slot_store_other here (.inl inside.le)]
    exact .same

end Locksteps

theorem empty_switchCalls {s : Scheduler} (empty : s.team.mProcessCur < 1) (i n : ℕ) (answers : List Bool) :
    switchCalls i n answers s = [] := by
  induction answers generalizing n with
  | nil => rfl
  | cons switched answers ih =>
      have none : ¬ (switched = true ∧ (SchedEvent.run switched).hands s = some i) := by
        rintro ⟨-, handed⟩
        exact absurd (hands_cases handed).1 (not_le.mpr empty)
      unfold switchCalls
      rw [Run_empty empty]
      exact (if_neg none).trans (ih (n + 1))

theorem NoLater.refl (calls : List ℕ) : NoLater calls calls := fun _ n at_k => ⟨n, le_rfl, at_k⟩

theorem boostMonotone_of_idle {s : Scheduler} {i : ℕ} {sleep : BitVec 64} (inside : i < kCPSProcessLimitPerTeam)
    (idle : BoostIdle s i sleep) : BoostMonotone s i sleep := by
  intro answers
  rcases idle with empty | boosted | ultra | stopped
  · rw [empty_switchCalls empty]
    exact fun k n none => absurd none (by simp)
  all_goals
    rw [Lockstep.switchCalls (slept_lockstep inside ?_)]
    · exact .refl _
  · by_cases frozen : (s.slot i).Status = .kFrozen
    · by_cases ultra : (s.slot i).Affinity = .kUltraHigh
      · exact .ultra ⟨_, _, _, _, rfl⟩ ultra
      · exact .stopped ⟨_, _, _, _, rfl⟩ (stopped_of_status ultra (by rw [frozen]; exact nofun))
    · exact .slept sleep boosted frozen
  · exact .ultra ⟨_, _, _, _, rfl⟩ ultra
  · exact .stopped ⟨_, _, _, _, rfl⟩ stopped

/-! ## Runs without a switch -/

/-- No process that can be scheduled is without a stack frame, so that `Run` never stops the machine. -/
def Framed (s : Scheduler) : Prop :=
  ∀ i ≤ kCurrentSlot + 1, (s.slot i).StackFrame.isSome = true ∨ Stopped (s.slot i)

/-- What `Run` makes of the process it comes to when no core takes it. -/
def visit (p : UserProcess) : UserProcess := if CanBeScheduled p then beforeSwitch p else passOver p

section Waiting
variable {s : Scheduler} {p q : UserProcess} {i n c m : ℕ} {switched : Bool} {answers : List Bool}

theorem framed_timed (framed : p.StackFrame.isSome = true ∨ Stopped p) (timed : Timed p q) :
    q.StackFrame.isSome = true ∨ Stopped q :=
  framed.imp (fun frame => timed.frame ▸ frame) fun stopped => stopped.timed timed

theorem Framed.store (framed : Framed s) (own : p.StackFrame.isSome = true ∨ Stopped p)
    (inside : i ≤ kCurrentSlot + 1) : Framed (s.store i p) := by
  intro j bound
  by_cases here : j = i
  · rw [here, slot_store_same]
    exact own
  · rw [slot_store_other here (by omega)]
    exact framed j bound

theorem Framed.next (framed : Framed s) (scheduled : CanBeScheduled s.next = true) :
    s.next.StackFrame.isSome = true := by
  refine (framed _ (nextIndex_le _)).resolve_right fun stopped => ?_
  cases scheduled.symm.trans stopped.waits

/-- One call in which no core takes the process. -/
theorem waiting_run (framed : Framed s) (peopled : 1 ≤ s.team.mProcessCur) :
    ∃ result s', s.Run false = some (result, s') ∧ s'.processIndex = nextIndex s.processIndex ∧
      1 ≤ s'.team.mProcessCur ∧ Framed s' ∧ ∀ i < kCPSProcessLimitPerTeam,
        s'.slot i = if nextIndex s.processIndex = i then visit (s.slot i) else s.slot i := by
  have near := nextIndex_le s.processIndex
  have own := framed _ near
  have turned : Framed s.turned := framed
  cases scheduled : CanBeScheduled s.next with
  | false =>
      refine ⟨_, _, Run_waits peopled scheduled, by rw [store_index]; rfl, by rw [store_count]; exact peopled,
        turned.store (framed_timed own (passOver_timed s.next)) near, fun i inside => ?_⟩
      by_cases here : nextIndex s.processIndex = i
      · rw [if_pos here, ← here, slot_store_same]
        exact (if_neg (Bool.eq_false_iff.mp scheduled)).symm
      · rw [if_neg here, slot_store_other (Ne.symm here) (.inr inside.le)]
        rfl
  | true =>
      have frame := framed.next scheduled
      have kept := framed_timed own (beforeSwitch_timed s.next)
      have ran : s.Run false = some (nextIndex s.processIndex, s.handed) := by
        rw [Run_scheduled peopled scheduled, if_neg (by simpa using Option.isSome_iff_ne_none.mp frame)]
        rfl
      refine ⟨_, _, ran, by rw [Scheduler.handed, store_index, store_index]; rfl,
        by rw [Scheduler.handed, store_count, store_count]; exact peopled,
        (turned.store kept near).store kept (Nat.le_succ _), fun i inside => ?_⟩
      have apart : i ≠ kCurrentSlot := inside.ne
      rw [Scheduler.handed, slot_store_other apart (.inl le_rfl)]
      by_cases here : nextIndex s.processIndex = i
      · rw [if_pos here, ← here, slot_store_same]
        exact (if_pos scheduled).symm
      · rw [if_neg here, slot_store_other (Ne.symm here) (.inr inside.le)]
        rfl

/-- Any number of them: the process in a slot is visited as often as the cursor comes to it. -/
theorem waiting_runs (framed : Framed s) (peopled : 1 ≤ s.team.mProcessCur) (m : ℕ) :
    ∃ s', s'.processIndex = nextIndex^[m] s.processIndex ∧ 1 ≤ s'.team.mProcessCur ∧ Framed s' ∧
      (∀ i < kCPSProcessLimitPerTeam, s'.slot i = visit^[(cursors s.processIndex m).count i] (s.slot i)) ∧
      ∀ i n answers, switchCalls i n (List.replicate m false ++ answers) s = switchCalls i (n + m) answers s' := by
  induction m generalizing s with
  | zero => exact ⟨s, rfl, peopled, framed, fun i _ => rfl, fun i n answers => rfl⟩
  | succ m ih =>
      obtain ⟨result, first, ran, index, peopled', framed', slots⟩ := waiting_run framed peopled
      obtain ⟨last, index', peopled'', framed'', slots', calls⟩ := ih framed' peopled'
      refine ⟨last, ?_, peopled'', framed'', fun i inside => ?_, fun i n answers => ?_⟩
      · rw [index', index, Function.iterate_succ_apply]
      · rw [slots' i inside, slots i inside, index, cursors, List.count_cons]
        by_cases here : nextIndex s.processIndex = i
        · rw [if_pos here, if_pos (beq_iff_eq.mpr here), Function.iterate_succ_apply]
        · rw [if_neg here, if_neg (fun same => here (beq_iff_eq.mp same))]
          rfl
      · rw [List.replicate_succ, List.cons_append, switchCalls, ran]
        dsimp only
        rw [if_neg (fun both => Bool.false_ne_true both.1), calls, Nat.add_assoc, Nat.add_comm 1 m]

end Waiting

/-! ## Where the cursor gets -/

section Cursor
variable {i c : ℕ}

theorem cursors_append (c m k : ℕ) : cursors c (m + k) = cursors c m ++ cursors (nextIndex^[m] c) k := by
  induction m generalizing c with
  | zero => simp [cursors]
  | succ m ih =>
      rw [Nat.add_right_comm, cursors, ih, cursors, Function.iterate_succ_apply, List.cons_append]

/-- The cursor comes to `i` next, some calls later. -/
def Comes (i c : ℕ) : Prop := ∃ m, i ∉ cursors c m ∧ nextIndex (nextIndex^[m] c) = i

theorem Comes.before (other : nextIndex c ≠ i) (later : Comes i (nextIndex c)) : Comes i c := by
  obtain ⟨m, absent, next⟩ := later
  refine ⟨m + 1, ?_, by rw [Function.iterate_succ_apply]; exact next⟩
  rw [cursors, List.mem_cons, not_or]
  exact ⟨Ne.symm other, absent⟩

theorem comes_next (here : nextIndex c = i) : Comes i c := ⟨0, by simp [cursors], here⟩

theorem nextIndex_low (low : c ≤ 32) : nextIndex c = c + 1 := if_neg (Nat.not_lt.mpr low)

theorem comes_above (inside : i ≤ 33) (below : c < i) : Comes i c := by
  induction gap : i - 1 - c generalizing c with
  | zero => exact comes_next (by rw [nextIndex_low (by omega)]; omega)
  | succ gap ih =>
      have next : nextIndex c = c + 1 := nextIndex_low (by omega)
      exact .before (by omega) (next ▸ ih (by omega) (by omega))

theorem comes (inside : i ≤ 33) (c : ℕ) : Comes i c := by
  by_cases last : c > 32
  · have next : nextIndex c = 0 := if_pos last
    by_cases zero : i = 0
    · exact comes_next (next.trans zero.symm)
    · exact .before (by omega) (next ▸ comes_above inside (Nat.pos_of_ne_zero zero))
  by_cases below : c < i
  · exact comes_above inside below
  induction gap : 32 - c generalizing c with
  | zero =>
      have next : nextIndex c = 33 := (nextIndex_low (by omega)).trans (by omega)
      have beyond : nextIndex 33 = 0 := rfl
      by_cases here : i = 33
      · exact comes_next (next.trans here.symm)
      refine .before (by omega) (next ▸ ?_)
      by_cases zero : i = 0
      · exact comes_next (beyond.trans zero.symm)
      · exact .before (by omega) (beyond ▸ comes_above inside (Nat.pos_of_ne_zero zero))
  | succ gap ih =>
      have next : nextIndex c = c + 1 := nextIndex_low (by omega)
      exact .before (by omega) (next ▸ ih (c + 1) (by omega) (by omega) (by omega))

theorem comes_again (inside : i ≤ 33) (c visits : ℕ) :
    ∃ m, (cursors c m).count i = visits ∧ nextIndex (nextIndex^[m] c) = i := by
  induction visits with
  | zero =>
      obtain ⟨m, absent, next⟩ := comes inside c
      exact ⟨m, List.count_eq_zero.mpr absent, next⟩
  | succ visits ih =>
      obtain ⟨m, count, next⟩ := ih
      obtain ⟨k, absent, later⟩ := comes inside (nextIndex^[m + 1] c)
      refine ⟨m + 1 + k, ?_, by rw [Nat.add_comm, Function.iterate_add_apply]; exact later⟩
      have visited : cursors (nextIndex^[m] c) 1 = [i] := by rw [cursors, next]; rfl
      rw [cursors_append, cursors_append, visited, List.count_append, List.count_append, count,
        List.count_eq_zero.mpr absent]
      simp

end Cursor

/-! ## How long the boost delays -/

section Countdown
variable {p q : UserProcess} {n : ℕ}

theorem waits_of_time (ordinary : p.Affinity ≠ .kUltraHigh) (left : p.PTime ≠ 0) : CanBeScheduled p = false :=
  Bool.eq_false_iff.mpr fun scheduled => left (scheduled_PTime scheduled ordinary)

theorem scheduled_of_none (ordinary : p.Affinity ≠ .kUltraHigh) (able : ¬ Stopped p) (timed : Timed p q)
    (none : q.PTime = 0) : CanBeScheduled q = true := by
  by_contra waits
  refine able fun later times => ?_
  by_contra scheduled
  rw [Bool.not_eq_false] at scheduled
  have zero : later.PTime = 0 := scheduled_PTime scheduled (times.affinity ▸ ordinary)
  obtain ⟨_, _, _, _, rfl⟩ := timed.symm.trans times
  have same : q.PTime = _ := none.trans zero.symm
  refine waits ?_
  rw [← scheduled]
  unfold CanBeScheduled
  dsimp only at zero ⊢
  rw [none, zero]

theorem awake_of_able (ordinary : p.Affinity ≠ .kUltraHigh) (able : ¬ Stopped p) : p.Status ≠ .kFrozen := by
  intro frozen
  exact able (stopped_of_status ordinary (by rw [frozen]; exact nofun))

/-- As long as there is time left each visit takes one unit of it. -/
theorem countdown (ordinary : p.Affinity ≠ .kUltraHigh) (awake : p.Status ≠ .kFrozen) (left : n ≤ p.PTime.toNat) :
    (visit^[n] p).PTime.toNat = p.PTime.toNat - n ∧ (visit^[n] p).STime = p.STime ∧ Timed p (visit^[n] p) := by
  induction n with
  | zero => exact ⟨rfl, rfl, .refl p⟩
  | succ n ih =>
      obtain ⟨time, sleep, timed⟩ := ih (by omega)
      rw [Function.iterate_succ_apply']
      generalize visit^[n] p = q at *
      have some : q.PTime ≠ 0 := by
        intro none
        rw [none] at time
        have zero : 0 = p.PTime.toNat - n := time
        omega
      have passed : visit q = passOver q :=
        if_neg (Bool.eq_false_iff.mp (waits_of_time (timed.affinity ▸ ordinary) some))
      have stays : passOver q = { q with RTime := q.RTime + 1, PTime := q.PTime - 1 } := by
        unfold passOver
        rw [if_neg (timed.status ▸ awake)]
      rw [passed]
      refine ⟨?_, by rw [stays]; exact sleep, timed.trans (passOver_timed q)⟩
      rw [stays]
      change (q.PTime - 1).toNat = _
      bv_omega

/-- The visits up to the first one that schedules the process, that one, and some more. -/
theorem boosted_countdown (ordinary : p.Affinity ≠ .kUltraHigh) (able : ¬ Stopped p)
    (left : n ≤ (boost p.STime).toNat) :
    (visit^[n + (1 + p.PTime.toNat)] p).PTime.toNat = (boost p.STime).toNat - n ∧
      Timed p (visit^[n + (1 + p.PTime.toNat)] p) := by
  have awake := awake_of_able ordinary able
  obtain ⟨time, sleep, timed⟩ := countdown ordinary awake (le_refl p.PTime.toNat)
  rw [Function.iterate_add_apply, Function.iterate_add_apply]
  generalize visit^[p.PTime.toNat] p = q at *
  have none : q.PTime = 0 := by bv_omega
  have scheduled := scheduled_of_none ordinary able timed none
  have visited : visit q = beforeSwitch q := if_pos scheduled
  have boosted : (beforeSwitch q).PTime = boost p.STime := by
    rw [before_PTime, none, sleep]
    exact BitVec.zero_add _
  change (visit^[n] (visit q)).PTime.toNat = _ ∧ Timed p (visit^[n] (visit q))
  rw [visited]
  have same := timed.trans (beforeSwitch_timed q)
  obtain ⟨last, -, timed'⟩ := @countdown (beforeSwitch q) n (same.affinity ▸ ordinary) (same.status ▸ awake)
    (by rw [boosted]; exact left)
  exact ⟨by rw [last, boosted], same.trans timed'⟩

end Countdown

theorem boost_mono {a b : BitVec 64} (le : a ≤ b) : boost a ≤ boost b := by
  have quotient : a / 10 ≤ b / 10 := by
    rw [BitVec.le_def, BitVec.toNat_udiv, BitVec.toNat_udiv]
    exact Nat.div_le_div_right (BitVec.le_def.mp le)
  unfold boost
  split <;> split <;> bv_omega

theorem last_call {s : Scheduler} {i n : ℕ} (framed : Framed s) (peopled : 1 ≤ s.team.mProcessCur)
    (next : nextIndex s.processIndex = i) :
    switchCalls i n [true] s = if CanBeScheduled (s.slot i) then [n] else [] := by
  subst next
  change _ = if CanBeScheduled s.next then [n] else []
  unfold switchCalls
  cases scheduled : CanBeScheduled s.next with
  | false =>
      have none : ¬ (SchedEvent.run true).hands s = some (nextIndex s.processIndex) := by
        intro handed
        cases (hands_cases handed).2.2.symm.trans scheduled
      rw [Run_waits peopled scheduled]
      exact if_neg fun both => none both.2
  | true =>
      have frame := framed.next scheduled
      have handed : (SchedEvent.run true).hands s = some (nextIndex s.processIndex) := if_pos ⟨peopled, scheduled⟩
      rw [Run_scheduled peopled scheduled, if_neg (by simpa using Option.isSome_iff_ne_none.mp frame)]
      exact if_pos ⟨rfl, handed⟩

/-- The boost that is worth more makes the process miss the turn at which it was switched to without it. -/
theorem boost_delays {s : Scheduler} {i : ℕ} {sleep : BitVec 64} (inside : i < kCPSProcessLimitPerTeam)
    (longer : (s.slot i).STime ≤ sleep) (framed : Framed s) (decides : ¬ BoostIdle s i sleep) :
    ¬ BoostMonotone s i sleep := by
  unfold BoostIdle at decides
  obtain ⟨peopled, differ, ordinary, able⟩ := by simpa only [not_or] using decides
  have more : (boost (s.slot i).STime).toNat < (boost sleep).toNat := by
    have le := boost_mono longer
    bv_omega
  have peopled : 1 ≤ s.team.mProcessCur := not_lt.mp peopled
  have near : i ≤ kCurrentSlot + 1 := inside.le.trans (Nat.le_succ _)
  have here : (s.slept i sleep).slot i = { s.slot i with STime := sleep } := slot_store_same
  have timed : Timed (s.slot i) { s.slot i with STime := sleep } := ⟨_, _, _, _, rfl⟩
  have able' : ¬ Stopped { s.slot i with STime := sleep } := fun stopped => able (stopped.timed timed.symm)
  have framed' : Framed (s.slept i sleep) := framed.store (framed_timed (framed i near) timed) near
  have peopled' : 1 ≤ (s.slept i sleep).team.mProcessCur := by
    rw [Scheduler.slept, store_count]
    exact peopled
  have start : (s.slept i sleep).processIndex = s.processIndex := store_index
  obtain ⟨m, count, next⟩ := @comes_again i near s.processIndex
    ((boost (s.slot i).STime).toNat + (1 + (s.slot i).PTime.toNat))
  obtain ⟨first, index, one, frames, slots, calls⟩ := waiting_runs framed peopled m
  obtain ⟨second, index', one', frames', slots', calls'⟩ := waiting_runs framed' peopled' m
  rw [start] at index' slots'
  -- without the longer sleep the time has run out, with it some is left
  have ready : CanBeScheduled (first.slot i) = true := by
    obtain ⟨time, times⟩ := boosted_countdown ordinary able (le_refl (boost (s.slot i).STime).toNat)
    rw [slots i inside, count]
    exact scheduled_of_none ordinary able times (by bv_omega)
  have waits : CanBeScheduled (second.slot i) = false := by
    obtain ⟨time, times⟩ := @boosted_countdown { s.slot i with STime := sleep } _ ordinary able' more.le
    rw [slots' i inside, count, here]
    refine waits_of_time (times.affinity.trans_ne ordinary) fun none => ?_
    rw [none] at time
    have zero : 0 = (boost sleep).toNat - (boost (s.slot i).STime).toNat := time
    omega
  intro monotone
  have late := monotone (List.replicate m false ++ [true])
  rw [calls, calls', last_call frames one (index ▸ next), last_call frames' one' (index' ▸ next), ready, waits] at late
  obtain ⟨k, -, none⟩ := late 0 (0 + m) rfl
  cases none

/-- A longer sleep never delays a process, whose boost it can raise only if that has no effect. The other direction
is for states in which `Run` does not stop the machine. -/
theorem boost_monotone_iff {s : Scheduler} {i : ℕ} {sleep : BitVec 64} (inside : i < kCPSProcessLimitPerTeam)
    (longer : (s.slot i).STime ≤ sleep) :
    (BoostIdle s i sleep → BoostMonotone s i sleep) ∧ (Framed s → BoostMonotone s i sleep → BoostIdle s i sleep) := by
  refine ⟨boostMonotone_of_idle inside, fun framed monotone => ?_⟩
  by_contra decides
  exact boost_delays inside longer framed decides monotone

/-- A process as `Spawn` leaves it in the first slot. -/
def sleeper : UserProcess := (fill 0 0 [97] 1 0 0 ⟨true, true⟩ zeroProcess).2

def oneProcess : Scheduler := ⟨{ kRTUserTeam.put 0 sleeper with mProcessCur := 1 }, 0, zeroProcess⟩

theorem oneProcess_framed : Framed oneProcess := by
  intro i bound
  unfold Scheduler.slot
  split
  · by_cases first : i = 0
    · subst first
      exact .inl rfl
    · have other : oneProcess.team.mProcessList i = zeroProcess := put_other (by simpa using first)
      rw [other]
      exact .inr (stopped_of_status nofun nofun)
  · exact .inr (stopped_of_status nofun nofun)

theorem boost_monotone_oneProcess : (BoostIdle oneProcess 0 9 → BoostMonotone oneProcess 0 9) ∧
    (Framed oneProcess → BoostMonotone oneProcess 0 9 → BoostIdle oneProcess 0 9) :=
  boost_monotone_iff (by decide) (by decide)

/-- Ten calls of sleep are worth a turn that the process has to wait. -/
theorem longer_sleep_delays : ¬ ∀ (s : Scheduler) (i : ℕ) (sleep : BitVec 64), i < kCPSProcessLimitPerTeam →
    (s.slot i).STime < sleep → BoostMonotone s i sleep := by
  intro every
  have monotone := every oneProcess 0 10 (by decide) (by decide)
  refine boost_delays (by decide) (by decide) oneProcess_framed ?_ monotone
  rintro (empty | boosted | ultra | stopped)
  · exact absurd empty (by decide)
  · exact absurd boosted (by decide)
  · cases ultra
  · have able : CanBeScheduled (oneProcess.slot 0) = true := by decide
    cases able.symm.trans stopped.waits

end Ne.Kernel.Sched
