import NeKernel.Sched.RoundRobin

/-!
# The counters of a process

Every update `Run` makes to the four counters of the process it considers, in the order in which it makes
them. A process that waits with no time left, or is switched to after it waited longer than its boost, takes
its `PTime` below zero.
-/

namespace Ne.Kernel.Sched
open Runs

inductive Clock where
  | PTime
  | RTime
  | UTime
  | STime
  deriving DecidableEq

abbrev Times := Clock → BitVec 64

def UserProcess.times (process : UserProcess) : Times
  | .PTime => process.PTime
  | .RTime => process.RTime
  | .UTime => process.UTime
  | .STime => process.STime

inductive Update where
  | add (clock : Clock) (amount : BitVec 64)
  | sub (clock : Clock) (amount : BitVec 64)
  | clear (clock : Clock)

def Update.apply (times : Times) : Update → Times
  | .add clock amount => Function.update times clock (times clock + amount)
  | .sub clock amount => Function.update times clock (times clock - amount)
  | .clear clock => Function.update times clock 0

def Update.Wraps (times : Times) : Update → Prop
  | .add clock amount => (times clock).uaddOverflow amount = true
  | .sub clock amount => (times clock).usubOverflow amount = true
  | .clear _ => False

abbrev applyAll (updates : List Update) (times : Times) : Times := updates.foldl Update.apply times

/-- None of the updates wraps, one after the other. -/
def Fits : List Update → Times → Prop
  | [], _ => True
  | update :: updates, times => ¬ update.Wraps times ∧ Fits updates (update.apply times)

/-! ## The branches of `Run` -/

/-- The process that the cursor comes to next. -/
def Scheduler.next (s : Scheduler) : UserProcess := s.slot (nextIndex s.processIndex)

def Scheduler.turned (s : Scheduler) : Scheduler := { s with processIndex := nextIndex s.processIndex }

/-- With the process and its copy as `Switch` finds them. -/
def Scheduler.handed (s : Scheduler) : Scheduler :=
  (s.turned.store (nextIndex s.processIndex) (beforeSwitch s.next)).store kCurrentSlot (beforeSwitch s.next)

section Branches
variable {s : Scheduler} {switched : Bool}

theorem Run_empty (empty : s.team.mProcessCur < 1) : s.Run switched = some (0, s) := if_pos empty

variable (peopled : 1 ≤ s.team.mProcessCur)
include peopled

theorem Run_waits (waits : CanBeScheduled s.next = false) : s.Run switched =
    some (nextIndex s.processIndex, s.turned.store (nextIndex s.processIndex) (passOver s.next)) := by
  unfold Scheduler.Run
  rw [if_neg (not_lt.mpr peopled)]
  exact if_neg (Bool.eq_false_iff.mp waits)

theorem Run_scheduled (scheduled : CanBeScheduled s.next = true) : s.Run switched =
    if s.next.StackFrame.isNone then none
    else some (nextIndex s.processIndex,
      if switched then s.handed.store (nextIndex s.processIndex) (afterSwitch (beforeSwitch s.next))
      else s.handed) := by
  have frame : (beforeSwitch s.next).StackFrame = s.next.StackFrame := by
    obtain ⟨_, _, _, _, same⟩ := beforeSwitch_timed s.next
    rw [same]
  unfold Scheduler.Run
  rw [if_neg (not_lt.mpr peopled), ← frame]
  exact if_pos scheduled

end Branches

/-! ## The updates of `Run` -/

/-- The interactive boost. -/
def boost (sleep : BitVec 64) : BitVec 64 := if sleep / 10 > 200 then 200 else sleep / 10

/-- The bigger cooldown. -/
def coolDown (waited : BitVec 64) : BitVec 64 :=
  if waited < 150 then 1500 else if waited < 200 then 1000 else if waited < 1000 then 200 else 0

def beforeUpdates (process : UserProcess) : List Update :=
  (if process.UTime < process.PTime then [.add .UTime 1] else []) ++
    if process.STime > 0 then [.add .PTime (boost process.STime), .clear .STime] else []

def afterUpdates (process : UserProcess) : List Update :=
  if process.PTime < process.RTime ∧ process.Affinity ≠ .kUltraHigh then
    [.add .RTime (coolDown process.RTime), .sub .PTime (process.RTime + coolDown process.RTime), .clear .RTime]
  else if process.Affinity ≠ .kUltraHigh then [.add .PTime 100]
  else []

def passUpdates (process : UserProcess) : List Update :=
  (if process.Status = .kFrozen then [.add .STime 1] else []) ++ [.add .RTime 1, .sub .PTime 1]

/-- Without a stack frame the process is not switched to: the machine stops first. -/
def runUpdates (switched : Bool) (process : UserProcess) : List Update :=
  if CanBeScheduled process then
    beforeUpdates process ++
      if switched ∧ process.StackFrame.isSome then afterUpdates (beforeSwitch process) else []
  else passUpdates process

section Updates
variable {p : UserProcess} {s s' : Scheduler} {switched : Bool} {updates later : List Update} {times : Times}
  {sleep : BitVec 64}

theorem fits_append : Fits (updates ++ later) times ↔ Fits updates times ∧ Fits later (applyAll updates times) := by
  induction updates generalizing times with
  | nil => simp [Fits]
  | cons update updates ih => simp [Fits, ih, and_assoc]

theorem beforeSwitch_times (p : UserProcess) : (beforeSwitch p).times = applyAll (beforeUpdates p) p.times := by
  funext clock
  unfold beforeSwitch beforeUpdates
  by_cases used : p.UTime < p.PTime
  · rw [if_pos used, if_pos used]
    by_cases slept : p.STime > 0
    · rw [if_pos slept]
      simp only [if_pos slept]
      cases clock <;> rfl
    · rw [if_neg slept]
      simp only [if_neg slept]
      cases clock <;> rfl
  · rw [if_neg used, if_neg used]
    by_cases slept : p.STime > 0
    · rw [if_pos slept]
      simp only [if_pos slept]
      cases clock <;> rfl
    · rw [if_neg slept]
      simp only [if_neg slept]
      cases clock <;> rfl

theorem coolDown_add (waited : BitVec 64) :
    (if waited < 150 then waited + 1500
      else if waited < 200 then waited + 1000
      else if waited < 1000 then waited + 200
      else waited) = waited + coolDown waited := by
  unfold coolDown
  by_cases very : waited < 150
  · rw [if_pos very, if_pos very]
  by_cases high : waited < 200
  · rw [if_neg very, if_neg very, if_pos high, if_pos high]
  by_cases standard : waited < 1000
  · rw [if_neg very, if_neg very, if_neg high, if_neg high, if_pos standard, if_pos standard]
  · rw [if_neg very, if_neg very, if_neg high, if_neg high, if_neg standard, if_neg standard]
    exact (BitVec.add_zero waited).symm

theorem afterSwitch_times (p : UserProcess) : (afterSwitch p).times = applyAll (afterUpdates p) p.times := by
  funext clock
  unfold afterSwitch afterUpdates
  by_cases late : p.PTime < p.RTime ∧ p.Affinity ≠ .kUltraHigh
  · rw [if_pos late, if_pos late, coolDown_add]
    cases clock <;> rfl
  rw [if_neg late, if_neg late]
  by_cases ordinary : p.Affinity ≠ .kUltraHigh
  · rw [if_pos ordinary, if_pos ordinary]
    cases clock <;> rfl
  · rw [if_neg ordinary, if_neg ordinary]
    rfl

theorem passOver_times (p : UserProcess) : (passOver p).times = applyAll (passUpdates p) p.times := by
  funext clock
  unfold passOver passUpdates
  by_cases frozen : p.Status = .kFrozen
  · rw [if_pos frozen, if_pos frozen]
    cases clock <;> rfl
  · rw [if_neg frozen, if_neg frozen]
    cases clock <;> rfl

theorem boost_le (sleep : BitVec 64) : (boost sleep).toNat ≤ 200 := by
  unfold boost
  split
  · exact le_rfl
  · rename_i low
    exact BitVec.le_def.mp (BitVec.not_lt.mp low)

theorem boost_zero : boost 0 = 0 := by decide

theorem before_PTime (p : UserProcess) : (beforeSwitch p).PTime = p.PTime + boost p.STime := by
  have times := congrFun (beforeSwitch_times p) .PTime
  refine times.trans ?_
  unfold beforeUpdates
  by_cases slept : p.STime > 0
  · rw [if_pos slept]
    split <;> rfl
  · have awake : p.STime = 0 := by bv_omega
    rw [if_neg slept, awake, boost_zero]
    split <;> exact (BitVec.add_zero p.PTime).symm

theorem before_RTime (p : UserProcess) : (beforeSwitch p).RTime = p.RTime := by
  have times := congrFun (beforeSwitch_times p) .RTime
  refine times.trans ?_
  unfold beforeUpdates
  split <;> split <;> rfl

theorem before_Affinity (p : UserProcess) : (beforeSwitch p).Affinity = p.Affinity := by
  obtain ⟨_, _, _, _, same⟩ := beforeSwitch_timed p
  rw [same]

theorem adds_iff {x y : BitVec 64} : x.uaddOverflow y = true ↔ 2 ^ 64 ≤ x.toNat + y.toNat := decide_eq_true_iff

theorem subs_iff {x y : BitVec 64} : x.usubOverflow y = true ↔ x < y := decide_eq_true_iff

theorem fits_before : Fits (beforeUpdates p) p.times ↔ p.PTime.uaddOverflow (boost p.STime) = false := by
  have used : Fits (if p.UTime < p.PTime then [.add .UTime 1] else []) p.times := by
    split
    · rename_i below
      refine ⟨fun wraps => ?_, trivial⟩
      have high : 2 ^ 64 ≤ p.UTime.toNat + 1 := adds_iff.mp wraps
      bv_omega
    · trivial
  have untouched : applyAll (if p.UTime < p.PTime then [.add .UTime 1] else []) p.times .PTime = p.PTime := by
    split <;> rfl
  rw [beforeUpdates, fits_append]
  by_cases slept : p.STime > 0
  · rw [if_pos slept]
    simp only [used, true_and, Fits, Update.Wraps, untouched, not_false_eq_true, and_true, Bool.not_eq_true]
  · have awake : p.STime = 0 := by bv_omega
    rw [if_neg slept, awake, boost_zero]
    refine iff_of_true ⟨used, trivial⟩ (Bool.eq_false_iff.mpr fun wraps => ?_)
    exact absurd (adds_iff.mp wraps) (not_le.mpr p.PTime.isLt)

theorem coolDown_room (waited : BitVec 64) : waited.toNat + (coolDown waited).toNat < 2 ^ 64 := by
  have bound := waited.isLt
  unfold coolDown
  split
  · bv_omega
  split
  · bv_omega
  split
  · bv_omega
  · exact bound

theorem fits_after (ordinary : p.Affinity ≠ .kUltraHigh) (small : p.PTime.toNat + 100 < 2 ^ 64) :
    Fits (afterUpdates p) p.times ↔ p.RTime ≤ p.PTime := by
  unfold afterUpdates
  by_cases late : p.PTime < p.RTime
  · have room := coolDown_room p.RTime
    have under : p.PTime.usubOverflow (p.RTime + coolDown p.RTime) = true := by
      apply subs_iff.mpr
      have sum := BitVec.toNat_add_of_lt room
      bv_omega
    rw [if_pos ⟨late, ordinary⟩]
    refine iff_of_false (fun fits => fits.2.1 under) (BitVec.not_le.mpr late)
  · rw [if_neg fun both => late both.1, if_pos ordinary]
    refine iff_of_true ⟨fun wraps => ?_, trivial⟩ (BitVec.not_lt.mp late)
    exact absurd (adds_iff.mp wraps) (not_le.mpr small)

theorem fits_pass : Fits (passUpdates p) p.times ↔
    p.PTime ≠ 0 ∧ p.RTime.toNat + 1 < 2 ^ 64 ∧ (p.Status = .kFrozen → p.STime.toNat + 1 < 2 ^ 64) := by
  have add (x : BitVec 64) : ¬ x.uaddOverflow 1 = true ↔ x.toNat + 1 < 2 ^ 64 := by
    rw [adds_iff, not_le]
    rfl
  have sub (x : BitVec 64) : ¬ x.usubOverflow 1 = true ↔ x ≠ 0 := by
    rw [subs_iff]
    bv_omega
  have rest : Fits [.add .RTime 1, .sub .PTime 1] p.times ↔ p.RTime.toNat + 1 < 2 ^ 64 ∧ p.PTime ≠ 0 :=
    and_congr (add p.RTime) ((and_iff_left trivial).trans (sub p.PTime))
  unfold passUpdates
  by_cases frozen : p.Status = .kFrozen
  · have first : Fits [.add .STime 1, .add .RTime 1, .sub .PTime 1] p.times ↔
        p.STime.toNat + 1 < 2 ^ 64 ∧ p.RTime.toNat + 1 < 2 ^ 64 ∧ p.PTime ≠ 0 := and_congr (add p.STime) rest
    rw [if_pos frozen]
    refine first.trans ⟨fun ⟨slept, ran, left⟩ => ⟨left, ran, fun _ => slept⟩, ?_⟩
    exact fun ⟨left, ran, slept⟩ => ⟨slept frozen, ran, left⟩
  · rw [if_neg frozen]
    refine rest.trans ⟨fun ⟨ran, left⟩ => ⟨left, ran, fun here => absurd here frozen⟩, ?_⟩
    exact fun ⟨left, ran, _⟩ => ⟨ran, left⟩

end Updates

/-! ## What wraps -/

/-- The process has time left when it is passed over, and has waited no longer than its boost when it is
switched to. -/
def Steady (switched : Bool) (p : UserProcess) : Prop :=
  if CanBeScheduled p then
    switched = true ∧ p.StackFrame.isSome → p.Affinity ≠ .kUltraHigh → p.RTime ≤ boost p.STime
  else p.PTime ≠ 0

/-- The counters that go up are not at their ends. -/
def HasRoom (p : UserProcess) : Prop :=
  if CanBeScheduled p then p.PTime.uaddOverflow (boost p.STime) = false
  else p.RTime.toNat + 1 < 2 ^ 64 ∧ (p.Status = .kFrozen → p.STime.toNat + 1 < 2 ^ 64)

section Wraps
variable {p : UserProcess} {switched : Bool}

theorem scheduled_PTime (scheduled : CanBeScheduled p = true) (ordinary : p.Affinity ≠ .kUltraHigh) : p.PTime = 0 := by
  unfold CanBeScheduled at scheduled
  rw [if_neg ordinary] at scheduled
  split at scheduled
  · cases scheduled
  split at scheduled
  · cases scheduled
  split at scheduled
  · cases scheduled
  split at scheduled
  · cases scheduled
  split at scheduled
  · cases scheduled
  · have small : p.PTime < 1 := of_decide_eq_true scheduled
    bv_omega

theorem fits_run : Fits (runUpdates switched p) p.times ↔ Steady switched p ∧ HasRoom p := by
  unfold runUpdates Steady HasRoom
  by_cases scheduled : CanBeScheduled p = true
  · rw [if_pos scheduled, if_pos scheduled, if_pos scheduled, fits_append, fits_before, and_comm]
    refine and_congr_left fun room => ?_
    by_cases switches : switched = true ∧ p.StackFrame.isSome = true
    · rw [if_pos switches, ← beforeSwitch_times]
      by_cases ultra : p.Affinity = .kUltraHigh
      · have none : afterUpdates (beforeSwitch p) = [] := by
          unfold afterUpdates
          rw [before_Affinity, if_neg fun both => both.2 ultra, if_neg (not_not.mpr ultra)]
        rw [none]
        exact iff_of_true trivial fun _ ordinary => absurd ultra ordinary
      · have start : (beforeSwitch p).PTime = boost p.STime := by
          rw [before_PTime, scheduled_PTime scheduled ultra]
          exact BitVec.zero_add _
        have small := boost_le p.STime
        rw [fits_after (before_Affinity p ▸ ultra) (by rw [start]; omega), before_RTime, start]
        exact ⟨fun cool _ _ => cool, fun cool => cool switches ultra⟩
    · rw [if_neg switches]
      exact iff_of_true trivial fun both => absurd both switches
  · rw [if_neg scheduled, if_neg scheduled, if_neg scheduled]
    exact fits_pass

end Wraps

/-! ## How far the counters get -/

/-- What the updates add to a counter altogether. -/
def gain : List Update → Clock → ℕ
  | [], _ => 0
  | .add clock amount :: updates, c => (if clock = c then amount.toNat else 0) + gain updates c
  | _ :: updates, c => gain updates c

section Growth
variable {updates later : List Update} {times : Times} {clock : Clock} {p : UserProcess} {switched : Bool}

theorem gain_append : gain (updates ++ later) clock = gain updates clock + gain later clock := by
  induction updates with
  | nil => simp [gain]
  | cons update updates ih => cases update <;> simp [gain, ih, Nat.add_assoc]

theorem Fits.grows (fits : Fits updates times) :
    (applyAll updates times clock).toNat ≤ (times clock).toNat + gain updates clock := by
  induction updates generalizing times with
  | nil => exact le_rfl
  | cons update updates ih =>
      obtain ⟨here, later⟩ := fits
      refine (ih later).trans ?_
      cases update with
      | add c amount =>
          by_cases same : c = clock
          · subst same
            have sum := BitVec.toNat_add_of_lt (not_le.mp fun high => here (adds_iff.mpr high))
            simp only [Update.apply, Function.update_self, gain, if_true, sum]
            omega
          · simp only [Update.apply, Function.update_of_ne (Ne.symm same), gain, if_neg same]
            omega
      | sub c amount =>
          by_cases same : c = clock
          · subst same
            have below := BitVec.not_lt.mp fun under => here (subs_iff.mpr under)
            simp only [Update.apply, Function.update_self, gain]
            bv_omega
          · simp only [Update.apply, Function.update_of_ne (Ne.symm same), gain]
            exact le_rfl
      | clear c =>
          by_cases same : c = clock
          · subst same
            simp only [Update.apply, Function.update_self, gain]
            exact Nat.add_le_add_right (Nat.zero_le _) _
          · simp only [Update.apply, Function.update_of_ne (Ne.symm same), gain]
            exact le_rfl

theorem coolDown_le (waited : BitVec 64) : (coolDown waited).toNat ≤ 1500 := by
  unfold coolDown
  split
  · exact le_rfl
  split
  · decide
  split <;> decide

theorem gain_before : gain (beforeUpdates p) clock ≤ 201 := by
  have bound := boost_le p.STime
  have used : gain (if p.UTime < p.PTime then [.add .UTime 1] else []) clock ≤ 1 := by
    split
    · cases clock <;> simp [gain]
    · exact Nat.zero_le _
  have boosted : gain (if p.STime > 0 then [.add .PTime (boost p.STime), .clear .STime] else []) clock ≤ 200 := by
    split
    · cases clock <;> simp [gain, bound]
    · exact Nat.zero_le _
  rw [beforeUpdates, gain_append]
  omega

theorem gain_after : gain (afterUpdates p) clock ≤ 1500 := by
  have bound := coolDown_le p.RTime
  unfold afterUpdates
  split
  · cases clock <;> simp [gain, bound]
  split
  · cases clock <;> simp [gain]
  · exact Nat.zero_le _

theorem gain_run : gain (runUpdates switched p) clock ≤ 1701 := by
  have before : gain (beforeUpdates p) clock ≤ 201 := gain_before
  have after : gain (afterUpdates (beforeSwitch p)) clock ≤ 1500 := gain_after
  unfold runUpdates
  split
  · rw [gain_append]
    split
    · omega
    · exact before.trans (by omega)
  · unfold passUpdates
    split <;> cases clock <;> simp [gain]

end Growth

/-! ## Runs -/

inductive AccountEvent where
  | sched (event : SchedEvent)
  | change (slot : Fin (kCPSProcessLimitPerTeam + 1)) (status : ProcessStatusKind) (affinity : AffinityKind)

def AccountEvent.step (event : AccountEvent) (s : Scheduler) : Option Scheduler :=
  match event with
  | .sched event => event.step s
  | .change slot status affinity => some (s.store slot { s.slot slot with Status := status, Affinity := affinity })

def AccountStep (event : AccountEvent) (s s' : Scheduler) : Prop := event.step s = some s'

def AccountEvent.isRun : AccountEvent → Bool
  | .sched (.run _) => true
  | _ => false

/-- If the event is a call of `Run`, none of its updates wraps. -/
def NoWrap (event : AccountEvent) (s : Scheduler) : Prop :=
  ∀ switched, event = .sched (.run switched) → 1 ≤ s.team.mProcessCur → Fits (runUpdates switched s.next) s.next.times

/-- What a call of `Run` has to find; where it is past the list, the counters that go up as well. -/
def FindsTime (event : AccountEvent) (s : Scheduler) : Prop :=
  ∀ switched, event = .sched (.run switched) → 1 ≤ s.team.mProcessCur →
    Steady switched s.next ∧ (kCPSProcessLimitPerTeam ≤ nextIndex s.processIndex → HasRoom s.next)

/-- Where the counters of the list can be after `n` calls of `Run`. -/
def CountedUpTo (n : ℕ) (s : Scheduler) : Prop :=
  ∀ i < kCPSProcessLimitPerTeam, ∀ clock, ((s.slot i).times clock).toNat ≤ 1701 * n

section Accounting
variable {event : AccountEvent} {s s' : Scheduler} {switched : Bool} {n i : ℕ}

theorem Run_times {result : ℕ} (taken : s.Run switched = some (result, s')) (peopled : 1 ≤ s.team.mProcessCur)
    (listed : nextIndex s.processIndex ≠ kCurrentSlot) :
    (s'.slot (nextIndex s.processIndex)).times = applyAll (runUpdates switched s.next) s.next.times := by
  unfold runUpdates
  by_cases scheduled : CanBeScheduled s.next = true
  · rw [Run_scheduled peopled scheduled] at taken
    split at taken
    · cases taken
    rename_i framed
    have frame : s.next.StackFrame.isSome = true :=
      Option.isSome_iff_ne_none.mpr fun none => framed (Option.isNone_iff_eq_none.mpr none)
    obtain ⟨-, rfl⟩ := Prod.ext_iff.mp (Option.some.inj taken)
    rw [if_pos scheduled]
    cases switched with
    | true =>
        simp only [if_true]
        rw [slot_store_same, afterSwitch_times, beforeSwitch_times, if_pos ⟨trivial, frame⟩]
        exact List.foldl_append.symm
    | false =>
        simp only [Bool.false_eq_true, if_false]
        rw [Scheduler.handed, slot_store_other listed (.inl le_rfl), slot_store_same, if_neg And.left, List.append_nil]
        exact beforeSwitch_times s.next
  · rw [Run_waits peopled (Bool.eq_false_iff.mpr scheduled)] at taken
    obtain ⟨-, rfl⟩ := Prod.ext_iff.mp (Option.some.inj taken)
    rw [if_neg scheduled, slot_store_same]
    exact passOver_times s.next

theorem Crash_times (process : UserProcess) : process.Crash.times = process.times := by
  unfold UserProcess.Crash
  split <;> rfl

theorem fill_times {vm code image : VoidPtr} {pid result : ProcessID} {text : List ByteMem.Byte} {imageSz : SizeT}
    {heap : Grants} {process filled : UserProcess}
    (put : fill vm pid text code image imageSz heap process = (result, filled)) :
    filled.times = process.times ∨ ∀ clock, filled.times clock = 0 := by
  have zero (p : UserProcess) (reset : p.PTime = 0 ∧ p.RTime = 0 ∧ p.UTime = 0 ∧ p.STime = 0) :
      ∀ clock, p.times clock = 0 := fun clock => by
    cases clock
    · exact reset.1
    · exact reset.2.1
    · exact reset.2.2.1
    · exact reset.2.2.2
  obtain rfl := congrArg Prod.snd put
  unfold fill
  dsimp only
  split
  · exact .inl rfl
  split
  · rw [Crash_times]
    exact .inl rfl
  split
  · exact .inr (zero _ ⟨rfl, rfl, rfl, rfl⟩)
  split
  · rw [Crash_times]
    exact .inr (zero _ ⟨rfl, rfl, rfl, rfl⟩)
  · exact .inr (zero _ ⟨rfl, rfl, rfl, rfl⟩)

theorem Exit_times {exitCode : Int} {returns : Returns} {pid : ProcessID} {team : UserProcessTeam}
    (taken : Exit exitCode returns pid s.team = some team) (inside : i < kCPSProcessLimitPerTeam) :
    (Scheduler.slot { s with team := team } i).times = (s.slot i).times := by
  rw [slot_team inside.le, slot_team inside.le]
  by_cases here : (i : ProcessID) = pid
  · obtain rfl := Exit_put taken
    rw [here]
    exact (congrArg UserProcess.times (if_pos rfl)).trans rfl
  · rw [(Exit_cases taken).2 i here]

theorem others_times (taken : AccountStep event s s') (other : event.isRun = false)
    (inside : i < kCPSProcessLimitPerTeam) :
    (s'.slot i).times = (s.slot i).times ∨ ∀ clock, (s'.slot i).times clock = 0 := by
  cases event with
  | change slot status affinity =>
      obtain rfl := Option.some.inj taken
      by_cases here : i = slot
      · rw [here, slot_store_same]
        exact .inl rfl
      · rw [slot_store_other here (.inl (Nat.le_of_lt_succ slot.isLt))]
        exact .inl rfl
  | sched call =>
      cases call with
      | run switched => cases other
      | fault handler rsp =>
          obtain rfl := Option.some.inj taken
          have apart : i ≠ kCurrentSlot := inside.ne
          rw [slot_store_other apart (.inl le_rfl)]
          exact .inl rfl
      | exit exitCode returns slot =>
          obtain ⟨team, exits, rfl⟩ := Option.map_eq_some_iff.mp taken
          exact .inl (Exit_times exits inside)
      | remove returns processId =>
          obtain ⟨team, removed, rfl⟩ := Option.map_eq_some_iff.mp taken
          rcases Remove_cases removed with rfl | ⟨-, -, exits⟩
          · exact .inl rfl
          · exact .inl (Exit_times exits inside)
      | spawn vm name code image imageSz heap =>
          obtain ⟨⟨pid, team⟩, spawned, rfl⟩ := Option.map_eq_some_iff.mp taken
          rcases Spawn_put spawned with ⟨-, -, rfl⟩ | ⟨-, -, text, filled, -, put, rfl⟩
          · exact .inl rfl
          rw [slot_team inside.le, slot_team inside.le]
          by_cases here : (i : ProcessID) = s.team.mProcessCur
          · rw [here, put_same]
            exact fill_times put
          · rw [put_other here]
            exact .inl rfl

theorem CountedUpTo.mono {m : ℕ} (counted : CountedUpTo n s) (more : n ≤ m) : CountedUpTo m s :=
  fun i inside clock => (counted i inside clock).trans (Nat.mul_le_mul_left _ more)

theorem counted_other (counted : CountedUpTo n s) (taken : AccountStep event s s') (other : event.isRun = false) :
    CountedUpTo n s' := by
  intro i inside clock
  rcases others_times taken other inside with same | zero
  · rw [same]
    exact counted i inside clock
  · rw [zero]
    exact Nat.zero_le _

theorem counted_run (counted : CountedUpTo n s) (taken : AccountStep (.sched (.run switched)) s s')
    (fits : NoWrap (.sched (.run switched)) s) : CountedUpTo (n + 1) s' := by
  obtain ⟨⟨result, next⟩, ran, rfl⟩ := Option.map_eq_some_iff.mp taken
  rcases Run_cases ran with ⟨-, rfl⟩ | runs
  · exact counted.mono (Nat.le_succ n)
  intro i inside clock
  by_cases here : i = nextIndex s.processIndex
  · subst here
    have grown : _ ≤ _ + gain (runUpdates switched s.next) clock := (fits switched rfl runs.peopled).grows
    have gained : gain (runUpdates switched s.next) clock ≤ 1701 := gain_run
    have before : (s.next.times clock).toNat ≤ 1701 * n := counted _ inside clock
    rw [Run_times ran runs.peopled inside.ne]
    omega
  · rw [runs.others i (inside.le.trans (Nat.le_succ _)) here inside.ne]
    exact counted.mono (Nat.le_succ n) i inside clock

theorem CountedUpTo.hasRoom (counted : CountedUpTo n s) (few : n < 2 ^ 32) (inside : i < kCPSProcessLimitPerTeam) :
    HasRoom (s.slot i) := by
  have used := counted i inside .PTime
  have waited := counted i inside .RTime
  have slept := counted i inside .STime
  have boosted := boost_le (s.slot i).STime
  unfold HasRoom
  split
  · refine Bool.eq_false_iff.mpr fun wraps => ?_
    have high := adds_iff.mp wraps
    change (s.slot i).PTime.toNat ≤ _ at used
    omega
  · change (s.slot i).RTime.toNat ≤ _ at waited
    change (s.slot i).STime.toNat ≤ _ at slept
    exact ⟨by omega, fun _ => by omega⟩

theorem noWrap_iff (counted : CountedUpTo n s) (few : n < 2 ^ 32) : NoWrap event s ↔ FindsTime event s := by
  refine forall_congr' fun switched => imp_congr_right fun _ => imp_congr_right fun _ => ?_
  rw [fits_run]
  refine and_congr_right fun _ => ⟨fun room _ => room, fun room => ?_⟩
  by_cases listed : kCPSProcessLimitPerTeam ≤ nextIndex s.processIndex
  · exact room listed
  · exact counted.hasRoom few (not_le.mp listed)

theorem noWrap_run_iff {events : List AccountEvent} (counted : CountedUpTo n s)
    (few : n + events.countP AccountEvent.isRun < 2 ^ 32) :
    AllSteps AccountStep NoWrap s events ↔ AllSteps AccountStep FindsTime s events := by
  induction events generalizing s n with
  | nil =>
      have none (guard : AccountEvent → Scheduler → Prop) : AllSteps AccountStep guard s [] := by
        intro before l after split
        cases before <;> cases split
      exact iff_of_true (none _) (none _)
  | cons event events ih =>
      rw [allSteps_cons, allSteps_cons, noWrap_iff counted (by omega)]
      refine and_congr_right fun here => forall_congr' fun t => forall_congr' fun taken => ?_
      cases counts : event.isRun with
      | false =>
          rw [List.countP_cons_of_neg (by rw [counts]; exact Bool.false_ne_true)] at few
          exact ih (counted_other counted taken counts) few
      | true =>
          rw [List.countP_cons_of_pos counts] at few
          cases event with
          | change => cases counts
          | sched call =>
              cases call with
              | run switched =>
                  have fits := (noWrap_iff counted (by omega)).mpr here
                  exact ih (counted_run counted taken fits) (by omega)
              | _ => cases counts

end Accounting

/-- From counters at zero, and in fewer than `2 ^ 32` calls of `Run`, none of their updates wraps exactly as long
as each call finds time. -/
theorem times_never_wrap_iff {s : Scheduler} {events : List AccountEvent}
    (zero : ∀ i < kCPSProcessLimitPerTeam, ∀ clock, (s.slot i).times clock = 0)
    (few : events.countP AccountEvent.isRun < 2 ^ 32) :
    AllSteps AccountStep NoWrap s events ↔ AllSteps AccountStep FindsTime s events := by
  refine @noWrap_run_iff s 0 events (fun i inside clock => ?_) (by omega)
  rw [zero i inside clock]
  exact Nat.zero_le _

theorem start_times (behind : UserProcess) : ∀ i < kCPSProcessLimitPerTeam, ∀ clock,
    ((Scheduler.start behind).slot i).times clock = 0 := by
  intro i inside clock
  rw [slot_team inside.le]
  cases clock <;> rfl

def spawnEvent (letter : ByteMem.Byte) : AccountEvent := .sched (.spawn 0 (some [letter]) 1 0 0 ⟨true, true⟩)

theorem times_never_wrap_pair :
    AllSteps AccountStep NoWrap (.start zeroProcess) [spawnEvent 97, spawnEvent 98, .sched (.run true)] ↔
      AllSteps AccountStep FindsTime (.start zeroProcess) [spawnEvent 97, spawnEvent 98, .sched (.run true)] :=
  times_never_wrap_iff (start_times zeroProcess) (by decide)

/-- The slot behind the only process of the team has no time to take away. -/
theorem unused_slot_wraps : ¬ ∀ behind (events : List AccountEvent), events.countP AccountEvent.isRun < 2 ^ 32 →
    AllSteps AccountStep NoWrap (.start behind) events := by
  intro every
  have calls := every zeroProcess [spawnEvent 97, .sched (.run true)] (by decide)
  have fits := calls [spawnEvent 97] (.sched (.run true)) [] rfl _ (.cons rfl (.nil _)) true rfl (by decide)
  have steady := (fits_run.mp fits).1
  exact absurd steady (by unfold Steady; decide)

end Ne.Kernel.Sched
