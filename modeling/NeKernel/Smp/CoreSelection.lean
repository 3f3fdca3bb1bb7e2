import NeKernel.Smp.SpinFlags

/-!
# Which core takes a process

`UserProcessHelper::Switch` marks a core busy before it asks it to take the process, and leaves the mark where
the core does not.
-/

namespace Ne.Kernel.Smp

inductive ThreadKind where
  | kAPInvalid
  | kAPSystemReserved
  | kAPStandard
  | kAPRealTime
  | kAPBoot
  deriving DecidableEq, Repr

structure HardwareThread where
  fStack : Option StackFrame
  fKind : ThreadKind
  fBusy : Bool
  fPTime : BitVec 64

structure HardwareThreadScheduler where
  fThreadList : ℕ → HardwareThread
  capacity : ℕ
  fCurrentThreadIdx : ℕ

def HardwareThreadScheduler.put (s : HardwareThreadScheduler) (index : ℕ) (thread : HardwareThread) :
    HardwareThreadScheduler :=
  { s with fThreadList := Function.update s.fThreadList index thread }

/-- `registers` is what `mp_register_task` answers. A core that comes alone gets through the loop on the flag. -/
def HardwareThread.Switch (registers : Bool) (frame : Option StackFrame) (thread : HardwareThread) :
    Bool × HardwareThread :=
  match frame with
  | none => (false, thread)
  | some frame =>
      if !halCheckTask frame then (false, thread)
      else if frame.IP = 0 ∨ frame.SP = 0 then (false, thread)
      else (registers, { thread with fStack := some frame })

/-- The loop from `index` on, with as many cores to come. -/
def switchFrom (registers : ℕ → Bool) (frame : StackFrame) (pTime : BitVec 64) :
    ℕ → ℕ → HardwareThreadScheduler → Bool × HardwareThreadScheduler
  | 0, _, s => (false, s)
  | count + 1, index, s =>
      let s := { s with fCurrentThreadIdx := index }
      let thread := s.fThreadList index
      if thread.fKind = .kAPInvalid ∨ thread.fKind = .kAPBoot then switchFrom registers frame pTime count (index + 1) s
      else if thread.fBusy then switchFrom registers frame pTime count (index + 1) s
      else
        let (ret, thread) := HardwareThread.Switch (registers index) (some frame) { thread with fBusy := true }
        let s := s.put index thread
        if !ret then switchFrom registers frame pTime count (index + 1) s
        else (true, s.put index { thread with fPTime := pTime })

/-- `pTime` is the `PTime` of the process that is switched to. -/
def Switch (registers : ℕ → Bool) (frame : StackFrame) (pTime : BitVec 64) (s : HardwareThreadScheduler) :
    Bool × HardwareThreadScheduler :=
  switchFrom registers frame pTime s.capacity 0 s

def HardwareThreadScheduler.busy (s : HardwareThreadScheduler) : Set ℕ :=
  {index | index < s.capacity ∧ (s.fThreadList index).fBusy = true}

/-- The core that took the process is busy beside those that were. -/
def BusyFollows (registers : ℕ → Bool) (frame : StackFrame) (pTime : BitVec 64) (s : HardwareThreadScheduler) : Prop :=
  let (ret, s') := Switch registers frame pTime s
  s'.busy = if ret then insert s'.fCurrentThreadIdx s.busy else s.busy

/-- A core the loop does not pass over. -/
def HardwareThreadScheduler.Idle (s : HardwareThreadScheduler) (index : ℕ) : Prop :=
  (s.fThreadList index).fKind ≠ .kAPInvalid ∧ (s.fThreadList index).fKind ≠ .kAPBoot ∧
    (s.fThreadList index).fBusy = false

/-- The first idle core, if there is one, takes the process. -/
def FirstTakes (registers : ℕ → Bool) (frame : StackFrame) (s : HardwareThreadScheduler) : Prop :=
  ∀ index < s.capacity, s.Idle index → (∀ earlier < index, ¬ s.Idle earlier) →
    (HardwareThread.Switch (registers index) (some frame) (s.fThreadList index)).1 = true

section Loop
variable {registers : ℕ → Bool} {frame : StackFrame} {pTime : BitVec 64} {s s' : HardwareThreadScheduler}
  {count index : ℕ} {ret : Bool} {thread : HardwareThread}

/-- The core's own part of a switch leaves its mark alone, and does not look at it. -/
theorem Switch_busy {registers : Bool} {frame : Option StackFrame} :
    (HardwareThread.Switch registers frame { thread with fBusy := true }).1 =
        (HardwareThread.Switch registers frame thread).1 ∧
      (HardwareThread.Switch registers frame { thread with fBusy := true }).2.fBusy = true := by
  unfold HardwareThread.Switch
  cases frame with
  | none => exact ⟨rfl, rfl⟩
  | some frame =>
      dsimp only
      split
      · exact ⟨rfl, rfl⟩
      split <;> exact ⟨rfl, rfl⟩

theorem busy_put (inside : index < s.capacity) (busy : thread.fBusy = true) :
    ({ s with fCurrentThreadIdx := index }.put index thread).busy = insert index s.busy := by
  ext other
  change other < s.capacity ∧ (Function.update s.fThreadList index thread other).fBusy = true ↔
    other = index ∨ other < s.capacity ∧ (s.fThreadList other).fBusy = true
  by_cases here : other = index
  · subst here
    rw [Function.update_self]
    exact iff_of_true ⟨inside, busy⟩ (.inl rfl)
  · rw [Function.update_of_ne here]
    exact (or_iff_right here).symm

/-- What the loop does with one core. -/
theorem switchFrom_cases : (¬ s.Idle index ∧ switchFrom registers frame pTime (count + 1) index s =
      switchFrom registers frame pTime count (index + 1) { s with fCurrentThreadIdx := index }) ∨
    (s.Idle index ∧ ∃ thread : HardwareThread, thread.fBusy = true ∧
      ((HardwareThread.Switch (registers index) (some frame) (s.fThreadList index)).1 = true ∧
          switchFrom registers frame pTime (count + 1) index s =
            (true, { s with fCurrentThreadIdx := index }.put index thread) ∨
        (HardwareThread.Switch (registers index) (some frame) (s.fThreadList index)).1 = false ∧
          switchFrom registers frame pTime (count + 1) index s = switchFrom registers frame pTime count (index + 1)
            ({ s with fCurrentThreadIdx := index }.put index thread))) := by
  rw [switchFrom]
  dsimp only
  by_cases kind : (s.fThreadList index).fKind = .kAPInvalid ∨ (s.fThreadList index).fKind = .kAPBoot
  · rw [if_pos kind]
    exact .inl ⟨fun idle => kind.elim idle.1 idle.2.1, rfl⟩
  rw [if_neg kind]
  cases busy : (s.fThreadList index).fBusy with
  | true => exact .inl ⟨fun idle => Bool.noConfusion (busy.symm.trans idle.2.2), rfl⟩
  | false =>
      obtain ⟨answer, marked⟩ := @Switch_busy (s.fThreadList index) (registers index) (some frame)
      refine .inr ⟨⟨(not_or.mp kind).1, (not_or.mp kind).2, busy⟩, ?_⟩
      rw [← answer]
      cases ret : (HardwareThread.Switch (registers index) (some frame)
          { s.fThreadList index with fBusy := true }).1 with
      | true =>
          refine ⟨{ (HardwareThread.Switch (registers index) (some frame)
            { s.fThreadList index with fBusy := true }).2 with fPTime := pTime }, marked, .inl ⟨rfl, ?_⟩⟩
          simp [HardwareThreadScheduler.put]
      | false => exact ⟨_, marked, .inr ⟨rfl, by simp⟩⟩

/-- Marks stay, and the core that takes the process is one of those to come. -/
theorem switchFrom_keeps (taken : switchFrom registers frame pTime count index s = (ret, s'))
    (inside : index + count ≤ s.capacity) : s.busy ⊆ s'.busy ∧ (ret = true → index ≤ s'.fCurrentThreadIdx) := by
  induction count generalizing index s with
  | zero =>
      obtain ⟨rfl, rfl⟩ := Prod.mk.inj taken
      exact ⟨subset_rfl, nofun⟩
  | succ count ih =>
      have here : index < s.capacity := by omega
      have room : index + 1 + count ≤ s.capacity := by omega
      rcases @switchFrom_cases registers frame pTime s count index with
        ⟨-, goes⟩ | ⟨-, thread, busy, ⟨-, goes⟩ | ⟨-, goes⟩⟩
      · obtain ⟨marks, later⟩ := ih (goes.symm.trans taken) room
        exact ⟨marks, fun done => (Nat.le_succ index).trans (later done)⟩
      · obtain ⟨rfl, rfl⟩ := Prod.mk.inj (goes.symm.trans taken)
        rw [busy_put here busy]
        exact ⟨Set.subset_insert _ _, fun _ => le_rfl⟩
      · obtain ⟨marks, later⟩ := ih (goes.symm.trans taken) room
        rw [busy_put here busy] at marks
        exact ⟨(Set.subset_insert _ _).trans marks, fun done => (Nat.le_succ index).trans (later done)⟩

theorem switchFrom_follows (taken : switchFrom registers frame pTime count index s = (ret, s'))
    (inside : index + count ≤ s.capacity)
    (first : ∀ i, index ≤ i → i < index + count → s.Idle i → (∀ earlier, index ≤ earlier → earlier < i →
      ¬ s.Idle earlier) → (HardwareThread.Switch (registers i) (some frame) (s.fThreadList i)).1 = true) :
    s'.busy = if ret then insert s'.fCurrentThreadIdx s.busy else s.busy := by
  induction count generalizing index s with
  | zero =>
      obtain ⟨rfl, rfl⟩ := Prod.mk.inj taken
      rfl
  | succ count ih =>
      have here : index < s.capacity := by omega
      have room : index + 1 + count ≤ s.capacity := by omega
      rcases @switchFrom_cases registers frame pTime s count index with
        ⟨passed, goes⟩ | ⟨idle, thread, busy, ⟨-, goes⟩ | ⟨refuses, -⟩⟩
      · refine ih (s := { s with fCurrentThreadIdx := index }) (goes.symm.trans taken) room ?_
        intro i above below idle earliest
        refine first i (by omega) (by omega) idle fun earlier low high => ?_
        by_cases here : earlier = index
        · exact here ▸ passed
        · exact earliest earlier (by omega) high
      · obtain ⟨rfl, rfl⟩ := Prod.mk.inj (goes.symm.trans taken)
        exact busy_put here busy
      · have takes := first index le_rfl (by omega) idle fun earlier low high => absurd high (not_lt.mpr low)
        cases refuses.symm.trans takes

/-- The first idle core does not take the process, and stays marked. -/
theorem switchFrom_stuck {i : ℕ} (taken : switchFrom registers frame pTime count index s = (ret, s'))
    (inside : index + count ≤ s.capacity) (above : index ≤ i) (below : i < index + count) (idle : s.Idle i)
    (earliest : ∀ earlier, index ≤ earlier → earlier < i → ¬ s.Idle earlier)
    (refuses : (HardwareThread.Switch (registers i) (some frame) (s.fThreadList i)).1 = false) :
    i ∈ s'.busy ∧ (ret = true → s'.fCurrentThreadIdx ≠ i) := by
  induction count generalizing index s with
  | zero => omega
  | succ count ih =>
      have here : index < s.capacity := by omega
      have room : index + 1 + count ≤ s.capacity := by omega
      rcases @switchFrom_cases registers frame pTime s count index with
        ⟨passed, goes⟩ | ⟨free, thread, busy, ⟨takes, -⟩ | ⟨-, goes⟩⟩
      · have other : i ≠ index := fun same => passed (same ▸ idle)
        refine ih (s := { s with fCurrentThreadIdx := index }) (goes.symm.trans taken) room (by omega) (by omega)
          idle (fun earlier low high => ?_) refuses
        exact earliest earlier (by omega) high
      · have same : i = index := by
          by_contra other
          exact earliest index le_rfl (by omega) free
        subst same
        cases refuses.symm.trans takes
      · have same : i = index := by
          by_contra other
          exact earliest index le_rfl (by omega) free
        subst same
        obtain ⟨marks, later⟩ := switchFrom_keeps (goes.symm.trans taken) room
        rw [busy_put here busy] at marks
        refine ⟨marks (Set.mem_insert _ _), fun done => ?_⟩
        have past := later done
        omega

end Loop

/-- Exactly the core that takes the process becomes busy, as long as the first idle one takes it or none is idle. -/
theorem busy_follows_iff (registers : ℕ → Bool) (frame : StackFrame) (pTime : BitVec 64) (s : HardwareThreadScheduler) :
    BusyFollows registers frame pTime s ↔ FirstTakes registers frame s := by
  unfold BusyFollows
  obtain ⟨ret, s', taken⟩ : ∃ ret s', Switch registers frame pTime s = (ret, s') := ⟨_, _, rfl⟩
  rw [taken]
  dsimp only
  have inside : 0 + s.capacity ≤ s.capacity := by omega
  constructor
  · intro follows i below idle earliest
    by_contra refuses
    obtain ⟨stuck, other⟩ := switchFrom_stuck taken inside (Nat.zero_le i) (by omega) idle
      (fun earlier _ high => earliest earlier high) (Bool.eq_false_iff.mpr refuses)
    have before : i ∉ s.busy := fun busy => by cases busy.2.symm.trans idle.2.2
    rw [follows] at stuck
    cases ret with
    | false => exact before stuck
    | true => exact before (stuck.resolve_left (Ne.symm (other rfl)))
  · intro first
    refine switchFrom_follows taken inside fun i _ below idle earliest => ?_
    exact first i (by omega) idle fun earlier high => earliest earlier (Nat.zero_le _) high

/-- One idle core that does not take the process, and no core took it. -/
theorem core_stuck : ¬ ∀ registers frame pTime s, BusyFollows registers frame pTime s := by
  intro every
  let s : HardwareThreadScheduler := ⟨fun _ => ⟨none, .kAPStandard, false, 0⟩, 1, 0⟩
  have follows : (Switch (fun _ => false) ⟨1, 1⟩ 0 s).2.busy = s.busy := every (fun _ => false) ⟨1, 1⟩ 0 s
  have stuck : 0 ∈ (Switch (fun _ => false) ⟨1, 1⟩ 0 s).2.busy := ⟨by decide, by decide⟩
  rw [follows] at stuck
  exact absurd stuck.2 (by decide)

end Ne.Kernel.Smp
