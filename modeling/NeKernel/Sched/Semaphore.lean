import NeKernel.Lib.Runs
import NeKernel.Machine

/-!
# Semaphores

Nothing guards a semaphore, so each access to its two words is a step, and the callers take their steps in any
order. No function raises the count.
-/

namespace Ne.Kernel.Sched
open Runs

def kErrorTimeout : Int := 68
def kErrorUnavailable : Int := 70

structure SemaphoreArr where
  owner : BitVec 64
  count : BitVec 64

inductive SemaphoreCall where
  | release
  | acquire (owner : BitVec 64)
  | wait (owner timeout : BitVec 64)

/-- The next access of a caller. -/
inductive SemaphorePoint where
  | entry
  | storeOwner
  | storeCount
  /-- The second half of `rtl_sem_is_valid`. -/
  | valid
  | condition
  | timer
  /-- The condition once more, behind the timer. -/
  | again
  | empty
  | load
  | store (count : BitVec 64)
  | returned (answer : Bool)

def SemaphoreCall.owner : SemaphoreCall → BitVec 64
  | .release => 0
  | .acquire owner => owner
  | .wait owner _ => owner

/-- Where a step leads, with the error it sets. The `answer` is that of the condition or of the timer. -/
def SemaphoreCall.next (sem : SemaphoreArr) (answer : Bool) :
    SemaphoreCall → SemaphorePoint → SemaphorePoint × Option Int
  | .release, .entry => (.storeOwner, none)
  | .acquire owner, .entry => if owner = 0 then (.returned false, some kErrorInvalidData) else (.storeOwner, none)
  | .wait owner _, .entry => if sem.owner = owner then (.valid, none) else (.returned false, some kErrorInvalidData)
  | .wait _ timeout, .valid =>
      if sem.count = 0 then (.returned false, some kErrorInvalidData)
      else if timeout = 0 then (.returned false, some kErrorTimeout)
      else (.condition, none)
  | _, .storeOwner => (.storeCount, none)
  | _, .storeCount => (.returned true, none)
  | _, .condition => if answer then (.timer, none) else (.empty, none)
  | _, .timer => if answer then (.again, none) else (.returned false, some kErrorTimeout)
  | _, .again => if answer then (.returned false, some kErrorTimeout) else (.empty, none)
  | _, .empty => if sem.count = 0 then (.returned false, some kErrorUnavailable) else (.load, some kErrorSuccess)
  | _, .load => (.store sem.count, none)
  | _, .store _ => (.returned true, none)
  | _, point => (point, none)

def SemaphoreCall.stores (sem : SemaphoreArr) (call : SemaphoreCall) : SemaphorePoint → SemaphoreArr
  | .storeOwner => { sem with owner := call.owner }
  | .storeCount => { sem with count := 0 }
  | .store count => { sem with count := count - 1 }
  | _ => sem

structure SemaphoreUsers (ι : Type*) where
  sem : SemaphoreArr
  kErrorLocalNumber : Int
  calls : ι → Option (SemaphoreCall × SemaphorePoint)

inductive SemaphoreStep (ι : Type*) where
  | begin (caller : ι) (call : SemaphoreCall)
  | next (caller : ι) (answer : Bool)

section Steps
variable {ι : Type*} [DecidableEq ι]

def SemaphoreStep.run (step : SemaphoreStep ι) (s : SemaphoreUsers ι) : Option (SemaphoreUsers ι) :=
  match step with
  | .begin caller call =>
      if (s.calls caller).isSome then none
      else some { s with calls := Function.update s.calls caller (some (call, .entry)) }
  | .next caller answer =>
      match s.calls caller with
      | none => none
      | some (_, .returned _) => none
      | some (call, point) =>
          let (point', error) := call.next s.sem answer point
          some {
            sem := call.stores s.sem point
            kErrorLocalNumber := error.getD s.kErrorLocalNumber
            calls := Function.update s.calls caller (some (call, point')) }

def SemaphoreMoves (step : SemaphoreStep ι) (s s' : SemaphoreUsers ι) : Prop := step.run s = some s'

/-- The `wait` of the caller came back with `true`. -/
def WaitGranted (s : SemaphoreUsers ι) (caller : ι) : Prop :=
  ∃ owner timeout, s.calls caller = some (.wait owner timeout, .returned true)

end Steps

/-- Between the test of the count and the store of what is left of it. -/
def SemaphorePoint.inWindow : SemaphorePoint → Bool
  | .load => true
  | .store _ => true
  | _ => false

def SemaphorePoint.storesCount : SemaphorePoint → Bool
  | .storeCount => true
  | .store _ => true
  | _ => false

/-- The points a call comes to, as far as the store of zero is concerned. -/
def SemaphoreCall.Reaches : SemaphoreCall → SemaphorePoint → Prop
  | .wait .., .storeOwner => False
  | .wait .., .storeCount => False
  | _, _ => True

/-- What a call may rely on while nobody else stores the count. -/
def SemaphoreCall.Knows (count : BitVec 64) : SemaphoreCall → SemaphorePoint → Prop
  | .wait .., .storeOwner => False
  | .wait .., .storeCount => False
  | _, .load => 0 < count.toNat
  | _, .store left => left = count ∧ 0 < count.toNat
  | _, _ => True

/-! ## What one step does -/

section Points
variable {sem : SemaphoreArr} {call : SemaphoreCall} {point : SemaphorePoint} {answer : Bool} {count : BitVec 64}

theorem SemaphoreCall.Knows.of_outside (knows : call.Knows count point) (outside : point.inWindow = false)
    (other : BitVec 64) : call.Knows other point := by
  cases call <;> cases point <;> first | exact knows | cases outside

theorem SemaphoreCall.Reaches.knows (reaches : call.Reaches point) (outside : point.inWindow = false) :
    call.Knows count point := by
  cases call <;> cases point <;> first | exact reaches | cases outside

theorem SemaphoreCall.Reaches.next (reaches : call.Reaches point) : call.Reaches (call.next sem answer point).1 := by
  cases call <;> cases point <;> simp only [SemaphoreCall.next] <;> try split_ifs
  all_goals trivial

theorem count_pos (some : count ≠ 0) : 0 < count.toNat :=
  Nat.pos_of_ne_zero fun zero => some (BitVec.eq_of_toNat_eq zero)

theorem SemaphoreCall.Knows.next (knows : call.Knows sem.count point) :
    call.Knows (call.stores sem point).count (call.next sem answer point).1 := by
  cases point with
  | load => cases call <;> exact ⟨rfl, knows⟩
  | empty =>
      have ends (call : SemaphoreCall) : call.next sem answer .empty =
          if sem.count = 0 then (.returned false, some kErrorUnavailable) else (.load, some kErrorSuccess) := by
        cases call <;> rfl
      rw [ends]
      split
      next => cases call <;> trivial
      next some => cases call <;> exact count_pos some
  | _ =>
      cases call <;> simp only [SemaphoreCall.next] <;> try split_ifs
      all_goals trivial

theorem next_outside (empty : sem.count = 0) (outside : point.inWindow = false) :
    (call.next sem answer point).1.inWindow = false := by
  cases call <;> cases point <;> simp only [SemaphoreCall.next] <;> try split_ifs
  all_goals first | rfl | exact outside

theorem stores_empty (empty : sem.count = 0) (outside : point.inWindow = false) :
    (call.stores sem point).count = 0 := by
  cases point with
  | storeCount => rfl
  | store left => cases outside
  | _ => exact empty

/-- A call that is granted has taken one from the count. -/
theorem SemaphoreCall.Knows.count_le (knows : call.Knows sem.count point) :
    (call.stores sem point).count.toNat ≤ sem.count.toNat := by
  cases point with
  | store left =>
      obtain ⟨rfl, positive⟩ : left = sem.count ∧ 0 < sem.count.toNat := by cases call <;> exact knows
      have one : (1 : BitVec 64).toNat = 1 := rfl
      show (sem.count - 1).toNat ≤ sem.count.toNat
      bv_omega
  | storeCount => exact Nat.zero_le _
  | _ => exact le_rfl

/-- A wait is granted by a store that takes one from the count. -/
theorem SemaphoreCall.Knows.granted {owner timeout : BitVec 64}
    (knows : (SemaphoreCall.wait owner timeout).Knows sem.count point)
    (before : ∀ answer, point ≠ .returned answer)
    (granted : ((SemaphoreCall.wait owner timeout).next sem answer point).1 = .returned true) :
    ((SemaphoreCall.wait owner timeout).stores sem point).count.toNat + 1 ≤ sem.count.toNat ∧
      point.inWindow = true := by
  cases point with
  | store left =>
      obtain ⟨rfl, positive⟩ := knows
      have one : (1 : BitVec 64).toNat = 1 := rfl
      refine ⟨?_, rfl⟩
      show (sem.count - 1).toNat + 1 ≤ sem.count.toNat
      bv_omega
  | storeCount => exact knows.elim
  | returned answer => exact absurd rfl (before answer)
  | _ =>
      simp only [SemaphoreCall.next] at granted
      try split_ifs at granted
      all_goals cases granted

end Points

section Runs
variable {ι : Type*} [DecidableEq ι] {s t : SemaphoreUsers ι} {step : SemaphoreStep ι} {steps : List (SemaphoreStep ι)}

theorem semaphoreMoves_cases (moves : SemaphoreMoves step s t) :
    (∃ caller call, step = .begin caller call ∧ s.calls caller = none ∧
      t = { s with calls := Function.update s.calls caller (some (call, .entry)) }) ∨
    ∃ caller answer call point, step = .next caller answer ∧ s.calls caller = some (call, point) ∧
      (∀ answer, point ≠ .returned answer) ∧
      t = ⟨call.stores s.sem point, (call.next s.sem answer point).2.getD s.kErrorLocalNumber,
        Function.update s.calls caller (some (call, (call.next s.sem answer point).1))⟩ := by
  cases step with
  | begin caller call =>
      simp only [SemaphoreMoves, SemaphoreStep.run, Option.ite_none_left_eq_some, Option.some.injEq] at moves
      obtain ⟨idle, rfl⟩ := moves
      exact .inl ⟨caller, call, rfl, by simpa using idle, rfl⟩
  | next caller answer =>
      simp only [SemaphoreMoves, SemaphoreStep.run] at moves
      split at moves
      next => cases moves
      next => cases moves
      next _ call point under found =>
        cases moves
        refine .inr ⟨caller, answer, call, point, rfl, found, fun result beyond => ?_, rfl⟩
        exact under result beyond

theorem every_update {P : SemaphoreCall → SemaphorePoint → Prop} {caller : ι} {call : SemaphoreCall}
    {point : SemaphorePoint} (here : P call point)
    (others : ∀ other ≠ caller, ∀ call point, s.calls other = some (call, point) → P call point) :
    ∀ other call' point', Function.update s.calls caller (some (call, point)) other = some (call', point') →
      P call' point' := by
  intro other call' point' found
  by_cases same : other = caller
  · rw [same, Function.update_self] at found
    cases found
    exact here
  · rw [Function.update_of_ne same] at found
    exact others other same call' point' found

theorem granted_update {sem : SemaphoreArr} {error : Int} {caller other : ι} {call : SemaphoreCall}
    {point : SemaphorePoint}
    (granted : WaitGranted ⟨sem, error, Function.update s.calls caller (some (call, point))⟩ other) :
    WaitGranted s other ∧ other ≠ caller ∨
      other = caller ∧ ∃ owner timeout, call = .wait owner timeout ∧ point = .returned true := by
  obtain ⟨owner, timeout, found⟩ := granted
  dsimp only at found
  by_cases same : other = caller
  · rw [same, Function.update_self] at found
    cases found
    exact .inr ⟨same, owner, timeout, rfl, rfl⟩
  · rw [Function.update_of_ne same] at found
    exact .inl ⟨⟨owner, timeout, found⟩, same⟩

/-- Every call is at a point of its function. -/
def Underway (s : SemaphoreUsers ι) : Prop :=
  ∀ caller call point, s.calls caller = some (call, point) → call.Reaches point

theorem Underway.moves (underway : Underway s) (moves : SemaphoreMoves step s t) : Underway t := by
  obtain ⟨caller, call, rfl, idle, rfl⟩ | ⟨caller, answer, call, point, rfl, found, before, rfl⟩ :=
    semaphoreMoves_cases moves
  · exact every_update (by cases call <;> trivial) fun other _ => underway other
  · exact every_update (underway caller call point found).next fun other _ => underway other

/-- The count is used up, and no call is about to take from it. -/
structure Spent (s : SemaphoreUsers ι) : Prop where
  empty : s.sem.count = 0
  outside : ∀ caller call point, s.calls caller = some (call, point) → point.inWindow = false

theorem Spent.moves (spent : Spent s) (underway : Underway s) (moves : SemaphoreMoves step s t) :
    Spent t ∧ ∀ caller, WaitGranted t caller → WaitGranted s caller := by
  obtain ⟨caller, call, rfl, idle, rfl⟩ | ⟨caller, answer, call, point, rfl, found, before, rfl⟩ :=
    semaphoreMoves_cases moves
  · refine ⟨⟨spent.empty, every_update rfl fun other _ => spent.outside other⟩, fun other granted => ?_⟩
    obtain ⟨earlier, -⟩ | ⟨-, owner, timeout, -, new⟩ := granted_update granted
    · exact earlier
    · cases new
  · have outside := spent.outside caller call point found
    have reaches := underway caller call point found
    refine ⟨⟨stores_empty spent.empty outside,
      every_update (next_outside spent.empty outside) fun other _ => spent.outside other⟩, fun other granted => ?_⟩
    obtain ⟨earlier, -⟩ | ⟨-, owner, timeout, rfl, new⟩ := granted_update granted
    · exact earlier
    · have taken := ((reaches.knows outside).granted before new).2
      rw [outside] at taken
      cases taken

theorem Spent.run (spent : Spent s) (underway : Underway s) (run : Run SemaphoreMoves s steps t) :
    Spent t ∧ ∀ caller, WaitGranted t caller → WaitGranted s caller := by
  induction run with
  | nil => exact ⟨spent, fun _ granted => granted⟩
  | cons head _ ih =>
      obtain ⟨next, old⟩ := spent.moves underway head
      obtain ⟨last, later⟩ := ih next (underway.moves head)
      exact ⟨last, fun caller granted => old caller (later caller granted)⟩

/-- Once the count is zero and no call is about to take from it, no wait is granted any more. -/
theorem semaphore_spent {u : SemaphoreUsers ι} {later : List (SemaphoreStep ι)} (idle : ∀ caller, s.calls caller = none)
    (run : Run SemaphoreMoves s steps t) (empty : t.sem.count = 0)
    (outside : ∀ caller call point, t.calls caller = some (call, point) → point.inWindow = false)
    (rest : Run SemaphoreMoves t later u) :
    u.sem.count = 0 ∧ ∀ caller, WaitGranted u caller → WaitGranted t caller := by
  have start : Underway s := by
    intro caller call point found
    rw [idle caller] at found
    cases found
  have underway := run.invariant (fun _ _ _ inv taken => inv.moves taken) start
  obtain ⟨spent, old⟩ := Spent.run ⟨empty, outside⟩ underway rest
  exact ⟨spent.empty, old⟩

/-! ## Calls that leave each other alone -/

/-- The count is stored only while no other call is between its test and its store. -/
def ExclusiveStores (step : SemaphoreStep ι) (s : SemaphoreUsers ι) : Prop :=
  match step with
  | .begin .. => True
  | .next caller _ => ∀ call point, s.calls caller = some (call, point) → point.storesCount = true →
      ∀ other ≠ caller, ∀ call' point', s.calls other = some (call', point') → point'.inWindow = false

/-- `n` is the count from the start. -/
structure Shared (n : ℕ) (s : SemaphoreUsers ι) : Prop where
  calls : ∀ caller call point, s.calls caller = some (call, point) → call.Knows s.sem.count point
  bound : ∀ callers : List ι, callers.Nodup → (∀ caller ∈ callers, WaitGranted s caller) →
    callers.length + s.sem.count.toNat ≤ n

theorem Shared.moves {n : ℕ} (shared : Shared n s) (alone : ExclusiveStores step s) (moves : SemaphoreMoves step s t) :
    Shared n t := by
  obtain ⟨caller, call, rfl, idle, rfl⟩ | ⟨caller, answer, call, point, rfl, found, before, rfl⟩ :=
    semaphoreMoves_cases moves
  · have started : call.Knows s.sem.count .entry := by cases call <;> trivial
    refine ⟨every_update started fun other _ => shared.calls other, fun callers distinct granted => ?_⟩
    refine shared.bound callers distinct fun other member => ?_
    obtain ⟨earlier, -⟩ | ⟨-, owner, timeout, -, new⟩ := granted_update (granted other member)
    · exact earlier
    · cases new
  · have knows := shared.calls caller call point found
    refine ⟨every_update knows.next fun other away call' point' under => ?_, fun callers distinct granted => ?_⟩
    · have theirs := shared.calls other call' point' under
      by_cases storing : point.storesCount = true
      · exact SemaphoreCall.Knows.of_outside theirs (alone call point found storing other away call' point' under) _
      · have same : (call.stores s.sem point).count = s.sem.count := by
          cases point with
          | storeCount | store left => exact absurd rfl storing
          | _ => rfl
        rwa [same]
    · by_cases new : caller ∈ callers ∧ ∃ owner timeout, call = .wait owner timeout ∧
          (call.next s.sem answer point).1 = .returned true
      · obtain ⟨member, owner, timeout, rfl, ends⟩ := new
        have taken := (knows.granted before ends).1
        have rest := shared.bound (callers.erase caller) (distinct.erase caller) fun other inside => by
          have away : other ≠ caller := fun same => by
            rw [same] at inside
            exact (List.Nodup.not_mem_erase distinct) inside
          obtain ⟨earlier, -⟩ | ⟨same, -⟩ := granted_update (granted other (List.mem_of_mem_erase inside))
          · exact earlier
          · exact absurd same away
        have one := List.length_erase_of_mem member
        have some := List.length_pos_of_mem member
        show callers.length + ((SemaphoreCall.wait owner timeout).stores s.sem point).count.toNat ≤ n
        omega
      · have less := knows.count_le
        have rest := shared.bound callers distinct fun other member => by
          obtain ⟨earlier, -⟩ | ⟨rfl, here⟩ := granted_update (granted other member)
          · exact earlier
          · exact absurd ⟨member, here⟩ new
        show callers.length + (call.stores s.sem point).count.toNat ≤ n
        omega

/-- While the stores are exclusive, the count from the start is an upper bound for the waits that are granted and what
is left of it. -/
theorem granted_bounded (idle : ∀ caller, s.calls caller = none) (run : Run SemaphoreMoves s steps t)
    (alone : AllSteps SemaphoreMoves ExclusiveStores s steps) (callers : List ι) (distinct : callers.Nodup)
    (granted : ∀ caller ∈ callers, WaitGranted t caller) : callers.length + t.sem.count.toNat ≤ s.sem.count.toNat := by
  have start : Shared s.sem.count.toNat s := by
    refine ⟨fun caller call point found => ?_, fun callers _ granted => ?_⟩
    · rw [idle caller] at found
      cases found
    · cases callers with
      | nil => exact (Nat.zero_add _).le
      | cons caller callers =>
          obtain ⟨owner, timeout, found⟩ := granted caller (by simp)
          rw [idle caller] at found
          cases found
  exact ((run.guarded alone).invariant (fun _ _ _ inv taken => inv.moves taken.1 taken.2) start).bound callers distinct
    granted

end Runs

/-! ## A semaphore with room for one -/

def semaphoreOfOne (ι : Type*) : SemaphoreUsers ι := ⟨⟨0, 1⟩, kErrorSuccess, fun _ => none⟩

def semaphoreWait {ι : Type*} (caller : ι) (accesses : ℕ) : List (SemaphoreStep ι) :=
  .begin caller (.wait 0 1) :: List.replicate accesses (.next caller false)

def semaphoreRun {ι : Type*} [DecidableEq ι] (s : SemaphoreUsers ι) (steps : List (SemaphoreStep ι)) :
    Option (SemaphoreUsers ι) :=
  steps.foldlM (fun s step => step.run s) s

/-- Two waits that overlap are both granted. -/
example :
    (semaphoreRun (semaphoreOfOne Bool)
      (semaphoreWait false 5 ++ semaphoreWait true 5 ++ [.next false false, .next true false])).map
      (fun s => (s.calls false, s.calls true, s.sem.count)) =
    some (some (.wait 0 1, .returned true), some (.wait 0 1, .returned true), 0) := rfl

def semaphoreRelease : List (SemaphoreStep Bool) := .begin false .release :: List.replicate 3 (.next false false)

def semaphoreReleased : SemaphoreUsers Bool := (semaphoreRun (semaphoreOfOne Bool) semaphoreRelease).get rfl

def semaphoreRefused : SemaphoreUsers Bool := (semaphoreRun semaphoreReleased (semaphoreWait true 2)).get rfl

theorem semaphore_spent_released : semaphoreRefused.sem.count = 0 ∧
    ∀ caller, WaitGranted semaphoreRefused caller → WaitGranted semaphoreReleased caller := by
  have release : Run SemaphoreMoves (semaphoreOfOne Bool) semaphoreRelease semaphoreReleased := run_iff_foldlM.mpr rfl
  have wait : Run SemaphoreMoves semaphoreReleased (semaphoreWait true 2) semaphoreRefused := run_iff_foldlM.mpr rfl
  have outside : ∀ caller call point, semaphoreReleased.calls caller = some (call, point) → point.inWindow = false := by
    intro caller call point found
    cases caller <;> cases found
    rfl
  exact semaphore_spent (fun _ => rfl) release rfl outside wait

def semaphoreGranted : SemaphoreUsers Unit := (semaphoreRun (semaphoreOfOne Unit) (semaphoreWait () 6)).get rfl

theorem granted_bounded_one : [()].length + semaphoreGranted.sem.count.toNat ≤ 1 := by
  have wait : Run SemaphoreMoves (semaphoreOfOne Unit) (semaphoreWait () 6) semaphoreGranted := run_iff_foldlM.mpr rfl
  have alone : AllSteps SemaphoreMoves ExclusiveStores (semaphoreOfOne Unit) (semaphoreWait () 6) := by
    intro before step after split t run
    cases step with
    | begin => trivial
    | next caller answer => exact fun _ _ _ _ other away => absurd rfl away
  have first : WaitGranted semaphoreGranted () := ⟨0, 1, rfl⟩
  exact granted_bounded (fun _ => rfl) wait alone [()] (by simp) fun _ _ => first

end Ne.Kernel.Sched
