import NeKernel.Sched.BinaryMutex

/-!
# Who holds a mutex, and at what affinity

A mutex is given away from under an owner that does not run. A boost saves the affinity it finds,
which is the owner's own only if it is the first one.
-/

namespace Ne.Kernel.Sched
open Runs

section Effects
variable {ι : Type*} {h h' : MutexHistory ι} {owner : ι}

def MutexHistory.affinity (h : MutexHistory ι) (p : ι) : AffinityKind := (h.processes p).Affinity

theorem locker_iff : h.locker = some owner ↔
    h.mutex.fLockingProcess = some owner ∧ (h.processes owner).Status = .kRunning := by
  simp [Mutexed.locker, Option.filter_eq_some_iff]

theorem locker_none : h.locker = none ↔
    ∀ owner, h.mutex.fLockingProcess = some owner → (h.processes owner).Status ≠ .kRunning := by
  simp [Mutexed.locker, Option.filter_eq_none_iff]

/-- Nothing that concerns the mutex changed. -/
structure Quiet (h h' : MutexHistory ι) : Prop where
  affinity : ∀ p, h'.affinity p = h.affinity p
  mutex : h'.mutex = h.mutex
  held : h'.held = h.held
  acquired : h'.acquired = h.acquired
  boosts : h'.boosts = h.boosts

structure Acquires [DecidableEq ι] (process : ι) (h h' : MutexHistory ι) : Prop where
  free : h.locker = none
  affinity : ∀ p, h'.affinity p = h.affinity p
  mutex : h'.mutex = ⟨some process, .kInvalid⟩
  held : h'.held = process :: h.held
  acquired : ∀ p, h'.acquired p = if p = process then some (h.affinity process) else h.acquired p
  boosts : h'.boosts = 0

structure Boosts [DecidableEq ι] (process owner : ι) (h h' : MutexHistory ι) : Prop where
  owned : h.mutex.fLockingProcess = some owner
  running : (h.processes owner).Status = .kRunning
  higher : h.affinity process < h.affinity owner
  affinity : ∀ p, h'.affinity p = if p = owner then h.affinity process else h.affinity p
  mutex : h'.mutex = ⟨some owner, h.affinity owner⟩
  held : h'.held = h.held
  acquired : h'.acquired = h.acquired
  boosts : h'.boosts = h.boosts + 1

structure Releases [DecidableEq ι] (owner : ι) (h h' : MutexHistory ι) : Prop where
  owned : h.mutex.fLockingProcess = some owner
  affinity : ∀ p, h'.affinity p =
    if p = owner ∧ h.mutex.fOwnerOriginalAffinity ≠ .kInvalid then h.mutex.fOwnerOriginalAffinity else h.affinity p
  mutex : h'.mutex = ⟨none, .kInvalid⟩
  held : h'.held = []
  acquired : h'.acquired = h.acquired
  boosts : h'.boosts = h.boosts

theorem Quiet.refl : Quiet h h := ⟨fun _ => rfl, rfl, rfl, rfl, rfl⟩

end Effects

section Steps
variable {ι : Type*} [DecidableEq ι] {h h' h'' : MutexHistory ι} {call : MutexCall ι} {process owner p : ι} {r : Bool}

@[simp] theorem affinity_set_same {processes : ι → UserProcess} {a : AffinityKind} :
    (setAffinity processes owner a owner).Affinity = a := by simp [setAffinity]

theorem affinity_set_other {processes : ι → UserProcess} {a : AffinityKind} (other : p ≠ owner) :
    setAffinity processes owner a p = processes p := if_neg other

@[simp] theorem affinity_setStatus {processes : ι → UserProcess} {kind : ProcessStatusKind} :
    (setStatus processes owner kind p).Affinity = (processes p).Affinity := by
  unfold setStatus
  split
  · rename_i same
    rw [same]
  · rfl

theorem attempt_cases (taken : h.attempt process = (r, h')) (waiting : List ι) :
    (r = true ∧ Acquires process h { h' with waiting := waiting }) ∨
      (r = false ∧ ((∃ owner, Boosts process owner h { h' with waiting := waiting }) ∨
        Quiet h { h' with waiting := waiting } ∧ h.locker.isSome = true)) := by
  obtain ⟨rfl, rfl⟩ := Prod.ext_iff.mp taken
  unfold MutexHistory.attempt Mutexed.Lock
  cases locked : h.locker with
  | none => exact .inl ⟨rfl, locked, fun _ => rfl, rfl, rfl, fun _ => rfl, rfl⟩
  | some owner =>
      obtain ⟨owned, running⟩ := locker_iff.mp locked
      by_cases higher : h.affinity process < h.affinity owner
      · refine .inr ⟨?_, .inl ⟨owner, owned, running, higher, fun p => ?_, ?_, ?_, ?_, ?_⟩⟩ <;>
          unfold MutexHistory.affinity at higher <;> simp [higher, MutexHistory.affinity, owned]
        by_cases same : p = owner
        · simp [same]
        · rw [affinity_set_other same, if_neg same]
      · refine .inr ⟨?_, .inr ⟨⟨fun _ => ?_, ?_, ?_, ?_, ?_⟩, rfl⟩⟩ <;>
          unfold MutexHistory.affinity at higher <;> simp [higher, MutexHistory.affinity]

/-- What a call does to the mutex and to the affinities. -/
def Effect (call : MutexCall ι) (h h' : MutexHistory ι) : Prop :=
  (Quiet h h' ∧ (call = .unlock → h.mutex.fLockingProcess = none) ∧ (call.asks ≠ none → h.locker.isSome = true)) ∨
    (∃ p, call.asks = some p ∧ (Acquires p h h' ∨ ∃ owner, Boosts p owner h h')) ∨
    (call = .unlock ∧ ∃ owner, Releases owner h h')

theorem attempt_effect (waiting : List ι) (asks : call.asks = some process) :
    Effect call h { (h.attempt process).2 with waiting := waiting } := by
  rcases attempt_cases rfl waiting with ⟨-, acquires⟩ | ⟨-, ⟨owner, boosts⟩ | ⟨quiet, locked⟩⟩
  · exact .inr (.inl ⟨process, asks, .inl acquires⟩)
  · exact .inr (.inl ⟨process, asks, .inr ⟨owner, boosts⟩⟩)
  · refine .inl ⟨quiet, fun unlock => ?_, fun _ => locked⟩
    rw [unlock] at asks
    cases asks

theorem unlock_effect (taken : MutexStep .unlock h h') : Effect .unlock h h' := by
  unfold MutexStep MutexCall.run Mutexed.Unlock at taken
  cases owned : h.mutex.fLockingProcess with
  | none =>
      simp only [owned, Option.some.injEq] at taken
      rw [← taken]
      exact .inl ⟨.refl, fun _ => owned, fun asks => absurd rfl asks⟩
  | some owner =>
      refine .inr (.inr ⟨rfl, owner, ?_⟩)
      by_cases boosted : h.mutex.fOwnerOriginalAffinity = .kInvalid
      · simp only [owned, boosted, ne_eq, not_true_eq_false, if_false, Option.some.injEq] at taken
        rw [← taken]
        exact ⟨owned, fun p => by simp [boosted, MutexHistory.affinity], rfl, rfl, rfl, rfl⟩
      · simp only [owned, boosted, ne_eq, not_false_eq_true, if_true, Option.some.injEq] at taken
        rw [← taken]
        refine ⟨owned, fun p => ?_, rfl, rfl, rfl, rfl⟩
        by_cases same : p = owner
        · simp [same, boosted, MutexHistory.affinity]
        · simp [same, MutexHistory.affinity, affinity_set_other same]

theorem step_effect (taken : MutexStep call h h') : Effect call h h' := by
  cases call with
  | unlock => exact unlock_effect taken
  | status process kind =>
      obtain rfl := Option.some.inj taken
      refine .inl ⟨⟨fun p => ?_, rfl, rfl, rfl, rfl⟩, nofun, fun asks => absurd rfl asks⟩
      simp [MutexHistory.affinity]
  | lock process =>
      cases process with
      | none =>
          obtain rfl := Option.some.inj taken
          exact .inl ⟨.refl, nofun, fun asks => absurd rfl asks⟩
      | some process =>
          obtain rfl := Option.some.inj taken
          exact attempt_effect _ rfl
  | waited process =>
      unfold MutexStep MutexCall.run at taken
      dsimp only at taken
      split at taken
      · obtain rfl := Option.some.inj taken
        exact attempt_effect _ rfl
      · cases taken
  | lockAndWait process timer =>
      cases timer with
      | false =>
          obtain rfl := Option.some.inj taken
          exact .inl ⟨.refl, nofun, fun asks => absurd rfl asks⟩
      | true =>
          cases process with
          | none =>
              obtain rfl := Option.some.inj taken
              exact .inl ⟨.refl, nofun, fun asks => absurd rfl asks⟩
          | some process =>
              unfold MutexStep MutexCall.run at taken
              dsimp only at taken
              cases tried : h.attempt process with
              | mk r h₁ =>
                  have effect (waiting : List ι) :
                      Effect (.lockAndWait (some process) true) h { (h.attempt process).2 with waiting := waiting } :=
                    attempt_effect waiting rfl
                  rw [tried] at effect
                  cases r with
                  | true =>
                      simp only [tried, Option.some.injEq] at taken
                      rw [← taken]
                      exact effect _
                  | false =>
                      simp only [tried, Option.some.injEq] at taken
                      rw [← taken]
                      exact effect _

theorem mutexStep_functional (call : MutexCall ι) (h h' h'' : MutexHistory ι) (first : MutexStep call h h')
    (second : MutexStep call h h'') : h' = h'' := Option.some.inj (first.symm.trans second)

end Steps

/-! ## Exclusion -/

section Exclusion
variable {ι : Type*} {h h' : MutexHistory ι} {call : MutexCall ι}

/-- At most one process has had an acquiring call answered with `Yes` and no `Unlock` since. -/
def Exclusive (h : MutexHistory ι) : Prop := ∀ p ∈ h.held, ∀ q ∈ h.held, p = q

/-- The owner runs when another process asks for the mutex. -/
def OwnerRuns (call : MutexCall ι) (h : MutexHistory ι) : Prop :=
  ∀ p, call.asks = some p → ∀ owner, h.mutex.fLockingProcess = some owner → owner ≠ p →
    (h.processes owner).Status = .kRunning

def HeldByOwner (h : MutexHistory ι) : Prop := ∀ p, p ∈ h.held ↔ h.mutex.fLockingProcess = some p

theorem HeldByOwner.exclusive (owned : HeldByOwner h) : Exclusive h := by
  intro p first q second
  exact Option.some.inj (((owned p).mp first).symm.trans ((owned q).mp second))

theorem Quiet.heldByOwner (quiet : Quiet h h') (owned : HeldByOwner h) : HeldByOwner h' := by
  intro p
  rw [quiet.held, quiet.mutex]
  exact owned p

variable [DecidableEq ι]

theorem Acquires.exclusive_iff {process : ι} (acquires : Acquires process h h') (owned : HeldByOwner h) :
    (Exclusive h' ↔ ∀ owner, h.mutex.fLockingProcess = some owner → owner = process) ∧
      (Exclusive h' → HeldByOwner h') := by
  have alone (exclusive : Exclusive h') (p : ι) (member : p ∈ h'.held) : p = process :=
    exclusive p member process (by simp [acquires.held])
  refine ⟨⟨fun exclusive owner locked => ?_, fun same p first q second => ?_⟩, fun exclusive p => ?_⟩
  · apply alone exclusive
    simp [acquires.held, (owned owner).mpr locked]
  · rw [acquires.held] at first second
    have only {p : ι} (member : p ∈ process :: h.held) : p = process := by
      rcases List.mem_cons.mp member with here | before
      · exact here
      · exact same p ((owned p).mp before)
    rw [only first, only second]
  · rw [acquires.mutex]
    constructor
    · intro member
      simp [alone exclusive p member]
    · intro locked
      obtain rfl := Option.some.inj locked
      simp [acquires.held]

theorem step_exclusive (owned : HeldByOwner h) (taken : MutexStep call h h') :
    (Exclusive h' ↔ OwnerRuns call h) ∧ (Exclusive h' → HeldByOwner h') := by
  rcases step_effect taken with ⟨quiet, -, locked⟩ | ⟨p, asks, acquires | ⟨owner, boosts⟩⟩ | ⟨rfl, owner, releases⟩
  · have next := quiet.heldByOwner owned
    refine ⟨⟨fun _ p asks owner locks _ => ?_, fun _ => next.exclusive⟩, fun _ => next⟩
    obtain ⟨locker, meets⟩ := Option.isSome_iff_exists.mp (locked (by simp [asks]))
    obtain ⟨same, running⟩ := locker_iff.mp meets
    obtain rfl := Option.some.inj (same.symm.trans locks)
    exact running
  · obtain ⟨iff, next⟩ := acquires.exclusive_iff owned
    refine ⟨iff.trans ⟨fun alone q asks' owner locks other => ?_, fun runs owner locks => ?_⟩, next⟩
    · obtain rfl := Option.some.inj (asks.symm.trans asks')
      exact absurd (alone owner locks) other
    · by_contra other
      exact locker_none.mp acquires.free owner locks (runs p asks owner locks other)
  · have next : HeldByOwner h' := fun q => by
      rw [boosts.held, boosts.mutex]
      exact (owned q).trans (by rw [boosts.owned])
    refine ⟨⟨fun _ q _ owner' locks _ => ?_, fun _ => next.exclusive⟩, fun _ => next⟩
    obtain rfl := Option.some.inj (boosts.owned.symm.trans locks)
    exact boosts.running
  · have next : HeldByOwner h' := fun q => by simp [releases.held, releases.mutex]
    refine ⟨⟨fun _ p asks => ?_, fun _ => next.exclusive⟩, fun _ => next⟩
    cases asks

/-- A mutex is held by one process throughout a run exactly if nobody asks for it while its owner stands still. -/
theorem mutex_exclusive_iff {processes : ι → UserProcess} {calls : List (MutexCall ι)}
    (run : Run MutexStep (.start processes) calls h) :
    Everywhere MutexStep Exclusive (.start processes) calls ↔
      AllSteps MutexStep OwnerRuns (.start processes) calls := by
  have initial : HeldByOwner (MutexHistory.start processes) := fun p => by simp [MutexHistory.start, unlocked]
  exact everywhere_iff mutexStep_functional run initial (fun _ owned => owned.exclusive)
    (fun _ _ _ owned taken => (step_exclusive owned taken).1) (fun _ _ _ owned taken => (step_exclusive owned taken).2)

/-- Two processes of the team's default affinity, running. -/
def pair (_ : Bool) : UserProcess := { zeroProcess with Status := .kRunning, Affinity := .kStandard }

def frozenCalls : List (MutexCall Bool) := [.lock (some true), .status true .kFrozen, .lock (some false)]

theorem frozen_run : ∃ h, Run MutexStep (.start pair) frozenCalls h ∧ h.held = [false, true] :=
  ⟨_, .cons rfl (.cons rfl (.cons rfl (.nil _))), rfl⟩

theorem frozen_exclusive_iff : Everywhere MutexStep Exclusive (.start pair) frozenCalls ↔
    AllSteps MutexStep OwnerRuns (.start pair) frozenCalls :=
  mutex_exclusive_iff (.cons rfl (.cons rfl (.cons rfl (.nil _))))

/-- An owner that is put to sleep loses the mutex to the next process that asks. -/
theorem frozen_not_exclusive : ¬ ∀ (processes : Bool → UserProcess) calls h,
    Run MutexStep (.start processes) calls h → Exclusive h := by
  intro every
  obtain ⟨h, run, both⟩ := frozen_run
  have same := every pair frozenCalls h run false (by simp [both]) true (by simp [both])
  cases same

end Exclusion

/-! ## Inherited affinities -/

section Inheritance
variable {ι : Type*} {h h' : MutexHistory ι} {call : MutexCall ι}

/-- A process that no longer holds the mutex has the affinity it acquired it with. -/
def Restored (h : MutexHistory ι) : Prop :=
  ∀ p a, h.acquired p = some a → h.mutex.fLockingProcess ≠ some p → h.affinity p = a

/-- The owner was boosted once at most when it unlocks, and not at all when another process takes the mutex. -/
def BoostedOnce (call : MutexCall ι) (h : MutexHistory ι) : Prop :=
  ∀ owner, h.mutex.fLockingProcess = some owner →
    (call = .unlock → h.boosts ≤ 1) ∧
    ∀ p, call.asks = some p → owner ≠ p → (h.processes owner).Status ≠ .kRunning → h.boosts = 0

/-- The owner's affinity and the saved one, by the number of boosts. -/
def Saved (h : MutexHistory ι) (owner : ι) (a : AffinityKind) : Prop :=
  match h.boosts with
  | 0 => h.affinity owner = a ∧ h.mutex.fOwnerOriginalAffinity = .kInvalid
  | 1 => h.affinity owner < a ∧ h.mutex.fOwnerOriginalAffinity = a
  | _ => h.affinity owner < h.mutex.fOwnerOriginalAffinity ∧ h.mutex.fOwnerOriginalAffinity < a

structure Inherits (h : MutexHistory ι) : Prop where
  restored : Restored h
  saved : ∀ owner, h.mutex.fLockingProcess = some owner → ∃ a, h.acquired owner = some a ∧ Saved h owner a

theorem ne_invalid_of_lt {a b : AffinityKind} (lower : a < b) : b ≠ .kInvalid := by
  rintro rfl
  revert lower
  cases a <;> decide

theorem Saved.eq_iff {owner : ι} {a : AffinityKind} (saved : Saved h owner a) :
    h.affinity owner = a ↔ h.boosts = 0 := by
  unfold Saved at saved
  split at saved
  · rename_i none
    simp [none, saved.1]
  · rename_i one
    simp [one, saved.1.ne]
  · rename_i zero one
    exact ⟨fun same => absurd same (saved.1.trans saved.2).ne, fun none => absurd none zero⟩

theorem Quiet.saved {owner : ι} {a : AffinityKind} (quiet : Quiet h h') : Saved h' owner a ↔ Saved h owner a := by
  unfold Saved
  rw [quiet.boosts, quiet.mutex, quiet.affinity]

theorem Quiet.inherits (quiet : Quiet h h') (inherits : Inherits h) : Inherits h' := by
  constructor
  · intro p a acquired
    rw [quiet.acquired] at acquired
    rw [quiet.mutex, quiet.affinity]
    exact inherits.restored p a acquired
  · intro owner locks
    rw [quiet.mutex] at locks
    rw [quiet.acquired]
    simp only [quiet.saved]
    exact inherits.saved owner locks

variable [DecidableEq ι] {process owner : ι}

theorem Acquires.restored_iff (acquires : Acquires process h h') (inherits : Inherits h) :
    Restored h' ↔ ∀ owner, h.mutex.fLockingProcess = some owner → owner ≠ process → h.boosts = 0 := by
  constructor
  · intro restored owner locks other
    obtain ⟨a, acquired, saved⟩ := inherits.saved owner locks
    rw [← saved.eq_iff, ← acquires.affinity]
    apply restored
    · rw [acquires.acquired, if_neg other, acquired]
    · rw [acquires.mutex]
      exact fun same => other (Option.some.inj same).symm
  · intro unboosted p a acquired left
    have other : p ≠ process := fun same => left (by rw [acquires.mutex, same])
    rw [acquires.acquired, if_neg other] at acquired
    rw [acquires.affinity]
    by_cases locks : h.mutex.fLockingProcess = some p
    · obtain ⟨a', acquired', saved⟩ := inherits.saved p locks
      obtain rfl := Option.some.inj (acquired'.symm.trans acquired)
      exact saved.eq_iff.mpr (unboosted p locks other)
    · exact inherits.restored p a acquired locks

theorem Acquires.inherits (acquires : Acquires process h h') (restored : Restored h') : Inherits h' := by
  refine ⟨restored, fun owner locks => ?_⟩
  rw [acquires.mutex] at locks
  obtain rfl := Option.some.inj locks
  refine ⟨h.affinity process, by rw [acquires.acquired, if_pos rfl], ?_⟩
  rw [Saved, acquires.boosts]
  exact ⟨acquires.affinity process, by rw [acquires.mutex]⟩

theorem Boosts.inherits (boosts : Boosts process owner h h') (inherits : Inherits h) : Inherits h' := by
  have higher := boosts.higher
  constructor
  · intro p a acquired left
    rw [boosts.acquired] at acquired
    have other : p ≠ owner := fun same => left (by rw [boosts.mutex, same])
    rw [boosts.affinity, if_neg other]
    exact inherits.restored p a acquired fun locks => other (Option.some.inj (locks.symm.trans boosts.owned))
  · intro p locks
    rw [boosts.mutex] at locks
    obtain rfl := Option.some.inj locks
    obtain ⟨a, acquired, saved⟩ := inherits.saved owner boosts.owned
    refine ⟨a, by rw [boosts.acquired, acquired], ?_⟩
    unfold Saved at saved ⊢
    rw [boosts.boosts, boosts.mutex, boosts.affinity, if_pos rfl]
    match count : h.boosts with
    | 0 =>
        rw [count] at saved
        exact ⟨saved.1 ▸ higher, saved.1⟩
    | 1 =>
        rw [count] at saved
        exact ⟨higher, saved.1⟩
    | n + 2 =>
        rw [count] at saved
        exact ⟨higher, saved.1.trans saved.2⟩

theorem Releases.restored_iff (releases : Releases owner h h') (inherits : Inherits h) :
    Restored h' ↔ h.boosts ≤ 1 := by
  obtain ⟨a, acquired, saved⟩ := inherits.saved owner releases.owned
  have own : h'.affinity owner = a ↔ h.boosts ≤ 1 := by
    rw [releases.affinity]
    unfold Saved at saved
    split at saved
    · rename_i none
      simp [saved.2, saved.1, none]
    · rename_i one
      have valid : h.mutex.fOwnerOriginalAffinity ≠ .kInvalid := saved.2 ▸ ne_invalid_of_lt saved.1
      simp [saved.2, one, saved.2 ▸ valid]
    · rename_i zero one
      have more : ¬ h.boosts ≤ 1 := fun once => (Nat.le_one_iff_eq_zero_or_eq_one.mp once).elim zero one
      simp [ne_invalid_of_lt saved.1, saved.2.ne, more]
  rw [← own]
  constructor
  · intro restored
    apply restored
    · rw [releases.acquired, acquired]
    · rw [releases.mutex]
      exact nofun
  · intro same p a' acquired' _
    rw [releases.acquired] at acquired'
    by_cases here : p = owner
    · rw [here] at acquired' ⊢
      rw [same]
      exact Option.some.inj (acquired.symm.trans acquired')
    · rw [releases.affinity, if_neg fun both => here both.1]
      exact inherits.restored p a' acquired' fun locks => here (Option.some.inj (locks.symm.trans releases.owned))

theorem step_restored (inherits : Inherits h) (taken : MutexStep call h h') :
    (Restored h' ↔ BoostedOnce call h) ∧ (Restored h' → Inherits h') := by
  rcases step_effect taken with ⟨quiet, free, locked⟩ | ⟨p, asks, acquires | ⟨owner, boosts⟩⟩ | ⟨rfl, owner, releases⟩
  · have next := quiet.inherits inherits
    refine ⟨⟨fun _ owner locks => ⟨fun unlock => ?_, fun p asks _ stopped => ?_⟩, fun _ => next.restored⟩,
      fun _ => next⟩
    · rw [free unlock] at locks
      cases locks
    · obtain ⟨locker, meets⟩ := Option.isSome_iff_exists.mp (locked (by simp [asks]))
      obtain ⟨same, running⟩ := locker_iff.mp meets
      obtain rfl := Option.some.inj (same.symm.trans locks)
      exact absurd running stopped
  · refine ⟨(acquires.restored_iff inherits).trans
      ⟨fun none owner locks => ⟨fun unlock => ?_, fun q asks' other _ => ?_⟩,
      fun once owner locks other => ?_⟩, acquires.inherits⟩
    · rw [unlock] at asks
      cases asks
    · obtain rfl := Option.some.inj (asks.symm.trans asks')
      exact none owner locks other
    · exact (once owner locks).2 p asks other (locker_none.mp acquires.free owner locks)
  · have next := boosts.inherits inherits
    refine ⟨⟨fun _ owner' locks => ⟨fun unlock => ?_, fun q _ _ stopped => ?_⟩, fun _ => next.restored⟩, fun _ => next⟩
    · rw [unlock] at asks
      cases asks
    · obtain rfl := Option.some.inj (boosts.owned.symm.trans locks)
      exact absurd boosts.running stopped
  · refine ⟨(releases.restored_iff inherits).trans ⟨fun once owner' locks => ⟨fun _ => once, fun q asks => ?_⟩,
      fun once => (once owner releases.owned).1 rfl⟩, fun restored => ⟨restored, fun owner' locks => ?_⟩⟩
    · cases asks
    · rw [releases.mutex] at locks
      cases locks

/-- Affinities are given back throughout a run exactly if no owner is boosted twice before it unlocks, and none
that was boosted loses the mutex while it stands still. -/
theorem affinity_restored_iff {processes : ι → UserProcess} {calls : List (MutexCall ι)}
    (run : Run MutexStep (.start processes) calls h) :
    Everywhere MutexStep Restored (.start processes) calls ↔
      AllSteps MutexStep BoostedOnce (.start processes) calls := by
  have initial : Inherits (MutexHistory.start processes) := by
    constructor
    · intro p a acquired
      cases acquired
    · intro owner locks
      cases locks
  exact everywhere_iff mutexStep_functional run initial (fun _ inherits => inherits.restored)
    (fun _ _ _ inherits taken => (step_restored inherits taken).1)
    (fun _ _ _ inherits taken => (step_restored inherits taken).2)

/-- An owner and two processes of higher affinity. -/
def waiters (pointer : Fin 3) : UserProcess :=
  { zeroProcess with
    Status := .kRunning
    Affinity := match pointer with
      | 0 => .kStandard
      | 1 => .kHigh
      | 2 => .kVeryHigh }

def boostCalls : List (MutexCall (Fin 3)) := [.lock (some 0), .lock (some 1), .lock (some 2), .unlock]

theorem boost_restored_iff : Everywhere MutexStep Restored (.start waiters) boostCalls ↔
    AllSteps MutexStep BoostedOnce (.start waiters) boostCalls :=
  affinity_restored_iff (.cons rfl (.cons rfl (.cons rfl (.cons rfl (.nil _)))))

/-- The second boost saves what the first one set. -/
theorem second_boost_kept : ¬ ∀ (processes : Fin 3 → UserProcess) calls h,
    Run MutexStep (.start processes) calls h → Restored h := by
  intro every
  have restored := every waiters boostCalls _ (.cons rfl (.cons rfl (.cons rfl (.cons rfl (.nil _)))))
  exact absurd (restored 0 .kStandard rfl nofun) (by decide)

end Inheritance

end Ne.Kernel.Sched
