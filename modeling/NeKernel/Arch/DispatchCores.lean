import NeKernel.Arch.SystemCalls
import NeKernel.Lib.SpinFlag

/-!
# The dispatch table on several cores

`hali_install_dispatch` and `hal_call_enter` each spin on a static flag of their own, so a table may be
written while it is searched. A caller is one activation of either function, and every access to a slot is
a step, in an order that all cores agree on. Whatever the order, the slots are bound one after the other and a
call sees each of them before or after it is bound.
-/

namespace Ne.Kernel.Arch
open ByteMem Runs SpinFlag

/-- Where each `kLocked` is a static of. -/
inductive DispatchLock where
  | hali_install_dispatch
  | hal_call_enter
  deriving DecidableEq

inductive DispatchCall (P : Type*) where
  | install (name : Option (List Byte)) (proc : Option P)
  | enter (rcxHash arg : UIntPtr)

/-- What a function came back with. A call through a procedure that is not there is a `fault`. -/
inductive DispatchResult (P : Type*) where
  | slot (i : Option Nat)
  | ran (proc : P) (arg : UIntPtr)
  | nothing
  | fault

inductive DispatchPoint (P : Type*) where
  | entry
  | spin
  | scan (i : Nat)
  | storeHash (i : Nat)
  | storeProc (i : Nat)
  | storeHooked (i : Nat)
  | compare (i : Nat)
  | test (i : Nat)
  | release (i : Nat)
  | call (i : Nat)
  | clear (result : DispatchResult P)
  | returned (result : DispatchResult P)
  /-- Behind `MUST_PASS`. -/
  | stop

structure DispatchCores (ι P : Type*) where
  kDispatchCalls : SysCalls P
  locked : DispatchLock → Bool
  calls : ι → Option (DispatchCall P × DispatchPoint P)

inductive DispatchStep (ι P : Type*) where
  | begin (caller : ι) (call : DispatchCall P)
  | next (caller : ι)

section Steps
variable {ι P : Type*}

def DispatchCall.lock : DispatchCall P → DispatchLock
  | .install .. => .hali_install_dispatch
  | .enter .. => .hal_call_enter

/-- From the end of the spinning to the clear of the flag. -/
def DispatchPoint.inside : DispatchPoint P → Bool
  | .entry => false
  | .spin => false
  | .call _ => false
  | .returned _ => false
  | .stop => false
  | _ => true

/-- Where a step of `hali_install_dispatch` leads, the spinning apart. -/
def installNext (table : SysCalls P) (name : Option (List Byte)) (proc : Option P) : DispatchPoint P → DispatchPoint P
  | .entry =>
      if unnamed name then .returned (.slot none)
      else if proc.isNone then .returned (.slot none)
      else if keHash64 name = 0 then .stop
      else .spin
  | .scan i =>
      if i < kMaxDispatchCallCount then if (table i).fHooked then .scan (i + 1) else .storeHash i
      else .clear (.slot none)
  | .storeHash i => .storeProc i
  | .storeProc i => .storeHooked i
  | .storeHooked i => .clear (.slot (some i))
  | .clear result => .returned result
  | point => point

/-- The same for `hal_call_enter`. The procedure is read once more when it is called. -/
def enterNext (table : SysCalls P) (rcxHash arg : UIntPtr) : DispatchPoint P → DispatchPoint P
  | .entry =>
      if arg = 0 ∨ rcxHash = 0 then .returned .nothing
      else if rcxHash = BitVec.allOnes 64 then .stop
      else .spin
  | .scan i =>
      if i < kMaxDispatchCallCount then if (table i).fHooked then .compare i else .scan (i + 1)
      else .clear .nothing
  | .compare i => if rcxHash = (table i).fHash then .test i else .scan (i + 1)
  | .test i => if (table i).fProc.isSome then .release i else .scan (i + 1)
  | .release i => .call i
  | .call i =>
      match (table i).fProc with
      | some proc => .returned (.ran proc arg)
      | none => .returned .fault
  | .clear result => .returned result
  | point => point

def DispatchCall.next (table : SysCalls P) : DispatchCall P → DispatchPoint P → DispatchPoint P
  | .install name proc => installNext table name proc
  | .enter rcxHash arg => enterNext table rcxHash arg

/-- What a step of an installation stores. -/
def DispatchCall.store (table : SysCalls P) : DispatchCall P → DispatchPoint P → SysCalls P
  | .install name _, .storeHash i => Function.update table i { table i with fHash := keHash64 name }
  | .install _ proc, .storeProc i => Function.update table i { table i with fProc := proc }
  | .install .., .storeHooked i => Function.update table i { table i with fHooked := true }
  | _, _ => table

def DispatchPoint.clears : DispatchPoint P → Bool
  | .clear _ => true
  | .release _ => true
  | _ => false

def DispatchCores.start : DispatchCores ι P := ⟨kSysCalls, fun _ => false, fun _ => none⟩

variable [DecidableEq ι]

def DispatchCores.goTo (s : DispatchCores ι P) (caller : ι) (call : DispatchCall P) (point : DispatchPoint P) :
    DispatchCores ι P :=
  { s with calls := Function.update s.calls caller (some (call, point)) }

def DispatchStep.run (step : DispatchStep ι P) (s : DispatchCores ι P) : Option (DispatchCores ι P) :=
  match step with
  | .begin caller call => if (s.calls caller).isSome then none else some (s.goTo caller call .entry)
  | .next caller =>
      match s.calls caller with
      | none => none
      | some (_, .stop) => none
      | some (_, .returned _) => none
      | some (call, .spin) =>
          -- test_and_set returns what the flag was
          let s' := { s with locked := Function.update s.locked call.lock true }
          some (s'.goTo caller call (if s.locked call.lock then .spin else .scan 0))
      | some (call, point) =>
          let locked := if point.clears then Function.update s.locked call.lock false else s.locked
          some ((⟨call.store s.kDispatchCalls point, locked, s.calls⟩ : DispatchCores ι P).goTo caller call
            (call.next s.kDispatchCalls point))

def Dispatches (step : DispatchStep ι P) (s s' : DispatchCores ι P) : Prop := step.run s = some s'

end Steps

/-! ## What the points know -/

section Knowledge
variable {ι P : Type*}

def Installable (name : Option (List Byte)) (proc : Option P) : Prop :=
  ¬ unnamed name ∧ proc.isSome ∧ keHash64 name ≠ 0

/-- No slot below `i` is bound to the hash. -/
def Passed (bindings : List (BitVec 64 × P)) (hash : BitVec 64) (i : Nat) : Prop :=
  ∀ j < i, ∀ binding, bindings[j]? = some binding → binding.1 ≠ hash

/-- What an installation may rely on while it is at a point, the slots being bound as in the list. -/
def InstallKnows (table : SysCalls P) (bindings : List (BitVec 64 × P)) (name : Option (List Byte)) (proc : Option P) :
    DispatchPoint P → Prop
  | .entry => True
  | .spin => Installable name proc
  | .scan i => Installable name proc ∧ i ≤ bindings.length
  | .storeHash i => Installable name proc ∧ i = bindings.length ∧ i < kMaxDispatchCallCount
  | .storeProc i => Installable name proc ∧ i = bindings.length ∧ i < kMaxDispatchCallCount ∧
      (table i).fHash = keHash64 name
  | .storeHooked i => Installable name proc ∧ i = bindings.length ∧ i < kMaxDispatchCallCount ∧
      (table i).fHash = keHash64 name ∧ (table i).fProc = proc
  | .clear (.slot none) => bindings.length = kMaxDispatchCallCount
  | .returned (.slot none) => Installable name proc → bindings.length = kMaxDispatchCallCount
  | .clear (.slot (some i)) => ∃ p, proc = some p ∧ bindings[i]? = some (keHash64 name, p)
  | .returned (.slot (some i)) => ∃ p, proc = some p ∧ bindings[i]? = some (keHash64 name, p)
  | .stop => keHash64 name = 0
  | _ => False

/-- The same for a call, which has gone through the slots that were bound when it began. -/
def EnterKnows (earlier bindings : List (BitVec 64 × P)) (rcxHash arg : UIntPtr) : DispatchPoint P → Prop
  | .entry => True
  | .spin => True
  | .stop => rcxHash = BitVec.allOnes 64
  | .scan i => Passed earlier rcxHash i
  | .compare i => Passed earlier rcxHash i ∧ i < bindings.length
  | .test i => Passed earlier rcxHash i ∧ ∃ p, bindings[i]? = some (rcxHash, p)
  | .release i => Passed earlier rcxHash i ∧ ∃ p, bindings[i]? = some (rcxHash, p)
  | .call i => Passed earlier rcxHash i ∧ ∃ p, bindings[i]? = some (rcxHash, p)
  | .clear .nothing => bound earlier rcxHash = none
  | .returned .nothing => arg = 0 ∨ rcxHash = 0 ∨ bound earlier rcxHash = none
  | .returned (.ran p given) => given = arg ∧ ∃ i, Passed earlier rcxHash i ∧ bindings[i]? = some (rcxHash, p)
  | _ => False

def DispatchCall.Knows (table : SysCalls P) (earlier bindings : List (BitVec 64 × P)) :
    DispatchCall P → DispatchPoint P → Prop
  | .install name proc => InstallKnows table bindings name proc
  | .enter rcxHash arg => EnterKnows earlier bindings rcxHash arg

def DispatchInside (s : DispatchCores ι P) (lock : DispatchLock) (caller : ι) : Prop :=
  ∃ call point, s.calls caller = some (call, point) ∧ call.lock = lock ∧ point.inside = true

/-- The installation has bound slot `i`. -/
def BoundBy (s : DispatchCores ι P) (caller : ι) (i : Nat) : Prop :=
  ∃ name proc, s.calls caller = some (.install name proc, .clear (.slot (some i))) ∨
    s.calls caller = some (.install name proc, .returned (.slot (some i)))

structure DispatchInv (s : DispatchCores ι P) (bindings : List (BitVec 64 × P))
    (earlier : ι → List (BitVec 64 × P)) : Prop where
  holds : Holds s.kDispatchCalls bindings
  guards : ∀ lock, Guards (s.locked lock) (DispatchInside s lock)
  early : ∀ caller, earlier caller <+: bindings
  knows : ∀ caller call point, s.calls caller = some (call, point) →
    call.Knows s.kDispatchCalls (earlier caller) bindings point
  once : ∀ p q i, BoundBy s p i → BoundBy s q i → p = q
  owned : ∀ i < bindings.length, ∃ p, BoundBy s p i

variable {table : SysCalls P} {bindings earlier more : List (BitVec 64 × P)} {name : Option (List Byte)}
  {proc : Option P} {rcxHash arg : UIntPtr} {point : DispatchPoint P} {call : DispatchCall P} {i : Nat}
  {entry : HalDispatchEntry P}

theorem Holds.update_free (holds : Holds table bindings) (outside : bindings.length ≤ i)
    (free : entry.fHooked = false) : Holds (Function.update table i entry) bindings := by
  refine ⟨holds.room, fun j binding found => ?_, fun j high => ?_⟩
  · have inside := (List.getElem?_eq_some_iff.mp found).1
    rw [Function.update_of_ne (by omega)]
    exact holds.hooked j binding found
  · by_cases same : j = i
    · rw [same, Function.update_self, free]
    · rw [Function.update_of_ne same]
      exact holds.free j high

theorem Holds.hooked_iff (holds : Holds table bindings) : (table i).fHooked = true ↔ i < bindings.length := by
  constructor
  · intro hooked
    by_contra outside
    rw [holds.free i (by omega)] at hooked
    cases hooked
  · intro inside
    rw [holds.hooked i bindings[i] (by simp [inside])]

theorem Holds.entry_eq (holds : Holds table bindings) (inside : i < bindings.length) :
    table i = ⟨bindings[i].1, true, some bindings[i].2⟩ :=
  holds.hooked i bindings[i] (by simp [inside])

theorem Passed.succ (passed : Passed bindings rcxHash i)
    (other : ∀ binding, bindings[i]? = some binding → binding.1 ≠ rcxHash) : Passed bindings rcxHash (i + 1) := by
  intro j low
  rcases Nat.lt_succ_iff_lt_or_eq.mp low with lower | rfl
  · exact passed j lower
  · exact other

theorem passed_all_iff (room : bindings.length ≤ i) : Passed bindings rcxHash i ↔ bound bindings rcxHash = none := by
  unfold bound
  rw [Option.map_eq_none_iff, List.find?_eq_none]
  constructor
  · intro passed binding member
    obtain ⟨j, low, rfl⟩ := List.mem_iff_getElem.mp member
    simpa using passed j (by omega) bindings[j] (by simp [low])
  · intro none j _ binding found same
    exact none binding (List.mem_of_getElem? found) (by simpa using same)

theorem Passed.bound_eq {p : P} (passed : Passed bindings rcxHash i) (here : bindings[i]? = some (rcxHash, p)) :
    bound bindings rcxHash = some p := by
  obtain ⟨inside, same⟩ := List.getElem?_eq_some_iff.mp here
  refine Option.map_eq_some_iff.mpr ⟨(rcxHash, p), ?_, rfl⟩
  rw [List.find?_eq_some_iff_getElem]
  refine ⟨by simp, i, inside, same, fun j low => ?_⟩
  simpa using passed j low bindings[j] (by simp [show j < bindings.length by omega])

/-- What a caller knows outside of its section stays true when more slots are bound. -/
theorem DispatchCall.Knows.mono {table' : SysCalls P} (knows : call.Knows table earlier bindings point)
    (room : (bindings ++ more).length ≤ kMaxDispatchCallCount)
    (outside : point.inside = true → call.lock = .hali_install_dispatch → table' = table ∧ more = []) :
    call.Knows table' earlier (bindings ++ more) point := by
  have kept {i : Nat} {binding : BitVec 64 × P} (found : bindings[i]? = some binding) :
      (bindings ++ more)[i]? = some binding := by
    rwa [List.getElem?_append_left (List.getElem?_eq_some_iff.mp found).1]
  cases call with
  | install name proc =>
      by_cases held : point.inside = true
      · obtain ⟨rfl, rfl⟩ := outside held rfl
        rwa [List.append_nil]
      cases point with
      | entry | spin | stop => exact knows
      | returned result =>
          cases result with
          | slot i =>
              cases i with
              | none =>
                  intro valid
                  have full : bindings.length = kMaxDispatchCallCount := knows valid
                  rw [List.length_append] at room ⊢
                  omega
              | some i =>
                  obtain ⟨p, same, found⟩ := knows
                  exact ⟨p, same, kept found⟩
          | _ => exact knows
      | call i => exact knows
      | _ => exact absurd rfl held
  | enter rcxHash arg =>
      cases point with
      | compare i =>
          exact ⟨knows.1, Nat.lt_of_lt_of_le knows.2 (by simp)⟩
      | test i | release i | call i =>
          obtain ⟨passed, p, found⟩ := knows
          exact ⟨passed, p, kept found⟩
      | returned result =>
          cases result with
          | ran p given =>
              obtain ⟨same, i, passed, found⟩ := knows
              exact ⟨same, i, passed, kept found⟩
          | _ => exact knows
      | clear result => cases result <;> exact knows
      | _ => exact knows

/-- A step of an installation up to the last store leaves the bindings as they are. -/
theorem InstallKnows.next (knows : InstallKnows table bindings name proc point) (holds : Holds table bindings)
    (before : ∀ i, point ≠ .storeHooked i) :
    Holds ((DispatchCall.install name proc).store table point) bindings ∧
      InstallKnows ((DispatchCall.install name proc).store table point) bindings name proc
        (installNext table name proc point) := by
  cases point with
  | entry =>
      refine ⟨holds, ?_⟩
      unfold installNext
      dsimp only
      by_cases empty : unnamed name
      · rw [if_pos empty]
        exact fun valid => absurd empty valid.1
      rw [if_neg empty]
      by_cases missing : proc.isNone = true
      · rw [if_pos missing]
        exact fun valid => absurd valid.2.1 (by simpa using missing)
      rw [if_neg missing]
      by_cases zero : keHash64 name = 0
      · rw [if_pos zero]
        exact zero
      · rw [if_neg zero]
        exact ⟨empty, Option.isSome_iff_ne_none.mpr fun none => missing (by simp [none]), zero⟩
  | scan i =>
      obtain ⟨valid, low⟩ := knows
      refine ⟨holds, ?_⟩
      unfold installNext
      dsimp only
      by_cases room : i < kMaxDispatchCallCount
      · rw [if_pos room]
        by_cases hooked : (table i).fHooked = true
        · rw [if_pos hooked]
          exact ⟨valid, holds.hooked_iff.mp hooked⟩
        · rw [if_neg hooked]
          exact ⟨valid, Nat.le_antisymm low (Nat.not_lt.mp fun inside => hooked (holds.hooked_iff.mpr inside)), room⟩
      · rw [if_neg room]
        exact Nat.le_antisymm holds.room (by omega)
  | storeHash i =>
      obtain ⟨valid, rfl, room⟩ := knows
      refine ⟨holds.update_free le_rfl (holds.free _ le_rfl), valid, rfl, room, ?_⟩
      simp [DispatchCall.store]
  | storeProc i =>
      obtain ⟨valid, rfl, room, hash⟩ := knows
      refine ⟨holds.update_free le_rfl (holds.free _ le_rfl), valid, rfl, room, ?_⟩
      simpa [DispatchCall.store] using hash
  | storeHooked i => exact absurd rfl (before i)
  | clear result =>
      refine ⟨holds, ?_⟩
      cases result with
      | slot i =>
          cases i with
          | none => exact fun _ => knows
          | some i => exact knows
      | _ => exact knows
  | _ => exact ⟨holds, knows⟩

/-- The last store binds the slot. -/
theorem InstallKnows.hook (knows : InstallKnows table bindings name proc (.storeHooked i))
    (holds : Holds table bindings) :
    ∃ p, proc = some p ∧ i = bindings.length ∧
      Holds ((DispatchCall.install name proc).store table (.storeHooked i)) (bindings ++ [(keHash64 name, p)]) := by
  obtain ⟨valid, rfl, room, hash, runs⟩ := knows
  obtain ⟨p, rfl⟩ := Option.isSome_iff_exists.mp valid.2.1
  refine ⟨p, rfl, rfl, ?_⟩
  have stored : { table bindings.length with fHooked := true } =
      (⟨keHash64 name, true, some p⟩ : HalDispatchEntry P) := by
    rw [← hash, ← runs]
  unfold DispatchCall.store
  dsimp only
  rw [stored]
  exact holds.append room

theorem EnterKnows.next (knows : EnterKnows earlier bindings rcxHash arg point) (holds : Holds table bindings)
    (early : earlier <+: bindings) : EnterKnows earlier bindings rcxHash arg (enterNext table rcxHash arg point) := by
  have bounded : earlier.length ≤ kMaxDispatchCallCount := early.length_le.trans holds.room
  have agrees {j : Nat} {binding : BitVec 64 × P} (found : earlier[j]? = some binding) :
      bindings[j]? = some binding := by
    obtain ⟨rest, rfl⟩ := early
    rwa [List.getElem?_append_left (List.getElem?_eq_some_iff.mp found).1]
  cases point with
  | entry =>
      unfold enterNext
      dsimp only
      by_cases empty : arg = 0 ∨ rcxHash = 0
      · rw [if_pos empty]
        exact empty.imp_right .inl
      · rw [if_neg empty]
        by_cases last : rcxHash = BitVec.allOnes 64
        · rw [if_pos last]
          exact last
        · rw [if_neg last]
          trivial
  | scan i =>
      unfold enterNext
      dsimp only
      by_cases room : i < kMaxDispatchCallCount
      · rw [if_pos room]
        by_cases hooked : (table i).fHooked = true
        · rw [if_pos hooked]
          exact ⟨knows, holds.hooked_iff.mp hooked⟩
        · rw [if_neg hooked]
          refine Passed.succ knows fun binding found => ?_
          exact absurd (holds.hooked_iff.mpr (List.getElem?_eq_some_iff.mp (agrees found)).1) hooked
      · rw [if_neg room]
        exact (passed_all_iff (by omega)).mp knows
  | compare i =>
      obtain ⟨passed, inside⟩ := knows
      unfold enterNext
      dsimp only
      rw [holds.entry_eq inside]
      by_cases here : rcxHash = bindings[i].1
      · rw [if_pos here]
        exact ⟨passed, bindings[i].2, by rw [List.getElem?_eq_getElem inside, here]⟩
      · rw [if_neg here]
        refine passed.succ fun binding found same => here ?_
        rw [← same, (List.getElem?_eq_some_iff.mp (agrees found)).2]
  | test i =>
      obtain ⟨passed, p, found⟩ := knows
      unfold enterNext
      dsimp only
      rw [holds.hooked i _ found, if_pos Option.isSome_some]
      exact ⟨passed, p, found⟩
  | call i =>
      obtain ⟨passed, p, found⟩ := knows
      unfold enterNext
      dsimp only
      rw [holds.hooked i _ found]
      exact ⟨rfl, i, passed, found⟩
  | clear result =>
      cases result with
      | nothing => exact .inr (.inr knows)
      | _ => exact knows.elim
  | _ => exact knows

theorem DispatchCall.Knows.next_inside (knows : call.Knows table earlier bindings point)
    (held : (call.next table point).inside = true) :
    point = .spin ∨ (point.inside = true ∧ point.clears = false) := by
  cases call with
  | install name proc =>
      cases point with
      | entry =>
          simp only [DispatchCall.next, installNext] at held
          split_ifs at held <;> cases held
      | spin => exact .inl rfl
      | clear => cases held
      | release => exact knows.elim
      | call => exact knows.elim
      | returned => cases held
      | stop => cases held
      | _ => exact .inr ⟨rfl, rfl⟩
  | enter rcxHash arg =>
      cases point with
      | entry =>
          simp only [DispatchCall.next, enterNext] at held
          split_ifs at held <;> cases held
      | spin => exact .inl rfl
      | clear => cases held
      | release => cases held
      | call i =>
          simp only [DispatchCall.next, enterNext] at held
          split at held <;> cases held
      | returned => cases held
      | stop => cases held
      | _ => exact .inr ⟨rfl, rfl⟩

theorem DispatchInv.boundBy_entry {s : DispatchCores ι P} {earlier : ι → List (BitVec 64 × P)} {q : ι}
    (inv : DispatchInv s bindings earlier) (bound : BoundBy s q i) :
    ∃ name p, (∃ point, s.calls q = some (.install name (some p), point)) ∧
      bindings[i]? = some (keHash64 name, p) := by
  obtain ⟨name, proc, here | here⟩ := bound
  all_goals
    obtain ⟨p, rfl, found⟩ := inv.knows q _ _ here
    exact ⟨name, p, ⟨_, here⟩, found⟩

theorem start_dispatchInv : DispatchInv (.start : DispatchCores ι P) [] fun _ => [] := by
  refine ⟨holds_boot, fun lock => .of_none nofun, fun _ => List.nil_prefix, nofun, ?_, nofun⟩
  rintro p q i ⟨name, proc, here | here⟩ <;> cases here

/-- What the callers have done to the table, and what they have come back with. -/
structure DispatchServed (s : DispatchCores ι P) (bindings : List (BitVec 64 × P)) : Prop where
  holds : Holds s.kDispatchCalls bindings
  installed : ∀ caller name proc i, s.calls caller = some (.install name proc, .returned (.slot (some i))) →
    ∃ p, proc = some p ∧ bindings[i]? = some (keHash64 name, p)
  apart : ∀ caller other call call' i, s.calls caller = some (call, .returned (.slot (some i))) →
    s.calls other = some (call', .returned (.slot (some i))) → caller = other
  refused : ∀ caller name proc, s.calls caller = some (.install name proc, .returned (.slot none)) →
    Installable name proc → bindings.length = kMaxDispatchCallCount
  made : ∀ (i : Nat) hash p, bindings[i]? = some (hash, p) → ∃ caller name point,
    s.calls caller = some (.install name (some p), point) ∧ keHash64 name = hash
  ran : ∀ caller rcxHash arg p given, s.calls caller = some (.enter rcxHash arg, .returned (.ran p given)) →
    given = arg ∧ (rcxHash, p) ∈ bindings
  sound : ∀ caller call, s.calls caller ≠ some (call, .returned .fault)

end Knowledge

/-! ## Steps and runs -/

section Interleavings
variable {ι P : Type*} [DecidableEq ι] {s s' : DispatchCores ι P} {move : DispatchStep ι P}
  {bindings : List (BitVec 64 × P)} {earlier : ι → List (BitVec 64 × P)} {caller q : ι} {call : DispatchCall P}
  {point target : DispatchPoint P} {lock : DispatchLock}

/-- What one step of a caller that is neither spinning nor done does. -/
def DispatchCores.advance (s : DispatchCores ι P) (caller : ι) (call : DispatchCall P) (point : DispatchPoint P) :
    DispatchCores ι P :=
  (⟨call.store s.kDispatchCalls point, if point.clears then Function.update s.locked call.lock false else s.locked,
    s.calls⟩ : DispatchCores ι P).goTo caller call (call.next s.kDispatchCalls point)

def DispatchPoint.Runs (point : DispatchPoint P) : Prop :=
  point ≠ .spin ∧ point ≠ .stop ∧ ∀ result, point ≠ .returned result

theorem dispatches_cases (taken : Dispatches move s s') :
    (∃ caller call, move = .begin caller call ∧ s.calls caller = none ∧ s' = s.goTo caller call .entry) ∨
    ∃ caller call, move = .next caller ∧
      ((s.calls caller = some (call, .spin) ∧
        ((s.locked call.lock = true ∧ s' = s) ∨
          (s.locked call.lock = false ∧
            s' = ({ s with locked := Function.update s.locked call.lock true } : DispatchCores ι P).goTo caller call
              (.scan 0)))) ∨
      ∃ point, s.calls caller = some (call, point) ∧ point.Runs ∧ s' = s.advance caller call point) := by
  cases move with
  | begin caller call =>
      obtain ⟨fresh, same⟩ := Option.ite_none_left_eq_some.mp taken
      exact .inl ⟨caller, call, rfl, by simpa using fresh, (Option.some.inj same).symm⟩
  | next caller =>
      refine .inr ?_
      unfold Dispatches DispatchStep.run at taken
      dsimp only at taken
      split at taken
      · cases taken
      · cases taken
      · cases taken
      · rename_i call position
        obtain rfl := Option.some.inj taken
        refine ⟨caller, call, rfl, .inl ⟨position, ?_⟩⟩
        cases held : s.locked call.lock with
        | false => exact .inr ⟨rfl, rfl⟩
        | true =>
            refine .inl ⟨rfl, ?_⟩
            unfold DispatchCores.goTo
            rw [if_pos rfl, ← held, Function.update_eq_self, ← position, Function.update_eq_self]
      · rename_i call point stopped done spinning position
        exact ⟨caller, call, rfl, .inr ⟨point, position, ⟨spinning, stopped, done⟩, (Option.some.inj taken).symm⟩⟩

theorem dispatchInside_goTo {s₀ : DispatchCores ι P} (same : s₀.calls = s.calls) :
    DispatchInside (s₀.goTo caller call target) lock q ↔
      (q = caller ∧ call.lock = lock ∧ target.inside = true) ∨ (q ≠ caller ∧ DispatchInside s lock q) := by
  by_cases own : q = caller
  · subst own
    simp [DispatchInside, DispatchCores.goTo]
  · simp [DispatchInside, DispatchCores.goTo, same, own]

theorem boundBy_goTo {s₀ : DispatchCores ι P} {i : Nat} (same : s₀.calls = s.calls) (other : q ≠ caller) :
    BoundBy (s₀.goTo caller call target) q i ↔ BoundBy s q i := by
  simp [BoundBy, DispatchCores.goTo, same, other]

theorem store_eq (table : SysCalls P) (call : DispatchCall P) (point : DispatchPoint P) :
    call.store table point = table ∨ (call.lock = .hali_install_dispatch ∧ point.inside = true) := by
  cases call with
  | install name proc => cases point <;> first | exact .inl rfl | exact .inr ⟨rfl, rfl⟩
  | enter rcxHash arg => exact .inl rfl

theorem DispatchCall.Knows.next {table : SysCalls P} {early : List (BitVec 64 × P)}
    (knows : call.Knows table early bindings point) (holds : Holds table bindings) (earlier : early <+: bindings)
    (before : ∀ name proc i, call = .install name proc → point ≠ .storeHooked i) :
    Holds (call.store table point) bindings ∧
      call.Knows (call.store table point) early bindings (call.next table point) := by
  cases call with
  | install name proc => exact InstallKnows.next knows holds fun i => before name proc i rfl
  | enter rcxHash arg => exact ⟨holds, EnterKnows.next knows holds earlier⟩

/-- One caller moves and may bind a slot. -/
theorem DispatchInv.moved {s₀ : DispatchCores ι P} {more : List (BitVec 64 × P)} (inv : DispatchInv s bindings earlier)
    (same : s₀.calls = s.calls) (holds : Holds s₀.kDispatchCalls (bindings ++ more))
    (guards : ∀ lock, Guards (s₀.locked lock) (DispatchInside (s₀.goTo caller call target) lock))
    (others : ∀ q, q ≠ caller → DispatchInside s .hali_install_dispatch q →
      s₀.kDispatchCalls = s.kDispatchCalls ∧ more = [])
    (own : call.Knows s₀.kDispatchCalls (earlier caller) (bindings ++ more) target)
    (slots : ∀ i, BoundBy (s₀.goTo caller call target) caller i ↔
      BoundBy s caller i ∨ (bindings.length ≤ i ∧ i < (bindings ++ more).length)) :
    DispatchInv (s₀.goTo caller call target) (bindings ++ more) earlier := by
  have outside {q : ι} {i : Nat} (bound : BoundBy s q i) : i < bindings.length := by
    obtain ⟨name, p, -, found⟩ := inv.boundBy_entry bound
    exact (List.getElem?_eq_some_iff.mp found).1
  have single {q : ι} {i : Nat} (other : q ≠ caller) (bound : BoundBy (s₀.goTo caller call target) q i)
      (also : BoundBy (s₀.goTo caller call target) caller i) : False := by
    have early := (boundBy_goTo same other).mp bound
    rcases (slots i).mp also with mine | fresh
    · exact other (inv.once _ _ i early mine)
    · exact absurd (outside early) (by omega)
  refine ⟨holds, guards, fun q => (inv.early q).trans (List.prefix_append _ _), ?_, ?_, ?_⟩
  · intro q call' point here
    by_cases mine : q = caller
    · subst mine
      simp only [DispatchCores.goTo, Function.update_self, Option.some.injEq, Prod.mk.injEq] at here
      obtain ⟨rfl, rfl⟩ := here
      exact own
    · simp only [DispatchCores.goTo, Function.update_of_ne mine, same] at here
      exact (inv.knows q call' point here).mono holds.room fun held lock =>
        others q mine ⟨call', point, here, lock, held⟩
  · intro p q i first second
    by_cases mine : p = caller
    · subst mine
      by_contra other
      exact single (Ne.symm other) second first
    · by_cases its : q = caller
      · subst its
        exact (single mine first second).elim
      · exact inv.once p q i ((boundBy_goTo same mine).mp first) ((boundBy_goTo same its).mp second)
  · intro i low
    by_cases old : i < bindings.length
    · obtain ⟨p, bound⟩ := inv.owned i old
      by_cases mine : p = caller
      · subst mine
        exact ⟨p, (slots i).mpr (.inl bound)⟩
      · exact ⟨p, (boundBy_goTo same mine).mpr bound⟩
    · exact ⟨caller, (slots i).mpr (.inr ⟨by omega, low⟩)⟩

theorem DispatchInv.goTo_fewer (inv : DispatchInv s bindings earlier) (s₀ : DispatchCores ι P)
    (same : s₀.calls = s.calls) (locked : s₀.locked = s.locked)
    (before : target.inside = true → DispatchInside s call.lock caller) (lock : DispatchLock) :
    Guards (s₀.locked lock) (DispatchInside (s₀.goTo caller call target) lock) := by
  rw [locked]
  refine (inv.guards lock).mono fun q here => ?_
  rcases (dispatchInside_goTo same).mp here with ⟨rfl, rfl, held⟩ | ⟨-, here⟩
  · exact before held
  · exact here

theorem DispatchInv.advance_guards (inv : DispatchInv s bindings earlier)
    (position : s.calls caller = some (call, point)) (runs : point.Runs) (lock : DispatchLock) :
    Guards ((s.advance caller call point).locked lock) (DispatchInside (s.advance caller call point) lock) := by
  have staying (held : (call.next s.kDispatchCalls point).inside = true) :
      point.inside = true ∧ point.clears = false :=
    ((inv.knows caller call point position).next_inside held).resolve_left runs.1
  cases clears : point.clears with
  | false =>
      have locked : (if point.clears then Function.update s.locked call.lock false else s.locked) = s.locked :=
        if_neg (by simp [clears])
      exact inv.goTo_fewer ⟨call.store s.kDispatchCalls point, _, s.calls⟩ rfl locked
        (fun held => ⟨call, point, position, rfl, (staying held).1⟩) lock
  | true =>
      have here : DispatchInside s call.lock caller := by
        refine ⟨call, point, position, rfl, ?_⟩
        cases point <;> first | rfl | cases clears
      have left (lock : DispatchLock) (q : ι) (still : DispatchInside (s.advance caller call point) lock q) :
          DispatchInside s lock q ∧ q ≠ caller := by
        rcases (dispatchInside_goTo rfl).mp still with ⟨-, -, held⟩ | ⟨other, still⟩
        · exact absurd (staying held).2 (by simp [clears])
        · exact ⟨still, other⟩
      unfold DispatchCores.advance DispatchCores.goTo
      dsimp only
      rw [if_pos clears]
      by_cases own : lock = call.lock
      · rw [own, Function.update_self]
        exact (inv.guards call.lock).leave here (left call.lock)
      · rw [Function.update_of_ne own]
        exact (inv.guards lock).mono fun q still => (left lock q still).1

theorem boundBy_next {table : SysCalls P} {i : Nat} {s₀ : DispatchCores ι P}
    (position : s.calls caller = some (call, point)) (runs : point.Runs)
    (before : ∀ name proc j, call = .install name proc → point ≠ .storeHooked j)
    (knows : call.Knows s.kDispatchCalls (earlier caller) bindings point) :
    BoundBy (s₀.goTo caller call (call.next table point)) caller i ↔ BoundBy s caller i := by
  unfold BoundBy DispatchCores.goTo
  dsimp only
  rw [Function.update_self, position]
  cases call with
  | enter rcxHash arg => simp
  | install name proc =>
      cases point with
      | entry =>
          simp only [DispatchCall.next, installNext]
          split_ifs <;> simp
      | scan j =>
          simp only [DispatchCall.next, installNext]
          split_ifs <;> simp
      | storeHooked j => exact absurd rfl (before name proc j rfl)
      | returned result => exact absurd rfl (runs.2.2 result)
      | _ => simp [DispatchCall.next, installNext]

theorem DispatchInv.advance (inv : DispatchInv s bindings earlier) (position : s.calls caller = some (call, point))
    (runs : point.Runs) : ∃ more, DispatchInv (s.advance caller call point) (bindings ++ more) earlier := by
  have knows := inv.knows caller call point position
  have guards := inv.advance_guards position runs
  by_cases binds : ∃ name proc i, call = .install name proc ∧ point = .storeHooked i
  · obtain ⟨name, proc, i, rfl, rfl⟩ := binds
    obtain ⟨p, rfl, rfl, holds⟩ := InstallKnows.hook knows inv.holds
    refine ⟨[(keHash64 name, p)], inv.moved rfl holds guards ?_ ?_ ?_⟩
    · intro q other inside
      have here : DispatchInside s .hali_install_dispatch caller := ⟨_, _, position, rfl, rfl⟩
      exact absurd ((inv.guards _).exclusive q caller inside here) other
    · exact ⟨p, rfl, by simp⟩
    · intro i
      simp only [BoundBy, DispatchCores.goTo, Function.update_self, position, DispatchCall.next, installNext,
        List.length_append, List.length_singleton]
      simp
      omega
  · have still (name : Option (List Byte)) (proc : Option P) (i : Nat) (same : call = .install name proc) :
        point ≠ .storeHooked i := fun last => binds ⟨name, proc, i, same, last⟩
    refine ⟨[], inv.moved rfl ?_ guards ?_ ?_ fun i => ?_⟩
    · rw [List.append_nil]
      exact (knows.next inv.holds (inv.early caller) still).1
    · intro q other inside
      rcases store_eq s.kDispatchCalls call point with same | ⟨own, held⟩
      · exact ⟨same, rfl⟩
      · have here : DispatchInside s .hali_install_dispatch caller := ⟨_, _, position, own, held⟩
        exact absurd ((inv.guards _).exclusive q caller inside here) other
    · rw [List.append_nil]
      exact (knows.next inv.holds (inv.early caller) still).2
    · rw [boundBy_next position runs still knows]
      simp

theorem DispatchInv.started (inv : DispatchInv s bindings earlier) (locked : DispatchLock → Bool)
    (new : target = .entry ∨ target = .scan 0) (before : ∀ i, ¬ BoundBy s caller i)
    (guards : ∀ lock, Guards (locked lock)
      (DispatchInside (({ s with locked := locked } : DispatchCores ι P).goTo caller call target) lock))
    (own : call.Knows s.kDispatchCalls (earlier caller) bindings target) :
    DispatchInv (({ s with locked := locked } : DispatchCores ι P).goTo caller call target) bindings earlier := by
  have same : bindings ++ [] = bindings := List.append_nil bindings
  have fresh (i : Nat) :
      BoundBy (({ s with locked := locked } : DispatchCores ι P).goTo caller call target) caller i ↔
        BoundBy s caller i ∨ (bindings.length ≤ i ∧ i < (bindings ++ []).length) := by
    refine iff_of_false ?_ ?_
    · rintro ⟨name, proc, here | here⟩
      all_goals
        simp only [DispatchCores.goTo, Function.update_self, Option.some.injEq, Prod.mk.injEq] at here
        rcases new with rfl | rfl <;> cases here.2
    · rw [List.append_nil]
      exact not_or.mpr ⟨before i, by omega⟩
  have moved : DispatchInv (({ s with locked := locked } : DispatchCores ι P).goTo caller call target) (bindings ++ [])
      earlier :=
    inv.moved rfl (same.symm ▸ inv.holds) guards (fun _ _ _ => ⟨rfl, rfl⟩) (same.symm ▸ own) fresh
  rwa [same] at moved

theorem DispatchInv.begin (inv : DispatchInv s bindings earlier) (absent : s.calls caller = none) :
    DispatchInv (s.goTo caller call .entry) bindings earlier := by
  refine inv.started s.locked (.inl rfl) ?_ (inv.goTo_fewer s rfl rfl nofun) ?_
  · rintro i ⟨name, proc, here | here⟩ <;> cases absent.symm.trans here
  · cases call <;> trivial

theorem DispatchInv.step (inv : DispatchInv s bindings earlier) (taken : Dispatches move s s') :
    ∃ more, DispatchInv s' (bindings ++ more) earlier := by
  have stays : bindings ++ [] = bindings := List.append_nil bindings
  rcases dispatches_cases taken with ⟨caller, call, rfl, absent, rfl⟩ | ⟨caller, call, rfl, ⟨position, spins⟩ | runs⟩
  · exact ⟨[], stays.symm ▸ inv.begin absent⟩
  · rcases spins with ⟨-, rfl⟩ | ⟨clear, rfl⟩
    · exact ⟨[], stays.symm ▸ inv⟩
    · refine ⟨[], stays.symm ▸ inv.started _ (.inr rfl) ?_ (fun lock => ?_) ?_⟩
      · rintro i ⟨name, proc, here | here⟩ <;> cases position.symm.trans here
      · by_cases own : lock = call.lock
        · subst own
          rw [Function.update_self]
          have alone := (clear ▸ inv.guards call.lock).none_of_clear
          refine .enter (p := caller) alone fun q here => ?_
          rcases (dispatchInside_goTo rfl).mp here with ⟨mine, -, -⟩ | ⟨-, here⟩
          · exact .inl mine
          · exact .inr here
        · rw [Function.update_of_ne own]
          refine (inv.guards lock).mono fun q here => ?_
          rcases (dispatchInside_goTo rfl).mp here with ⟨-, same, -⟩ | ⟨-, here⟩
          · exact absurd same.symm own
          · exact here
      · have knows := inv.knows caller call .spin position
        cases call with
        | install name proc => exact ⟨knows, Nat.zero_le _⟩
        | enter rcxHash arg => exact fun j low => absurd low (Nat.not_lt_zero j)
  · obtain ⟨point, position, runs, rfl⟩ := runs
    exact inv.advance position runs

theorem DispatchInv.run {ls : List (DispatchStep ι P)} (inv : DispatchInv s bindings earlier)
    (run : Run Dispatches s ls s') : ∃ more, DispatchInv s' (bindings ++ more) earlier := by
  have kept (l : DispatchStep ι P) (t t' : DispatchCores ι P)
      (before : ∃ more, DispatchInv t (bindings ++ more) earlier) (taken : Dispatches l t t') :
      ∃ more, DispatchInv t' (bindings ++ more) earlier := by
    obtain ⟨more, inv⟩ := before
    obtain ⟨last, inv'⟩ := inv.step taken
    exact ⟨more ++ last, by rwa [List.append_assoc] at inv'⟩
  exact run.invariant kept ⟨[], by rwa [List.append_nil]⟩

/-- What a call has to go through is fixed when it begins. -/
theorem DispatchInv.began {rcxHash arg : UIntPtr} (inv : DispatchInv s bindings earlier)
    (here : s.calls caller = some (.enter rcxHash arg, .entry)) :
    DispatchInv s bindings (Function.update earlier caller bindings) := by
  refine ⟨inv.holds, inv.guards, fun q => ?_, fun q call point position => ?_, inv.once, inv.owned⟩
  all_goals by_cases mine : q = caller
  · simp only [mine, Function.update_self, List.prefix_rfl]
  · rw [Function.update_of_ne mine]
    exact inv.early q
  · subst mine
    cases here.symm.trans position
    trivial
  · rw [Function.update_of_ne mine]
    exact inv.knows q call point position

end Interleavings

/-- Caller 0 installs a procedure. -/
def letterInstall : List (DispatchStep Nat Bool) :=
  .begin 0 (.install letterName (some true)) :: List.replicate 7 (.next 0)

/-- Caller 1 calls it, while caller 2 begins to install another one. -/
def letterCalls : List (DispatchStep Nat Bool) :=
  [.next 1, .next 1, .begin 2 (.install letterName (some false)), .next 2, .next 1, .next 1, .next 1, .next 1, .next 1]

def afterSteps (s : DispatchCores Nat Bool) (ls : List (DispatchStep Nat Bool)) : DispatchCores Nat Bool :=
  (ls.foldlM (fun s (l : DispatchStep Nat Bool) => l.run s) s).getD s

def letterInstalled : DispatchCores Nat Bool := afterSteps .start letterInstall

def letterBegun : DispatchCores Nat Bool := letterInstalled.goTo 1 (.enter (keHash64 letterName) 5) .entry

def letterCalled : DispatchCores Nat Bool := afterSteps letterBegun letterCalls

end Ne.Kernel.Arch
