import NeKernel.Arch.CallHashes
import NeKernel.Lib.Runs
import Mathlib.Logic.Function.Basic

/-!
# The system-call table

`ke_install_syscall` fills the first free slot and nothing empties one, so the hooked slots are the
bindings of the table in the order they were made, and `hal_system_call_enter` takes the first that fits.
-/

namespace Ne.Kernel.Arch
open ByteMem Runs

variable {P : Type*}

def kMaxDispatchCallCount : Nat := 512

structure HalDispatchEntry (P : Type*) where
  fHash : BitVec 64
  fHooked : Bool
  fProc : Option P

abbrev SysCalls (P : Type*) := Nat → HalDispatchEntry P

/-- `kSysCalls` as the kernel image starts with it. -/
def kSysCalls : SysCalls P := fun _ => ⟨0, false, none⟩

/-- The scan for a free slot, from slot `i` on. -/
def freeSlot (table : SysCalls P) : Nat → Nat → Option Nat
  | 0, _ => none
  | left + 1, i => if (table i).fHooked then freeSlot table left (i + 1) else some i

def keInstallSyscall (name : Option (List Byte)) (proc : Option P) (table : SysCalls P) : Int × SysCalls P :=
  if unnamed name then (-1, table)
  else
    let hash := keHash64 name
    if hash = 0 ∨ proc.isNone then (-1, table)
    else match freeSlot table kMaxDispatchCallCount 0 with
      | none => (-1, table)
      | some i => (i, Function.update table i ⟨hash, true, proc⟩)

inductive Entered (P : Type*)
  | ignored
  | ran (proc : P) (arg : UIntPtr)
  | stopped
  deriving DecidableEq

/-- The scan for a hash. A slot without a procedure breaks it off. -/
def dispatchFrom (table : SysCalls P) (hash arg : UIntPtr) : Nat → Nat → Entered P
  | 0, _ => .stopped
  | left + 1, i =>
      if (table i).fHooked ∧ hash = (table i).fHash then
        match (table i).fProc with
        | none => .stopped
        | some proc => .ran proc arg
      else dispatchFrom table hash arg left (i + 1)

def halSystemCallEnter (kCurrentUser : Bool) (rcxHash rdxSyscallArg : UIntPtr) (table : SysCalls P) : Entered P :=
  if !kCurrentUser then .ignored
  else if rdxSyscallArg = 0 ∨ rcxHash = 0 then .ignored
  else dispatchFrom table rcxHash rdxSyscallArg kMaxDispatchCallCount 0

structure Install (P : Type*) where
  name : Option (List Byte)
  proc : Option P

def InstallStep (call : Install P) (table next : SysCalls P) : Prop :=
  next = (keInstallSyscall call.name call.proc table).2

/-- The bindings that the hooked slots hold, first slot first. -/
structure Holds (table : SysCalls P) (bindings : List (BitVec 64 × P)) : Prop where
  room : bindings.length ≤ kMaxDispatchCallCount
  hooked : ∀ i binding, bindings[i]? = some binding → table i = ⟨binding.1, true, some binding.2⟩
  free : ∀ i, bindings.length ≤ i → (table i).fHooked = false

/-- The procedure of the first binding under a hash. -/
def bound (bindings : List (BitVec 64 × P)) (hash : BitVec 64) : Option P :=
  (bindings.find? fun binding => decide (binding.1 = hash)).map Prod.snd

/-- The first slot hooked under a hash runs `proc`. -/
def FirstUnder (table : SysCalls P) (hash : BitVec 64) (proc : P) : Prop :=
  ∃ i < kMaxDispatchCallCount, (table i).fHooked ∧ (table i).fHash = hash ∧ (table i).fProc = some proc ∧
    ∀ j < i, (table j).fHooked → (table j).fHash ≠ hash

/-- Entering with the hash of a name runs `proc`, whatever is installed in between. -/
def RunsLater (kCurrentUser : Bool) (name : Option (List Byte)) (proc : P) (table : SysCalls P) : Prop :=
  ∀ calls next, Run InstallStep table calls next → ∀ arg, arg ≠ 0 →
    halSystemCallEnter kCurrentUser (keHash64 name) arg next = .ran proc arg

section Tables
variable {table next : SysCalls P} {bindings : List (BitVec 64 × P)} {hash arg : BitVec 64} {name : Option (List Byte)}
  {other : BitVec 64} {more : List (BitVec 64 × P)} {proc : P} {slot : Int} {left i : Nat} {calls : List (Install P)}

theorem holds_boot : Holds (kSysCalls : SysCalls P) [] := by
  refine ⟨Nat.zero_le _, fun i binding found => ?_, fun i _ => rfl⟩
  simp at found

theorem Holds.freeSlot_eq (holds : Holds table bindings) (start : i ≤ bindings.length)
    (rest : i + left = kMaxDispatchCallCount) :
    freeSlot table left i = if bindings.length < kMaxDispatchCallCount then some bindings.length else none := by
  have room := holds.room
  induction left generalizing i with
  | zero => rw [freeSlot, if_neg (by omega)]
  | succ left ih =>
      rw [freeSlot]
      by_cases last : i = bindings.length
      · rw [holds.free i (Nat.le_of_eq last.symm), if_neg (by simp), if_pos (by omega), last]
      · have inside : i < bindings.length := by omega
        rw [holds.hooked i bindings[i] (by simp [inside]), if_pos rfl]
        exact ih (by omega) (by omega)

theorem Holds.dispatchFrom_eq (holds : Holds table bindings) :
    dispatchFrom table hash arg left i =
      ((bound ((bindings.drop i).take left) hash).map fun proc => Entered.ran proc arg).getD .stopped := by
  induction left generalizing i with
  | zero => simp [dispatchFrom, bound]
  | succ left ih =>
      rw [dispatchFrom, ih]
      by_cases inside : i < bindings.length
      · rw [holds.hooked i bindings[i] (by simp [inside]), List.drop_eq_getElem_cons inside, List.take_succ_cons]
        by_cases here : bindings[i].1 = hash
        · simp [bound, here]
        · have apart : ¬ hash = bindings[i].1 := fun same => here same.symm
          simp [bound, here, apart]
      · have none : (table i).fHooked = false := holds.free i (by omega)
        rw [if_neg (by simp [none]), List.drop_eq_nil_of_le (by omega), List.drop_eq_nil_of_le (by omega)]
        simp

theorem Holds.enter_eq (holds : Holds table bindings) (nonzero : hash ≠ 0) (argued : arg ≠ 0) :
    halSystemCallEnter true hash arg table =
      ((bound bindings hash).map fun proc => Entered.ran proc arg).getD .stopped := by
  rw [halSystemCallEnter, if_neg (by simp), if_neg (not_or.mpr ⟨argued, nonzero⟩), holds.dispatchFrom_eq,
    List.drop_zero, List.take_of_length_le holds.room]

theorem Holds.install_cases (holds : Holds table bindings) (name : Option (List Byte)) (proc : Option P) :
    keInstallSyscall name proc table = (-1, table) ∨
    ∃ p, proc = some p ∧ keHash64 name ≠ 0 ∧ bindings.length < kMaxDispatchCallCount ∧
      keInstallSyscall name proc table =
        ((bindings.length : Int), Function.update table bindings.length ⟨keHash64 name, true, some p⟩) := by
  unfold keInstallSyscall
  by_cases empty : unnamed name
  · exact .inl (if_pos empty)
  rw [if_neg empty]
  by_cases zero : keHash64 name = 0
  · exact .inl (if_pos (.inl zero))
  cases proc with
  | none => exact .inl (if_pos (.inr rfl))
  | some p =>
      have valid : ¬ (keHash64 name = 0 ∨ (some p).isNone = true) := not_or.mpr ⟨zero, by simp⟩
      dsimp only
      rw [if_neg valid, holds.freeSlot_eq (Nat.zero_le _) (Nat.zero_add _)]
      by_cases room : bindings.length < kMaxDispatchCallCount
      · rw [if_pos room]
        exact .inr ⟨p, rfl, zero, room, rfl⟩
      · rw [if_neg room]
        exact .inl rfl

theorem Holds.append (holds : Holds table bindings) (room : bindings.length < kMaxDispatchCallCount) :
    Holds (Function.update table bindings.length ⟨hash, true, some proc⟩) (bindings ++ [(hash, proc)]) := by
  refine ⟨by simpa using Nat.succ_le_of_lt room, fun i binding found => ?_, fun i outside => ?_⟩
  · by_cases last : i = bindings.length
    · simp only [last, List.getElem?_concat_length, Option.some.injEq] at found
      rw [last, ← found, Function.update_self]
    · have bound := (List.getElem?_eq_some_iff.mp found).1
      rw [List.length_append, List.length_singleton] at bound
      rw [Function.update_of_ne last]
      exact holds.hooked i binding (by rwa [List.getElem?_append_left (by omega)] at found)
  · rw [List.length_append, List.length_singleton] at outside
    rw [Function.update_of_ne (by omega)]
    exact holds.free i (by omega)

theorem enter_ignored {kCurrentUser : Bool} (invalid : ¬ (kCurrentUser = true ∧ arg ≠ 0 ∧ hash ≠ 0)) :
    halSystemCallEnter kCurrentUser hash arg table = .ignored := by
  unfold halSystemCallEnter
  cases kCurrentUser with
  | false => rfl
  | true =>
      have refused : arg = 0 ∨ hash = 0 := by
        by_contra neither
        exact invalid ⟨rfl, not_or.mp neither⟩
      rw [if_neg (by decide), if_pos refused]

theorem Holds.install_taken (holds : Holds table bindings)
    (taken : keInstallSyscall name (some proc) table = (slot, next)) (took : slot ≠ -1) :
    keHash64 name ≠ 0 ∧ Holds next (bindings ++ [(keHash64 name, proc)]) := by
  rcases holds.install_cases name (some proc) with refused | ⟨p, same, nonzero, room, done⟩
  · rw [refused] at taken
    exact absurd (congrArg Prod.fst taken).symm took
  · cases same
    rw [done] at taken
    obtain ⟨-, rfl⟩ := Prod.mk.inj taken
    exact ⟨nonzero, holds.append room⟩

theorem Holds.step (holds : Holds table bindings) {call : Install P} (step : InstallStep call table next) :
    ∃ more, Holds next (bindings ++ more) := by
  rw [step]
  rcases holds.install_cases call.name call.proc with refused | ⟨p, -, -, room, done⟩
  · rw [refused]
    exact ⟨[], by simpa using holds⟩
  · rw [done]
    exact ⟨_, holds.append room⟩

theorem Holds.run (holds : Holds table bindings) (run : Run InstallStep table calls next) :
    ∃ more, Holds next (bindings ++ more) := by
  have kept : ∀ (call : Install P) s t, (∃ more, Holds s (bindings ++ more)) → InstallStep call s t →
      ∃ more, Holds t (bindings ++ more) := by
    rintro call s t ⟨more, before⟩ step
    obtain ⟨last, after⟩ := before.step step
    exact ⟨more ++ last, by rwa [List.append_assoc] at after⟩
  exact run.invariant kept ⟨[], by simpa using holds⟩

theorem bound_append : bound (bindings ++ more) hash = (bound bindings hash).or (bound more hash) := by
  unfold bound
  rw [List.find?_append, Option.map_or]

theorem bound_single : bound [(hash, proc)] hash = some proc := by
  simp [bound]

theorem bound_other (apart : other ≠ hash) : bound [(hash, proc)] other = none := by
  simp [bound, Ne.symm apart]

theorem Holds.firstUnder_iff (holds : Holds table bindings) :
    FirstUnder table hash proc ↔ bound bindings hash = some proc := by
  constructor
  · rintro ⟨i, -, hooked, here, runs, before⟩
    have inside : i < bindings.length := by
      by_contra outside
      rw [holds.free i (by omega)] at hooked
      exact absurd hooked (by simp)
    have entry (j : Nat) (low : j < bindings.length) := holds.hooked j bindings[j] (by simp [low])
    rw [entry i inside] at here runs
    refine Option.map_eq_some_iff.mpr ⟨bindings[i], ?_, Option.some.inj runs⟩
    rw [List.find?_eq_some_iff_getElem]
    refine ⟨by simpa using here, i, inside, rfl, fun j low => ?_⟩
    have other := before j low (by rw [entry j (by omega)])
    rw [entry j (by omega)] at other
    simpa using other
  · intro found
    obtain ⟨binding, first, rfl⟩ := Option.map_eq_some_iff.mp found
    obtain ⟨here, i, inside, rfl, before⟩ := List.find?_eq_some_iff_getElem.mp first
    have entry (j : Nat) (low : j < bindings.length) := holds.hooked j bindings[j] (by simp [low])
    refine ⟨i, Nat.lt_of_lt_of_le inside holds.room, ?_⟩
    rw [entry i inside]
    refine ⟨rfl, by simpa using here, rfl, fun j low _ => ?_⟩
    rw [entry j (by omega)]
    simpa using before j low

end Tables

/-- A procedure is run under its name as long as a user is logged in, unless another procedure was in the
table under the name's hash before. No other hash is affected. -/
theorem installed_runs_iff (calls : List (Install P)) (table next : SysCalls P)
    (run : Run InstallStep kSysCalls calls table) (name : Option (List Byte)) (proc : P) (slot : Int)
    (taken : keInstallSyscall name (some proc) table = (slot, next)) (took : slot ≠ -1) (kCurrentUser : Bool) :
    (RunsLater kCurrentUser name proc next ↔
      kCurrentUser = true ∧ ∀ p, FirstUnder table (keHash64 name) p → p = proc) ∧
    ∀ user hash arg, hash ≠ keHash64 name →
      halSystemCallEnter user hash arg next = halSystemCallEnter user hash arg table := by
  obtain ⟨bindings, holds⟩ := holds_boot.run run
  rw [List.nil_append] at holds
  obtain ⟨nonzero, after⟩ := holds.install_taken taken took
  refine ⟨⟨fun runs => ?_, ?_⟩, fun user hash arg other => ?_⟩
  · have entered := runs [] next (.nil next) 1 (by decide)
    cases kCurrentUser with
    | false => cases entered
    | true =>
        refine ⟨rfl, fun p first => ?_⟩
        rw [after.enter_eq nonzero (by decide), bound_append, holds.firstUnder_iff.mp first] at entered
        exact (Entered.ran.inj entered).1
  · rintro ⟨rfl, first⟩ calls u run arg argued
    obtain ⟨more, later⟩ := after.run run
    rw [later.enter_eq nonzero argued, bound_append, bound_append, bound_single]
    cases before : bound bindings (keHash64 name) with
    | none => rfl
    | some p =>
        rw [first p (holds.firstUnder_iff.mpr before)]
        rfl
  · by_cases valid : user = true ∧ arg ≠ 0 ∧ hash ≠ 0
    · obtain ⟨rfl, argued, some⟩ := valid
      rw [after.enter_eq some argued, holds.enter_eq some argued, bound_append, bound_other other, Option.or_none]
    · rw [enter_ignored valid, enter_ignored valid]

/-- A system call named by the letter `a`, and its name. -/
def letterName : Option (List Byte) := some [0x61]

/-- The table with one procedure installed. -/
def letterTable : SysCalls Bool := (keInstallSyscall letterName (some true) kSysCalls).2

theorem letterTable_run : Run InstallStep kSysCalls [⟨letterName, some true⟩] letterTable := .single rfl

theorem installed_runs_iff_letter : RunsLater true letterName true letterTable := by
  refine (installed_runs_iff [] kSysCalls letterTable (.nil _) letterName true 0 rfl (by decide) true).1.mpr
    ⟨rfl, fun p first => ?_⟩
  obtain ⟨i, -, hooked, -⟩ := first
  cases hooked

/-- Of two procedures installed under one name the first runs. -/
theorem second_install_unreached : ¬ ∀ (calls : List (Install Bool)) table next,
    Run InstallStep kSysCalls calls table → ∀ name proc slot,
    keInstallSyscall name (some proc) table = (slot, next) → slot ≠ -1 → RunsLater true name proc next := by
  intro claim
  have entered : halSystemCallEnter true (keHash64 letterName) 1
      (keInstallSyscall letterName (some false) letterTable).2 = .ran false 1 :=
    claim [⟨letterName, some true⟩] letterTable _ letterTable_run letterName false _ rfl (by decide) [] _ (.nil _) 1
      (by decide)
  have first : halSystemCallEnter true (keHash64 letterName) 1
      (keInstallSyscall letterName (some false) letterTable).2 = .ran true 1 := by decide +kernel
  rw [first] at entered
  cases entered

end Ne.Kernel.Arch
