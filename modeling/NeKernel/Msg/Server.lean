import NeKernel.Machine
import NeKernel.Lib.Runs

/-!
# The expression server of libMsg

`Server.cpp`: the three statics of the library and the operations on them. A call is recorded by the
address of the table entry it goes through.
-/

namespace Ne.Kernel.Msg
open Runs

structure Library where
  kFuncPtr : UIntPtr
  kFuncCnt : SizeT
  kSemaphore : UIntPtr

/-- The library as it is loaded. -/
def unloaded : Library := ⟨0, 0, 0⟩

structure LibmsgExpr where
  l_index : SizeT

/-- Entry `index` of a table of function pointers. -/
def entryOf (funcs : UIntPtr) (index : SizeT) : UIntPtr := funcs + index * 8

def libmsgCloseLibrary (lib : Library) : Int × Library :=
  if lib.kSemaphore ≠ 0 then (kErrorInvalidData, lib)
  else
    let ptr := if lib.kFuncPtr ≠ 0 then 0 else lib.kFuncPtr
    let cnt := if lib.kFuncCnt ≠ 0 then 0 else lib.kFuncCnt
    (kErrorSuccess, { lib with kFuncPtr := ptr, kFuncCnt := cnt })

structure Evaluated where
  status : Int
  called : Option UIntPtr

/-- The semaphore that `SemCreate` returned is given up again after the call. -/
def libmsgEvalExpr (semCreated : UIntPtr) (head : Option LibmsgExpr) (arg : UIntPtr) (argSize : SizeT)
    (lib : Library) : Evaluated × Library :=
  if lib.kSemaphore ≠ 0 then (⟨kErrorInvalidData, none⟩, lib)
  else match head with
    | none => (⟨kErrorInvalidData, none⟩, lib)
    | some head =>
        if arg = 0 ∨ argSize = 0 then (⟨kErrorInvalidData, none⟩, lib)
        else if semCreated = 0 then (⟨kErrorInvalidData, none⟩, { lib with kSemaphore := semCreated })
        else (⟨kErrorSuccess, some (entryOf lib.kFuncPtr head.l_index)⟩, { lib with kSemaphore := 0 })

def libmsgInitLibrary (funcs : UIntPtr) (cnt : SizeT) (lib : Library) : Library :=
  if funcs = 0 ∨ cnt = 0 then lib
  else if lib.kFuncPtr = 0 ∨ lib.kFuncCnt = 0 then lib
  else { lib with kFuncPtr := funcs, kFuncCnt := cnt }

/-- What a caller hands to an evaluation, and the semaphore that is created for it. -/
structure Evaluation where
  head : Option LibmsgExpr
  arg : UIntPtr
  argSize : SizeT
  semaphore : UIntPtr
  created : semaphore ≠ 0

def Evaluation.evaluate (e : Evaluation) (lib : Library) : Evaluated × Library :=
  libmsgEvalExpr e.semaphore e.head e.arg e.argSize lib

/-- The argument passes the checks. -/
def Evaluation.Valid (e : Evaluation) : Prop := e.arg ≠ 0 ∧ e.argSize ≠ 0

inductive MsgCall
  | init (funcs : UIntPtr) (cnt : SizeT)
  | eval (e : Evaluation)
  | close

/-- The library beside the table that its user registered last and did not close. -/
structure Served where
  lib : Library
  table : Option (UIntPtr × SizeT)

def start : Served := ⟨unloaded, none⟩

def Served.after (s : Served) : MsgCall → Served
  | .init funcs cnt =>
      ⟨libmsgInitLibrary funcs cnt s.lib, if funcs = 0 ∨ cnt = 0 then s.table else some (funcs, cnt)⟩
  | .eval e => ⟨(e.evaluate s.lib).2, s.table⟩
  | .close => ⟨(libmsgCloseLibrary s.lib).2, none⟩

def MsgStep (call : MsgCall) (s t : Served) : Prop := t = s.after call

/-- A call goes through an entry of the table. -/
def InTable (table : Option (UIntPtr × SizeT)) (entry : UIntPtr) : Prop :=
  ∃ funcs cnt index, table = some (funcs, cnt) ∧ index < cnt ∧ entry = entryOf funcs index

/-- What an evaluation owes to the table that is registered. -/
structure Dispatched (table : Option (UIntPtr × SizeT)) (e : Evaluation) (done : Evaluated) : Prop where
  calls : ∀ funcs cnt head, table = some (funcs, cnt) → e.head = some head → head.l_index < cnt → e.Valid →
    done.called = some (entryOf funcs head.l_index)
  refuses : ∀ funcs cnt head, table = some (funcs, cnt) → e.head = some head → ¬ head.l_index < cnt →
    done = ⟨kErrorInvalidData, none⟩
  inside : ∀ entry, done.called = some entry → InTable table entry

def DispatchesRight (call : MsgCall) (s : Served) : Prop :=
  ∀ e, call = .eval e → Dispatched s.table e (e.evaluate s.lib).1

/-- The evaluation has nothing that passes the checks. -/
def Empty (call : MsgCall) : Prop := ∀ e, call = .eval e → ¬ (e.head.isSome ∧ e.Valid)

section Runs
variable {s t : Served} {call : MsgCall} {e : Evaluation}

/-- No table gets into the library: registering one needs one that is there. -/
structure Untouched (s : Served) : Prop where
  lib : s.lib = unloaded
  table : ∀ funcs cnt, s.table = some (funcs, cnt) → funcs ≠ 0

theorem evaluate_unloaded_valid {head : LibmsgExpr} (some' : e.head = some head) (valid : e.Valid) :
    e.evaluate unloaded = (⟨kErrorSuccess, some (entryOf 0 head.l_index)⟩, unloaded) := by
  unfold Evaluation.evaluate libmsgEvalExpr
  rw [if_neg (by decide), some']
  dsimp only
  rw [if_neg (not_or.mpr valid), if_neg e.created]
  rfl

theorem evaluate_unloaded_empty (empty : ¬ (e.head.isSome ∧ e.Valid)) :
    e.evaluate unloaded = (⟨kErrorInvalidData, none⟩, unloaded) := by
  unfold Evaluation.evaluate libmsgEvalExpr
  rw [if_neg (by decide)]
  cases head : e.head with
  | none => rfl
  | some expr =>
      refine if_pos ?_
      by_contra valid
      exact empty ⟨by rw [head]; rfl, not_or.mp valid⟩

theorem evaluate_unloaded : (e.evaluate unloaded).2 = unloaded := by
  by_cases empty : e.head.isSome ∧ e.Valid
  · obtain ⟨head, some'⟩ := Option.isSome_iff_exists.mp empty.1
    rw [evaluate_unloaded_valid some' empty.2]
  · rw [evaluate_unloaded_empty empty]

theorem untouched_step (untouched : Untouched s) (step : MsgStep call s t) : Untouched t := by
  obtain ⟨lib, table⟩ := untouched
  rw [step]
  cases call with
  | init funcs cnt =>
      refine ⟨?_, fun f n registered => ?_⟩
      · show libmsgInitLibrary funcs cnt s.lib = unloaded
        rw [lib, libmsgInitLibrary]
        split
        · rfl
        · rfl
      · change (if funcs = 0 ∨ cnt = 0 then s.table else some (funcs, cnt)) = some (f, n) at registered
        split at registered
        · exact table f n registered
        · rename_i valid
          obtain ⟨rfl, -⟩ := Prod.mk.inj (Option.some.inj registered)
          exact (not_or.mp valid).1
  | eval e =>
      refine ⟨?_, table⟩
      show (e.evaluate s.lib).2 = unloaded
      rw [lib, evaluate_unloaded]
  | close =>
      refine ⟨?_, fun f n registered => ?_⟩
      · show (libmsgCloseLibrary s.lib).2 = unloaded
        rw [lib]
        rfl
      · cases registered

theorem null_entry_apart {funcs : UIntPtr} {index : SizeT} (nonnull : funcs ≠ 0) :
    entryOf 0 index ≠ entryOf funcs index := by
  intro same
  unfold entryOf at same
  exact nonnull ((BitVec.add_left_inj _).mp same).symm

theorem dispatchesRight_iff (untouched : Untouched s) : DispatchesRight call s ↔ Empty call := by
  obtain ⟨lib, table⟩ := untouched
  constructor
  · rintro right e rfl ⟨some', valid⟩
    obtain ⟨head, some'⟩ := Option.isSome_iff_exists.mp some'
    have owed := right e rfl
    rw [lib, evaluate_unloaded_valid some' valid] at owed
    obtain ⟨funcs, cnt, index, registered, -, -⟩ := owed.inside _ rfl
    by_cases inside : head.l_index < cnt
    · have called := owed.calls funcs cnt head registered some' inside valid
      exact null_entry_apart (table funcs cnt registered) (Option.some.inj called)
    · have refused := owed.refuses funcs cnt head registered some' inside
      cases refused
  · rintro empty e rfl
    rw [lib, evaluate_unloaded_empty (empty e rfl)]
    refine ⟨fun funcs cnt head _ some' _ valid => ?_, fun _ _ _ _ _ _ => rfl, fun entry called => by cases called⟩
    exact absurd ⟨by rw [some']; rfl, valid⟩ (empty e rfl)

end Runs

/-- The library never takes a table in, so it dispatches right in exactly the runs whose evaluations it
refuses. -/
theorem dispatches_right_iff (calls : List MsgCall) :
    AllSteps MsgStep DispatchesRight start calls ↔ ∀ call ∈ calls, Empty call := by
  have fresh : Untouched start := ⟨rfl, fun funcs cnt registered => by cases registered⟩
  have same : AllSteps MsgStep DispatchesRight start calls ↔ AllSteps MsgStep (fun call _ => Empty call) start calls :=
    allSteps_iff fresh (fun call s => dispatchesRight_iff)
      fun call s t untouched _ step => untouched_step untouched step
  rw [same]
  constructor
  · intro all call member
    obtain ⟨before, after, split⟩ := List.append_of_mem member
    have total (call : MsgCall) (s : Served) : ∃ t, MsgStep call s t := ⟨s.after call, rfl⟩
    obtain ⟨t, run⟩ := exists_run total start before
    exact all before call after split t run
  · rintro all before call after rfl t -
    exact all call (by simp)

def oneMessage : Evaluation := ⟨some ⟨0⟩, 0x2000, 8, 1, by decide⟩

/-- A table of one function is registered, and the call for it goes through the entry of a null table. -/
theorem first_init_ignored : ¬ ∀ calls, AllSteps MsgStep DispatchesRight start calls := by
  intro claim
  have right := claim [.init 0x1000 1, .eval oneMessage] [.init 0x1000 1] (.eval oneMessage) [] rfl _ (.single rfl)
  have called := (right oneMessage rfl).calls 0x1000 1 ⟨0⟩ rfl rfl (by decide) ⟨by decide, by decide⟩
  exact absurd called (by decide)

end Ne.Kernel.Msg
