import NeKernel.Lib.Runs
import NeKernel.Machine
import Mathlib.Logic.Function.Basic

/-!
# The threads of libThread

`ThrCreateThread` enters a thread in tables of `kThreadMapMax` entries, and runs it at once. The index is
the size of the tables modulo the hash. A hash is above that size, so every thread gets the size itself,
one behind the last entry.
-/

namespace LibThread
open ByteMem Ne.Kernel Runs

abbrev VoidPtr := BitVec 64

def kThreadMapMax : BitVec 64 := 1024
def kThreadBaseHash : BitVec 64 := 0x5555ffff6

/-- `REF_TYPE`. -/
structure Ref where
  hash : BitVec 64
  self : VoidPtr

/-- The references there are and the variables of the library. `running` are the threads whose procedures have not
returned yet, the last one first, and `semRef` is none until `_ThrRunThread` sets its static variable. The two
lists at the end are what the calls leave behind: the threads that were not left, and every index so far. -/
structure Threads where
  refs : VoidPtr → Ref
  kThreadMap : BitVec 64 → VoidPtr
  kThreadHeads : BitVec 64 → VoidPtr
  kThreadFlags : BitVec 64 → BitVec 32
  kThreadExitCodes : BitVec 64 → BitVec 32
  kCurrentThread : VoidPtr
  semRef : Option VoidPtr
  running : List VoidPtr
  live : List VoidPtr
  indices : List (BitVec 64)

def threadIndex (hash : BitVec 64) : BitVec 64 := kThreadMapMax % hash

/-- The hash of a thread is made of the first four bytes of its name. -/
def nameHash (m : Memory) (threadName : VoidPtr) : BitVec 64 := BitVec.ofNat 64 (load m threadName 4) + kThreadBaseHash

/-- `_ThrRunThread` up to the call of the procedure. `sem` is what `SemCreate` answers. -/
def thrRunThread (sem ref : VoidPtr) (s : Threads) : Threads :=
  let s := { s with semRef := some (s.semRef.getD sem) }
  if s.semRef = some 0 then s else { s with running := ref :: s.running }

/-- The rest of `_ThrRunThread`, once the procedure of the last thread has returned. -/
def procedureReturns (ret : BitVec 32) (s : Threads) : Option Threads :=
  match s.running with
  | [] => none
  | ref :: running =>
      let index := threadIndex (s.refs ref).hash
      some { s with
        kThreadExitCodes := Function.update s.kThreadExitCodes index ret
        kCurrentThread := if ref = s.kCurrentThread then 0 else s.kCurrentThread
        semRef := some 0
        running := running
        indices := s.indices ++ [index] }

/-- `ThrCreateThread` up to the call of the procedure, with the answer `ref` of `new`. -/
def thrCreateThread (ref : VoidPtr) (m : Memory) (threadName procedure : VoidPtr) (flags : BitVec 32) (sem : VoidPtr)
    (s : Threads) : VoidPtr × Threads :=
  if ref = 0 then (0, s)
  else if threadName = 0 ∨ procedure = 0 then (0, s)
  else
    let index := threadIndex (nameHash m threadName)
    (ref, thrRunThread sem ref { s with
      refs := Function.update s.refs ref ⟨nameHash m threadName, procedure⟩
      kThreadMap := Function.update s.kThreadMap index ref
      kThreadHeads := Function.update s.kThreadHeads index ref
      kThreadFlags := Function.update s.kThreadFlags index flags
      kCurrentThread := ref
      live := s.live ++ [ref]
      indices := s.indices ++ [index, index, index] })

/-- `ThrExitThread`. A reference without a hash is divided by, and stops the process. -/
def thrExitThread (ref : VoidPtr) (exitCode : BitVec 32) (s : Threads) : Option (Int × Threads) :=
  if ref = 0 then some (kErrorInvalidData, s)
  else if (s.refs ref).hash = 0 then none
  else
    let index := threadIndex (s.refs ref).hash
    some (kErrorSuccess, { s with
      kThreadMap := Function.update s.kThreadMap index 0
      kThreadHeads := Function.update s.kThreadHeads index 0
      kThreadFlags := Function.update s.kThreadFlags index 0
      kCurrentThread := if s.kCurrentThread = ref then 0 else s.kCurrentThread
      kThreadExitCodes := Function.update s.kThreadExitCodes index exitCode
      live := s.live.erase ref
      indices := s.indices ++ [index, index, index, index] })

/-! ## Runs -/

/-- A call from the program or from a procedure that runs, with the answers it gets, or the return of the procedure
that was called last. -/
inductive ThreadCall
  | create (ref : VoidPtr) (m : Memory) (threadName procedure : VoidPtr) (flags : BitVec 32) (sem : VoidPtr)
  | returns (ret : BitVec 32)
  | exit (ref : VoidPtr) (exitCode : BitVec 32)

def nextThreads : ThreadCall → Threads → Option Threads
  | .create ref m threadName procedure flags sem, s => some (thrCreateThread ref m threadName procedure flags sem s).2
  | .returns ret, s => procedureReturns ret s
  | .exit ref exitCode, s => (thrExitThread ref exitCode s).map Prod.snd

def ThreadStep (call : ThreadCall) (s t : Threads) : Prop := nextThreads call s = some t

/-- The tables are cleared, and the references are whatever the program has. -/
def noThreads (refs : VoidPtr → Ref) : Threads :=
  ⟨refs, fun _ => 0, fun _ => 0, fun _ => 0, fun _ => 0, 0, none, [], [], []⟩

/-- Every index is inside the tables, and live threads whose hashes differ modulo the size of the tables have
different ones. -/
structure Threads.Indexed (s : Threads) : Prop where
  inside : ∀ i ∈ s.indices, i.toNat < kThreadMapMax.toNat
  apart : ∀ r ∈ s.live, ∀ r' ∈ s.live, (s.refs r).hash % kThreadMapMax ≠ (s.refs r').hash % kThreadMapMax →
    threadIndex (s.refs r).hash ≠ threadIndex (s.refs r').hash

/-- A thread is refused, or a reference is left that is not one of `ThrCreateThread`'s. -/
def StaysIndexed : ThreadCall → Threads → Prop
  | .create ref _ threadName procedure _ _, _ => ref = 0 ∨ threadName = 0 ∨ procedure = 0
  | .returns _, _ => True
  | .exit ref _, s => ref = 0 ∨ (s.refs ref).hash.toNat ≤ kThreadMapMax.toNat

section Index
variable {hash : BitVec 64} {m : Memory} {threadName : VoidPtr}

theorem threadIndex_large (large : kThreadMapMax.toNat < hash.toNat) : threadIndex hash = kThreadMapMax := by
  apply BitVec.eq_of_toNat_eq
  rw [threadIndex, BitVec.toNat_umod, Nat.mod_eq_of_lt large]

theorem threadIndex_lt (some : hash ≠ 0) :
    (threadIndex hash).toNat < kThreadMapMax.toNat ↔ hash.toNat ≤ kThreadMapMax.toNat := by
  constructor
  · intro inside
    by_contra large
    rw [threadIndex_large (Nat.lt_of_not_le large)] at inside
    exact lt_irrefl _ inside
  · intro small
    have positive : 0 < hash.toNat := Nat.pos_of_ne_zero fun zero => some (BitVec.eq_of_toNat_eq zero)
    rw [threadIndex, BitVec.toNat_umod]
    exact (Nat.mod_lt _ positive).trans_le small

/-- All names have the same index. -/
theorem threadIndex_name : threadIndex (nameHash m threadName) = kThreadMapMax := by
  apply threadIndex_large
  have word : load m threadName 4 < 256 ^ 4 := by
    have four := leNat_lt (ByteMem.read m threadName 4)
    rwa [read_length, ← load] at four
  have base : kThreadBaseHash.toNat = 0x5555ffff6 := rfl
  have size : kThreadMapMax.toNat = 1024 := rfl
  rw [nameHash, BitVec.toNat_add, BitVec.toNat_ofNat, base, size, Nat.mod_eq_of_lt (by omega),
    Nat.mod_eq_of_lt (by omega)]
  omega

end Index

section Steps
variable {s t : Threads} {call : ThreadCall} {refs : VoidPtr → Ref}

/-- Indices in the tables, and no thread there: no call of `ThrCreateThread` has passed its checks. -/
structure Threads.Untouched (s : Threads) : Prop where
  indexed : s.Indexed
  stopped : s.running = []
  empty : s.live = []

theorem thrRunThread_indices {sem ref : VoidPtr} : (thrRunThread sem ref s).indices = s.indices := by
  rw [thrRunThread]
  split <;> rfl

section Create
variable {ref threadName procedure sem : VoidPtr} {m : Memory} {flags : BitVec 32}

theorem create_refused (refused : ref = 0 ∨ threadName = 0 ∨ procedure = 0) :
    thrCreateThread ref m threadName procedure flags sem s = (0, s) := by
  rw [thrCreateThread]
  split
  · rfl
  · rename_i present
    rw [if_pos (refused.resolve_left present)]

theorem create_outside (passes : ¬ (ref = 0 ∨ threadName = 0 ∨ procedure = 0)) :
    kThreadMapMax ∈ (thrCreateThread ref m threadName procedure flags sem s).2.indices := by
  rw [not_or] at passes
  rw [thrCreateThread, if_neg passes.1, if_neg passes.2, thrRunThread_indices, threadIndex_name]
  exact List.mem_append_right _ List.mem_cons_self

end Create

theorem exit_some {ref : VoidPtr} {exitCode : BitVec 32} {result : Int × Threads} (present : ref ≠ 0)
    (left : thrExitThread ref exitCode s = some result) : (s.refs ref).hash ≠ 0 ∧
      result.2.indices = s.indices ++ List.replicate 4 (threadIndex (s.refs ref).hash) ∧
      result.2.running = s.running ∧ result.2.live = s.live.erase ref := by
  rw [thrExitThread, if_neg present] at left
  split at left
  · cases left
  · rename_i hash
    cases left
    exact ⟨hash, rfl, rfl, rfl⟩

theorem step_indexed (untouched : s.Untouched) (taken : ThreadStep call s t) :
    (t.Indexed ↔ StaysIndexed call s) ∧ (t.Indexed → t.Untouched) := by
  cases call with
  | create ref m threadName procedure flags sem =>
      obtain rfl := Option.some.inj taken
      by_cases refused : ref = 0 ∨ threadName = 0 ∨ procedure = 0
      · rw [create_refused refused]
        exact ⟨iff_of_true untouched.indexed refused, fun _ => untouched⟩
      · have outside : ¬ (thrCreateThread ref m threadName procedure flags sem s).2.Indexed :=
          fun indexed => lt_irrefl _ (indexed.inside _ (create_outside refused))
        exact ⟨iff_of_false outside refused, fun indexed => absurd indexed outside⟩
  | returns ret =>
      -- no procedure runs yet that could return
      rw [ThreadStep, nextThreads, procedureReturns, untouched.stopped] at taken
      cases taken
  | exit ref exitCode =>
      obtain ⟨result, left, rfl⟩ := Option.map_eq_some_iff.mp taken
      by_cases null : ref = 0
      · rw [thrExitThread, if_pos null] at left
        cases left
        exact ⟨iff_of_true untouched.indexed (.inl null), fun _ => untouched⟩
      · obtain ⟨some, indices, running, live⟩ := exit_some null left
        have empty : result.2.live = [] := by rw [live, untouched.empty, List.erase_nil]
        have indexed : result.2.Indexed ↔ ref = 0 ∨ (s.refs ref).hash.toNat ≤ kThreadMapMax.toNat := by
          rw [or_iff_right null, ← threadIndex_lt some]
          constructor
          · intro indexed
            refine indexed.inside _ ?_
            rw [indices]
            exact List.mem_append_right _ List.mem_cons_self
          · intro inside
            refine ⟨fun i member => ?_, fun r member => absurd (empty ▸ member) List.not_mem_nil⟩
            rw [indices] at member
            rcases List.mem_append.mp member with old | new
            · exact untouched.indexed.inside i old
            · rwa [List.eq_of_mem_replicate new]
        exact ⟨indexed, fun whole => ⟨whole, running.trans untouched.stopped, empty⟩⟩

theorem noThreads_untouched (refs : VoidPtr → Ref) : (noThreads refs).Untouched where
  indexed := ⟨fun _ member => absurd member List.not_mem_nil, fun _ member => absurd member List.not_mem_nil⟩
  stopped := rfl
  empty := rfl

theorem threadStep_functional {u : Threads} (first : ThreadStep call s t) (second : ThreadStep call s u) : t = u :=
  Option.some.inj (first.symm.trans second)

/-- The indices stay in the tables, and apart, exactly as long as no thread is made and no reference is left whose
hash is above the size of the tables. -/
theorem threads_indexed_iff (refs : VoidPtr → Ref) (calls : List ThreadCall) (t : Threads)
    (run : Run ThreadStep (noThreads refs) calls t) :
    Everywhere ThreadStep Threads.Indexed (noThreads refs) calls ↔
      AllSteps ThreadStep StaysIndexed (noThreads refs) calls :=
  everywhere_iff (fun _ _ _ _ => threadStep_functional) run (noThreads_untouched refs)
    (fun _ untouched => untouched.indexed) (fun _ _ _ untouched taken => (step_indexed untouched taken).1)
    (fun _ _ _ untouched taken => (step_indexed untouched taken).2)

theorem threads_indexed_refused :
    Everywhere ThreadStep Threads.Indexed (noThreads fun _ => ⟨0, 0⟩) [.create 0x5000 (fun _ => 0) 0 0x2000 0 0x6000] ↔
      AllSteps ThreadStep StaysIndexed (noThreads fun _ => ⟨0, 0⟩)
        [.create 0x5000 (fun _ => 0) 0 0x2000 0 0x6000] :=
  threads_indexed_iff (fun _ => ⟨0, 0⟩) [.create 0x5000 (fun _ => 0) 0 0x2000 0 0x6000] _ (.cons rfl (.nil _))

theorem create_not_indexed :
    ¬ ∀ calls t, Run ThreadStep (noThreads fun _ => ⟨0, 0⟩) calls t → t.Indexed := by
  intro every
  have indexed := every [.create 0x5000 (write (fun _ => 0) 0x1000 [0x6D, 0x61, 0x69, 0x6E, 0]) 0x1000 0x2000 0 0x6000]
    _ (.cons rfl (.nil _))
  exact lt_irrefl _ (indexed.inside _ (create_outside (by decide)))

end Steps

end LibThread
