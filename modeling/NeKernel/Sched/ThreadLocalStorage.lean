import NeKernel.Sched.ProcessHeap

/-!
# Thread local storage

`tls_new_ptr` and `tls_delete_ptr` take the current process into an `auto` variable, so they work on a copy of it. The
records of the heap tree are not copied.
-/

namespace Ne.Kernel.Sched
open Runs

/-- What is left of a change to a copy of a process. -/
def ProcessHeap.afterCopy (process copy : ProcessHeap) : ProcessHeap := { process with trees := copy.trees }

def tlsNewPtr (fuel : ℕ) (sizeofT : SizeT) (ptr node : VoidPtr) (process : ProcessHeap) :
    Option (VoidPtr × ProcessHeap) :=
  (New fuel sizeofT 0 ptr node process).map fun
    | (.error _, copy) => (0, process.afterCopy copy)
    | (.ok pointer, copy) => (pointer, process.afterCopy copy)

def tlsDeletePtr (fuel : ℕ) (obj : VoidPtr) (freed : Bool) (process : ProcessHeap) : Option (Bool × ProcessHeap) :=
  if obj = 0 then some (false, process)
  else (Delete fuel obj freed process).map fun (deleted, copy) => (deleted, process.afterCopy copy)

/-! ## Runs -/

/-- A call with what the kernel heap answers to it, and what it returns itself. -/
inductive TlsCall where
  | new (sizeofT : SizeT) (ptr node result : VoidPtr)
  | delete (obj : VoidPtr) (freed result : Bool)

def TlsStep : TlsCall → ProcessHeap → ProcessHeap → Prop
  | .new sizeofT ptr node result, process, after =>
      ∃ fuel, tlsNewPtr fuel sizeofT ptr node process = some (result, after)
  | .delete obj freed result, process, after =>
      ∃ fuel, tlsDeletePtr fuel obj freed process = some (result, after)

section Steps
variable {process after : ProcessHeap} {call : TlsCall} {calls : List TlsCall}

/-- Nothing but the records may differ. -/
structure SameProcess (process after : ProcessHeap) : Prop where
  status : after.Status = process.Status
  usedMemory : after.UsedMemory = process.UsedMemory
  heapTree : after.HeapTree = process.HeapTree

theorem SameProcess.refl : SameProcess process process := ⟨rfl, rfl, rfl⟩

theorem SameProcess.trans {last : ProcessHeap} (first : SameProcess process after) (second : SameProcess after last) :
    SameProcess process last :=
  ⟨second.status.trans first.status, second.usedMemory.trans first.usedMemory, second.heapTree.trans first.heapTree⟩

theorem sameProcess_step (step : TlsStep call process after) : SameProcess process after := by
  cases call with
  | new sizeofT ptr node result =>
      obtain ⟨fuel, done⟩ := step
      obtain ⟨⟨answer, copy⟩, -, same⟩ := Option.map_eq_some_iff.mp done
      cases answer <;> (obtain ⟨-, rfl⟩ := Prod.mk.inj same; exact ⟨rfl, rfl, rfl⟩)
  | delete obj freed result =>
      obtain ⟨fuel, done⟩ := step
      unfold tlsDeletePtr at done
      split at done
      · obtain ⟨-, rfl⟩ := Prod.mk.inj (Option.some.inj done)
        exact .refl
      · obtain ⟨⟨deleted, copy⟩, -, same⟩ := Option.map_eq_some_iff.mp done
        obtain ⟨-, rfl⟩ := Prod.mk.inj same
        exact ⟨rfl, rfl, rfl⟩

theorem sameProcess_run (run : Run TlsStep process calls after) : SameProcess process after :=
  run.invariant (fun _ _ _ before step => before.trans (sameProcess_step step)) .refl

/-- What a call returns to a process without a heap tree. -/
def TlsCall.Unrecorded : TlsCall → Prop
  | .new _ ptr node result => result = if node = 0 then 0 else ptr
  | .delete _ _ result => result = false

theorem unrecorded_step (none : process.HeapTree = 0) (room : process.UsedMemory ≤ kCPSMaxMemoryLimit)
    (step : TlsStep call process after) : call.Unrecorded := by
  cases call with
  | new sizeofT ptr node result =>
      obtain ⟨fuel, done⟩ := step
      unfold tlsNewPtr New at done
      rw [if_neg (BitVec.not_lt.mpr room), if_pos none] at done
      show result = if node = 0 then 0 else ptr
      split at done
      · next full =>
          rw [if_pos full]
          exact (Prod.mk.inj (Option.some.inj done)).1.symm
      · next made =>
          rw [if_neg made]
          exact (Prod.mk.inj (Option.some.inj done)).1.symm
  | delete obj freed result =>
      obtain ⟨fuel, done⟩ := step
      unfold tlsDeletePtr at done
      split at done
      · exact (Prod.mk.inj (Option.some.inj done)).1.symm
      · next some =>
          unfold Delete at done
          rw [if_neg some, if_pos none] at done
          exact (Prod.mk.inj (Option.some.inj done)).1.symm

theorem unrecorded_run (run : Run TlsStep process calls after) (none : process.HeapTree = 0)
    (room : process.UsedMemory ≤ kCPSMaxMemoryLimit) : ∀ call ∈ calls, call.Unrecorded := by
  induction run with
  | nil =>
      intro call member
      cases member
  | @cons _ _ _ head calls step _ ih =>
      have same := sameProcess_step step
      intro call member
      rcases List.mem_cons.mp member with rfl | later
      · exact unrecorded_step none room step
      · exact ih (same.heapTree.trans none) (by rw [same.usedMemory]; exact room) call later

end Steps

/-- Thread local storage is neither counted nor recorded nor given back. Over any run a process keeps its status, its
used memory and its heap tree. Without a tree, as every process begins, every allocation that has a record is handed
out, no deletion is ever carried out, and the exit of the process frees nothing. -/
theorem tls_unrecorded (process after : ProcessHeap) (calls : List TlsCall) (run : Run TlsStep process calls after) :
    SameProcess process after ∧
    (process.HeapTree = 0 →
      (process.UsedMemory ≤ kCPSMaxMemoryLimit → ∀ call ∈ calls, call.Unrecorded) ∧
      ∀ takes, exitHeapTree takes 1 after = some ⟨[], false, after.trees⟩) := by
  have same := sameProcess_run run
  refine ⟨same, fun none => ⟨unrecorded_run run none, fun takes => ?_⟩⟩
  exact if_pos (same.heapTree.trans none)

/-- A process as it is spawned. -/
def spawnedHeap : ProcessHeap := ⟨.kRunning, 0, 0, fun _ => ⟨0, 0, 0, .kInvalidTreeKind, 0, 0, 0, 0⟩⟩

theorem tls_unrecorded_object : ∃ after, SameProcess spawnedHeap after ∧
    ∀ takes, exitHeapTree takes 1 after = some ⟨[], false, after.trees⟩ := by
  have run : Run TlsStep spawnedHeap [.new 16 0x1000 0x2000 0x1000, .delete 0x1000 true false] _ :=
    .cons ⟨0, rfl⟩ (.single ⟨0, rfl⟩)
  have kept := tls_unrecorded _ _ _ run
  exact ⟨_, kept.1, (kept.2 rfl).2⟩

end Ne.Kernel.Sched
