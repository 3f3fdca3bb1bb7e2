import NeKernel.Sched.UserProcessScheduler
import NeKernel.Lib.Loop
import NeKernel.Lib.NextList

/-!
# The heap tree of a process

`New`, `Delete` and what `Exit` does with the tree. The records lie apart from each other, each at the
address `operator new` gave for it. What the kernel heap answers comes with each call.
-/

namespace Ne.Kernel.Sched
open Runs Loops NextList

/-- 128 GiB. -/
def kCPSMaxMemoryLimit : SizeT := 137438953472

inductive TreeKind where
  | kInvalidTreeKind
  | kRedTreeKind
  | kBlackTreeKind
  deriving DecidableEq, Repr

structure ProcessHeapTree where
  Entry : VoidPtr
  EntrySize : SizeT
  EntryPad : SizeT
  Color : TreeKind
  Parent : VoidPtr
  Child : VoidPtr
  Prev : VoidPtr
  Next : VoidPtr

abbrev Trees := VoidPtr → ProcessHeapTree

structure ProcessHeap where
  Status : ProcessStatusKind
  UsedMemory : SizeT
  HeapTree : VoidPtr
  trees : Trees

def ProcessHeap.Crash (process : ProcessHeap) : ProcessHeap :=
  if process.Status = .kRunning then { process with Status := .kKilled } else process

def schedTryGoUpperPtrTree (trees : Trees) (tree : VoidPtr) : VoidPtr :=
  if tree = 0 then 0
  else
    let tree := if (trees tree).Parent ≠ 0 then (trees tree).Parent else tree
    if (trees tree).Next = 0 then tree else (trees tree).Next

/-! ## Allocations -/

/-- `entry`, `prev_entry` and `is_parent` of the loop that looks for a place. -/
structure Place where
  entry : VoidPtr
  prevEntry : VoidPtr
  isParent : Bool
  deriving DecidableEq

def placeRound (trees : Trees) (sz : SizeT) (place : Place) : Turn Place Place :=
  let here := trees place.entry
  if place.entry = 0 then .done place
  else if here.EntrySize < 1 then .done place
  else if here.Child ≠ 0 ∧ (trees here.Child).EntrySize > 0 ∧ (trees here.Child).EntrySize = sz then
    .again ⟨here.Child, place.entry, true⟩
  else if here.Next ≠ 0 ∧ (trees here.Next).EntrySize > 0 ∧ (trees here.Next).EntrySize = sz then
    .again ⟨here.Next, place.entry, false⟩
  else
    let upper := schedTryGoUpperPtrTree trees place.entry
    let place := ⟨upper, place.entry, place.isParent⟩
    if upper ≠ 0 ∧ (trees upper).Color = .kBlackTreeKind then .done place else .again place

/-- The writes of `New` to the record it made and to the one before it. -/
def Trees.link (trees : Trees) (place : Place) (node ptr : VoidPtr) (sz padAmount : SizeT) : Trees :=
  let trees := Function.update trees node ⟨ptr, sz, padAmount, .kBlackTreeKind, place.entry, 0, 0, 0⟩
  let trees := Function.update trees place.prevEntry { trees place.prevEntry with Color := .kRedTreeKind }
  if place.isParent then
    let trees := Function.update trees place.prevEntry { trees place.prevEntry with Child := node }
    Function.update trees node { trees node with Parent := place.prevEntry }
  else
    let trees := Function.update trees place.prevEntry { trees place.prevEntry with Next := node }
    Function.update trees node { trees node with Prev := place.prevEntry }

/-- `ptr` is what `mm_alloc_ptr` returns for the allocation, `node` what `operator new` returns for its
record. `none` when the fuel does not reach the end of the loop. -/
def New (fuel : ℕ) (sz padAmount : SizeT) (ptr node : VoidPtr) (process : ProcessHeap) :
    Option (Except Int VoidPtr × ProcessHeap) :=
  if process.UsedMemory > kCPSMaxMemoryLimit then some (.error (-kErrorHeapOutOfMemory), process)
  else if process.HeapTree = 0 then
    if node = 0 then some (.error (-kErrorHeapOutOfMemory), process.Crash)
    else some (.ok ptr, { process with
      HeapTree := node
      trees := Function.update process.trees node ⟨ptr, sz, padAmount, .kBlackTreeKind, 0, 0, 0, 0⟩
      UsedMemory := process.UsedMemory + sz })
  else
    (loop (placeRound process.trees sz) fuel ⟨process.HeapTree, process.HeapTree, false⟩).map fun place =>
      if node = 0 then (.error (-kErrorHeapOutOfMemory), process.Crash)
      else (.ok ptr, { process with
        trees := process.trees.link place node ptr sz padAmount
        UsedMemory := process.UsedMemory + sz })

/-! ## Deletions -/

def deleteRound (trees : Trees) (ptr entry : VoidPtr) : Turn VoidPtr (Option VoidPtr) :=
  if entry = 0 then .done none
  else if (trees entry).Entry = ptr then .done (some entry)
  else .again (trees entry).Next

/-- `freed` is whether `mm_free_ptr` takes the entry back. The record stays in the tree. -/
def Delete (fuel : ℕ) (ptr : VoidPtr) (freed : Bool) (process : ProcessHeap) : Option (Bool × ProcessHeap) :=
  if ptr = 0 then some (false, process)
  else if process.HeapTree = 0 then some (false, process)
  else
    (loop (deleteRound process.trees ptr) fuel process.HeapTree).map fun
      | some entry => (freed, { process with UsedMemory := process.UsedMemory - (process.trees entry).EntrySize })
      | none => (false, process.Crash)

/-! ## The exit -/

/-- What has been passed to `mm_free_ptr`, and whether `MUST_PASS` has stopped the machine. -/
structure Freeing where
  passed : List VoidPtr
  stopped : Bool
  trees : Trees

/-- `takes` is what `mm_free_ptr` answers, given what was passed to it before. -/
def schedFreePtrTree (takes : List VoidPtr → VoidPtr → Bool) : ℕ → VoidPtr → Freeing → Option Freeing
  | 0, _, _ => none
  | fuel + 1, tree, f =>
      if tree = 0 then some f
      else
        let entry := (f.trees tree).Entry
        let f := if entry ≠ 0 then { f with passed := f.passed ++ [entry], stopped := !takes f.passed entry } else f
        if f.stopped then some f
        else
          let next := (f.trees tree).Next
          let children :=
            if next ≠ 0 ∧ (f.trees next).Child ≠ 0 then schedFreePtrTree takes fuel (f.trees next).Child f
            else some f
          children.bind fun f =>
            if f.stopped then some f
            else schedFreePtrTree takes fuel next { f with
              passed := f.passed ++ [tree]
              trees := Function.update f.trees tree { f.trees tree with Child := 0 } }

/-- The first thing `Exit` does. -/
def exitHeapTree (takes : List VoidPtr → VoidPtr → Bool) (fuel : ℕ) (process : ProcessHeap) : Option Freeing :=
  schedFreePtrTree takes fuel process.HeapTree ⟨[], false, process.trees⟩

/-! ## Runs

Beside the process a run keeps the allocations that were recorded and not deleted, in the order of their
recording, and every record that was made.
-/

structure HeapHistory where
  process : ProcessHeap
  live : List VoidPtr
  records : List VoidPtr

inductive HeapCall where
  | new (sz padAmount : SizeT) (ptr node : VoidPtr)
  | delete (ptr : VoidPtr) (freed : Bool)

def HeapCall.run (fuel : ℕ) : HeapCall → HeapHistory → Option HeapHistory
  | .new sz padAmount ptr node, h =>
      (New fuel sz padAmount ptr node h.process).map fun
        | (.ok ptr, process) => ⟨process, h.live ++ [ptr], h.records ++ [node]⟩
        | (.error _, process) => ⟨process, h.live, h.records⟩
  | .delete ptr freed, h =>
      (Delete fuel ptr freed h.process).map fun (deleted, process) =>
        ⟨process, if deleted then h.live.erase ptr else h.live, h.records⟩

/-- The call returns. -/
def HeapStep (call : HeapCall) (h h' : HeapHistory) : Prop := ∃ fuel, call.run fuel h = some h'

/-- The kernel heap serves the call: it has no block of no bytes, and none that is in use. -/
def HeapCall.Served (h : HeapHistory) : HeapCall → Prop
  | .new sz _ ptr node => h.process.UsedMemory ≤ kCPSMaxMemoryLimit →
      sz ≠ 0 ∧ ptr ≠ 0 ∧ node ≠ 0 ∧ ptr ≠ node ∧ ptr ∉ h.live ++ h.records ∧ node ∉ h.live ++ h.records
  | .delete _ _ => True

abbrev ServedStep := Guarded (fun call h => HeapCall.Served h call) HeapStep

/-- A process without allocations. -/
def unallocated (process : ProcessHeap) : HeapHistory := ⟨process, [], []⟩

end Ne.Kernel.Sched
