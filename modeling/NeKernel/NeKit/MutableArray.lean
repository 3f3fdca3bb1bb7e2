import NeKernel.Lib.NextList
import NeKernel.Lib.Terminated
import NeKernel.Machine

/-!
# Arrays of linked nodes

`Add` puts its value in the first node that is not used. It makes a node only when there is none at all,
and never links one behind another.
-/

namespace Ne.Kernel
open ByteMem NextList

structure MutableLinkedList (T : Type*) where
  fVal : T
  fIndex : SizeT
  fUsed : Bool
  fPrev : UIntPtr
  fNext : UIntPtr

/-- The nodes by their addresses, and the members of the array. -/
structure MutableArray (T : Type*) where
  nodes : UIntPtr → MutableLinkedList T
  fLastNode : UIntPtr
  fFirstNode : UIntPtr
  fNodeCount : SizeT

namespace MutableArray

variable {T : Type}

/-- The first node that passes a test, null when none does, from `a` on. A walk of more steps than there are
addresses runs in a circle and does not end. -/
def walk (nodes : UIntPtr → MutableLinkedList T) (test : MutableLinkedList T → Bool) : Nat → UIntPtr → Option UIntPtr
  | 0, _ => none
  | fuel + 1, a =>
      if a = 0 then some 0 else if test (nodes a) then some a else walk nodes test fuel (nodes a).fNext

def firstNode (nodes : UIntPtr → MutableLinkedList T) (test : MutableLinkedList T → Bool) (a : UIntPtr) :
    Option UIntPtr :=
  walk nodes test addressCount a

/-- The array with a first node, for which `new` answers `fresh` when there is none yet. -/
def withFirst [Inhabited T] (fresh : UIntPtr) (s : MutableArray T) : MutableArray T :=
  if s.fFirstNode = 0 then
    { s with
      nodes := if fresh = 0 then s.nodes else Function.update s.nodes fresh ⟨default, 0, false, 0, 0⟩
      fFirstNode := fresh }
  else s

/-- `MutableArray::Add`, nothing when it does not return: `MUST_PASS` stops the kernel without a node. -/
def add [Inhabited T] (fresh : UIntPtr) (val : T) (s : MutableArray T) : Option (Bool × MutableArray T) :=
  let s := withFirst fresh s
  if s.fFirstNode = 0 then none
  else do
    let a ← firstNode s.nodes (fun node => !node.fUsed) s.fFirstNode
    if a = 0 then some (false, s)
    else
      some (true,
        { s with
          nodes := Function.update s.nodes a { s.nodes a with fVal := val, fIndex := 0, fUsed := true }
          fNodeCount := s.fNodeCount + 1 })

/-- `MutableArray::operator[]`, an empty reference when no node has the index. -/
def get (index : SizeT) (s : MutableArray T) : Option (Option T) := do
  let first ← firstNode s.nodes (fun node => node.fIndex = index) s.fFirstNode
  if first ≠ 0 then some (some (s.nodes first).fVal)
  else
    let last ← firstNode s.nodes (fun node => node.fIndex = index) s.fLastNode
    some (if last ≠ 0 then some (s.nodes last).fVal else none)

/-- A value to add, and what `new` answers should it be asked. -/
structure Addition (T : Type*) where
  val : T
  fresh : UIntPtr

/-- The results of a sequence of additions, and the array behind them. -/
def addAll [Inhabited T] : List (Addition T) → MutableArray T → Option (List Bool × MutableArray T)
  | [], s => some ([], s)
  | addition :: rest, s => do
      let (added, s) ← add addition.fresh addition.val s
      let (results, s) ← addAll rest s
      some (added :: results, s)

/-- An array as its constructor leaves it, over nodes that other things have made. -/
def fresh (nodes : UIntPtr → MutableLinkedList T) : MutableArray T := ⟨nodes, 0, 0, 0⟩

/-- Every addition succeeds, and the array then holds the values in their order. -/
def IsList [Inhabited T] (nodes : UIntPtr → MutableLinkedList T) (additions : List (Addition T)) : Prop :=
  ∃ results s, addAll additions (fresh nodes) = some (results, s) ∧ (∀ added ∈ results, added = true) ∧
    s.fNodeCount.toNat = additions.length ∧
    ∀ i addition, additions[i]? = some addition → get (BitVec.ofNat 64 i) s = some (some addition.val)

/-- One node, which is used and holds the value under index 0. -/
structure Single (s : MutableArray T) (val : T) : Prop where
  first : s.fFirstNode ≠ 0
  count : s.fNodeCount = 1
  node : s.nodes s.fFirstNode = ⟨val, 0, true, 0, 0⟩

section Nodes
variable {nodes : UIntPtr → MutableLinkedList T} {test : MutableLinkedList T → Bool} {a : UIntPtr}
  {chain : List UIntPtr}
  {fuel : Nat} {s s' : MutableArray T} {val val' : T} {additions : List (Addition T)} {added : Bool}
  {results : List Bool}

/-- A walk along a list of nodes finds the first of them that passes. -/
theorem walk_eq (list : Follows (fun a => (nodes a).fNext) 0 a chain) (long : chain.length < fuel) :
    walk nodes test fuel a = some ((chain.find? fun b => test (nodes b)).getD 0) := by
  induction fuel generalizing a chain with
  | zero => omega
  | succ fuel ih =>
      rw [walk]
      cases list with
      | nil => rfl
      | @cons _ rest nonnull tail =>
          rw [if_neg nonnull, List.find?_cons]
          by_cases passes : test (nodes a) = true
          · rw [if_pos passes, passes]
            rfl
          · rw [if_neg passes, Bool.eq_false_of_not_eq_true passes]
            exact ih tail (by simpa using long)

theorem several : 1 < addressCount := by
  unfold addressCount
  decide

theorem firstNode_single (present : a ≠ 0) (last : (nodes a).fNext = 0) :
    firstNode nodes test a = some (if test (nodes a) then a else 0) := by
  have list : Follows (fun a => (nodes a).fNext) 0 a [a] := by
    refine .cons present ?_
    rw [last]
    exact .nil
  rw [firstNode, walk_eq list several, List.find?_cons]
  by_cases passes : test (nodes a) = true
  · rw [passes]
    rfl
  · rw [Bool.eq_false_of_not_eq_true passes]
    rfl

variable [Inhabited T]

/-- The first addition makes the one node that the array will ever have. -/
theorem add_first {answer : UIntPtr} (made : answer ≠ 0) :
    ∃ s, add answer val (fresh nodes) = some (true, s) ∧ Single s val := by
  have node : Function.update nodes answer ⟨default, 0, false, 0, 0⟩ answer = ⟨default, 0, false, 0, 0⟩ :=
    Function.update_self ..
  have start : withFirst answer (fresh nodes) =
      ⟨Function.update nodes answer ⟨default, 0, false, 0, 0⟩, 0, answer, 0⟩ := by
    rw [withFirst, fresh, if_pos rfl, if_neg made]
  have found : firstNode (Function.update nodes answer ⟨default, 0, false, 0, 0⟩) (fun node => !node.fUsed) answer =
      some answer := by
    rw [firstNode_single made (by rw [node]), node]
    rfl
  rw [add, start]
  dsimp only
  rw [if_neg made, found, Option.bind_eq_bind, Option.bind_some, if_neg made]
  refine ⟨_, rfl, made, rfl, ?_⟩
  dsimp only
  rw [Function.update_self, node]

theorem add_refused : add 0 val (fresh nodes) = none := rfl

/-- Every later one finds that node used, and none behind it. -/
theorem Single.add (single : Single s val) (answer : UIntPtr) : add answer val' s = some (false, s) := by
  have start : withFirst answer s = s := if_neg single.first
  have found : firstNode s.nodes (fun node => !node.fUsed) s.fFirstNode = some 0 := by
    rw [firstNode_single single.first (by rw [single.node]), single.node]
    rfl
  rw [MutableArray.add, start]
  dsimp only
  rw [if_neg single.first, found]
  rfl

omit [Inhabited T] in
theorem Single.get (single : Single s val) : get 0 s = some (some val) := by
  have found : firstNode s.nodes (fun node => node.fIndex = 0) s.fFirstNode = some s.fFirstNode := by
    rw [firstNode_single single.first (by rw [single.node]), single.node]
    rfl
  rw [MutableArray.get, found, Option.bind_eq_bind, Option.bind_some, if_pos single.first, single.node]

theorem Single.addAll (single : Single s val) :
    addAll additions s = some (List.replicate additions.length false, s) := by
  induction additions with
  | nil => rfl
  | cons next rest ih =>
      rw [MutableArray.addAll, single.add, Option.bind_eq_bind, Option.bind_some]
      dsimp only
      rw [ih]
      rfl

theorem addAll_cons {first : Addition T} (made : first.fresh ≠ 0) :
    ∃ s, addAll (first :: additions) (fresh nodes) = some (true :: List.replicate additions.length false, s) ∧
      Single s first.val := by
  obtain ⟨s, added, single⟩ := @add_first _ nodes first.val _ _ made
  refine ⟨s, ?_, single⟩
  rw [addAll, added, Option.bind_eq_bind, Option.bind_some]
  dsimp only
  rw [single.addAll]
  rfl

theorem addAll_refused {first : Addition T} (none : first.fresh = 0) :
    addAll (first :: additions) (fresh nodes) = .none := by
  rw [addAll, none, add_refused]
  rfl

theorem not_isList_two {first second : Addition T} : ¬ IsList nodes (first :: second :: additions) := by
  rintro ⟨results, s, ran, all, -⟩
  by_cases none : first.fresh = 0
  · rw [addAll_refused none] at ran
    cases ran
  · obtain ⟨t, ran', -⟩ := @addAll_cons _ nodes (second :: additions) _ first none
    rw [ran'] at ran
    obtain ⟨rfl, -⟩ := Prod.mk.inj (Option.some.inj ran)
    exact absurd (all false (by simp)) (by decide)

/-- The array is a list exactly of nothing, and of one value for which there is a node. -/
theorem isList_iff : IsList nodes additions ↔ additions = [] ∨ ∃ only, additions = [only] ∧ only.fresh ≠ 0 := by
  cases additions with
  | nil => exact iff_of_true ⟨[], fresh nodes, rfl, by simp, rfl, by simp⟩ (.inl rfl)
  | cons first rest =>
      cases rest with
      | cons second rest => simp [not_isList_two]
      | nil =>
          by_cases none : first.fresh = 0
          · refine iff_of_false ?_ (by simp [none])
            rintro ⟨results, s, ran, -⟩
            rw [addAll_refused none] at ran
            cases ran
          · refine iff_of_true ?_ (.inr ⟨first, rfl, none⟩)
            obtain ⟨s, ran, single⟩ := @addAll_cons _ nodes [] _ first none
            refine ⟨[true], s, ran, by simp, by rw [single.count]; rfl, fun i addition found => ?_⟩
            obtain ⟨here, same⟩ := List.getElem?_eq_some_iff.mp found
            have zero : i = 0 := by simpa using here
            subst zero
            rw [← same]
            exact single.get

theorem isList_fails_two : ¬ IsList (fun _ => ⟨0, 0, false, 0, 0⟩) [⟨7, 0x1000⟩, ⟨8, 0x2000⟩] := not_isList_two (T := ℕ)

end Nodes

end MutableArray

end Ne.Kernel
