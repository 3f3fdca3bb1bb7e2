import NeKernel.Sched.HeapTreePlaces

/-!
# What a process is charged for its heap

`Delete` lowers `UsedMemory` before it asks the kernel heap, and leaves the record where it is. `New` tests
`UsedMemory` without the size asked for.
-/

namespace Ne.Kernel.Sched
open Runs Loops NextList

/-- `Delete`, where `answer` is what comes of `mm_free_ptr`: nothing if it stops the machine, as it does when it
finds that the block has been given back. -/
def DeleteOrStop (fuel : ℕ) (ptr : VoidPtr) (answer : Option Bool) (process : ProcessHeap) :
    Option (Bool × ProcessHeap) :=
  match answer with
  | some freed => Delete fuel ptr freed process
  | none =>
      let found := (loop (deleteRound process.trees ptr) fuel process.HeapTree).join
      if ptr ≠ 0 ∧ found.isSome then none else Delete fuel ptr false process

/-! ## The ledger -/

/-- Beside the process stand the allocations that were made and not yet deleted, with their sizes, those that
were deleted, and every record. -/
structure Ledger where
  process : ProcessHeap
  held : List (VoidPtr × SizeT)
  deleted : List VoidPtr
  records : List VoidPtr

inductive LedgerCall where
  | new (sz padAmount : SizeT) (ptr node : VoidPtr)
  | delete (ptr : VoidPtr) (answer : Option Bool)

def Ledger.history (l : Ledger) : HeapHistory := ⟨l.process, l.held.map Prod.fst, l.records⟩

def Ledger.strike (l : Ledger) (ptr : VoidPtr) (process : ProcessHeap) : Ledger :=
  ⟨process, l.held.eraseP (·.1 = ptr), ptr :: l.deleted, l.records⟩

def LedgerCall.enter (fuel : ℕ) : LedgerCall → Ledger → Option (Bool × Ledger)
  | .new sz padAmount ptr node, l =>
      (New fuel sz padAmount ptr node l.process).map fun
        | (.ok ptr, process) => (true, ⟨process, l.held ++ [(ptr, sz)], l.deleted, l.records ++ [node]⟩)
        | (.error _, process) => (false, { l with process := process })
  | .delete ptr answer, l =>
      (DeleteOrStop fuel ptr answer l.process).map fun (done, process) =>
        (done, if done then l.strike ptr process else { l with process := process })

def LedgerCall.Unmade (l : Ledger) : LedgerCall → Prop
  | .new _ _ _ node => node ∉ l.records
  | .delete _ _ => True

def LedgerStep (call : LedgerCall) (l l' : Ledger) : Prop := ∃ fuel done, call.enter fuel l = some (done, l')

abbrev EnteredStep := Guarded (fun call l => LedgerCall.Unmade l call) LedgerStep

def opened (process : ProcessHeap) : Ledger := ⟨process, [], [], []⟩

def Ledger.Holds (l : Ledger) (ptr : VoidPtr) : Prop := ptr ∈ l.held.map Prod.fst

/-- The size of the allocation that deleting the pointer takes off the ledger. -/
def Ledger.size (l : Ledger) (ptr : VoidPtr) : Option SizeT := (l.held.find? (·.1 = ptr)).map Prod.snd

def Ledger.total (l : Ledger) : ℕ := (l.held.map fun entry => entry.2.toNat).sum

def Ledger.Balanced (l : Ledger) : Prop := l.process.UsedMemory.toNat = l.total

/-- The call leaves `UsedMemory` at the sum of what is held. An allocation stays below the limit, and for a
pointer that has been deleted already `No` comes back and `UsedMemory` stays. -/
def Accounts (call : LedgerCall) (l : Ledger) : Prop :=
  (∀ fuel done l', call.enter fuel l = some (done, l') → l'.Balanced) ∧
  match call with
  | .new sz _ _ _ => ∀ fuel l', call.enter fuel l = some (true, l') →
      l.process.UsedMemory.toNat + sz.toNat ≤ kCPSMaxMemoryLimit.toNat
  | .delete ptr _ => ptr ∈ l.deleted → ¬ l.Holds ptr → ∃ fuel l', call.enter fuel l = some (false, l') ∧
      l'.process.UsedMemory = l.process.UsedMemory

/-- The first record with this entry on the list. -/
inductive FirstRecord (trees : Trees) (ptr : VoidPtr) : VoidPtr → VoidPtr → Prop
  | here {node : VoidPtr} : node ≠ 0 → trees.entry node = ptr → FirstRecord trees ptr node node
  | later {node record : VoidPtr} : node ≠ 0 → trees.entry node ≠ ptr →
      FirstRecord trees ptr (trees.next node) record → FirstRecord trees ptr node record

/-- An allocation that gets through is below the limit with its size. If a deletion comes to a record, its
size is the one held if the block is freed and zero if it is refused, and the heap stops only for what is held. -/
def Charges (call : LedgerCall) (l : Ledger) : Prop :=
  match call with
  | .new sz _ _ node => l.process.UsedMemory ≤ kCPSMaxMemoryLimit → node ≠ 0 →
      l.process.HeapTree = 0 ∨ SizeFits l.process.trees l.process.HeapTree sz →
      l.process.UsedMemory.toNat + sz.toNat ≤ kCPSMaxMemoryLimit.toNat
  | .delete ptr answer => ptr ≠ 0 → ∀ record, FirstRecord l.process.trees ptr l.process.HeapTree record →
      match answer with
      | some true => l.size ptr = some (l.process.trees record).EntrySize
      | some false => (l.process.trees record).EntrySize = 0
      | none => l.Holds ptr

/-! ## What the calls do -/

section Outcomes
variable {trees : Trees} {ptr head record node : VoidPtr} {fuel : ℕ} {found : Option VoidPtr} {freed done : Bool}
  {answer : Option Bool} {process process' : ProcessHeap} {sz padAmount : SizeT} {nodes : List VoidPtr}

theorem FirstRecord.nonnull (first : FirstRecord trees ptr head record) : head ≠ 0 := by
  cases first with
  | here present _ => exact present
  | later present _ _ => exact present

theorem FirstRecord.entry (first : FirstRecord trees ptr head record) : trees.entry record = ptr := by
  induction first with
  | here _ same => exact same
  | later _ _ _ ih => exact ih

theorem FirstRecord.mem (first : FirstRecord trees ptr head record) (list : Follows trees.next 0 head nodes) :
    record ∈ nodes := by
  induction first generalizing nodes with
  | here present _ =>
      refine list.head_mem ?_
      rintro rfl
      exact present list.ends
  | later present _ _ ih =>
      cases list with
      | nil => exact absurd rfl present
      | cons _ tail => exact List.mem_cons_of_mem _ (ih tail)

theorem FirstRecord.unique {other : VoidPtr} (first : FirstRecord trees ptr head record)
    (second : FirstRecord trees ptr head other) : record = other := by
  induction first with
  | here _ same =>
      cases second with
      | here _ _ => rfl
      | later _ differ _ => exact absurd same differ
  | later _ differ _ ih =>
      cases second with
      | here _ same => exact absurd same differ
      | later _ _ rest => exact ih rest

theorem firstRecord_iff (ends : loop (deleteRound trees ptr) fuel head = some found) :
    FirstRecord trees ptr head record ↔ found = some record := by
  induction fuel generalizing head with
  | zero => cases ends
  | succ fuel ih =>
      by_cases null : head = 0
      · have turn : deleteRound trees ptr head = .done none := if_pos null
        rw [loop_done turn] at ends
        obtain rfl := Option.some.inj ends
        exact iff_of_false (fun first => first.nonnull null) nofun
      by_cases here : trees.entry head = ptr
      · have turn : deleteRound trees ptr head = .done (some head) := by
          rw [deleteRound, if_neg null]
          exact if_pos here
        rw [loop_done turn] at ends
        obtain rfl := Option.some.inj ends
        constructor
        · intro first
          cases first with
          | here _ _ => rfl
          | later _ differ _ => exact absurd here differ
        · intro same
          obtain rfl := Option.some.inj same
          exact .here null here
      · have turn : deleteRound trees ptr head = .again (trees.next head) := by
          rw [deleteRound, if_neg null]
          exact if_neg here
        rw [loop_again turn] at ends
        rw [← ih ends]
        constructor
        · intro first
          cases first with
          | here _ same => exact absurd same here
          | later _ _ rest => exact rest
        · exact .later null here

/-- The record that `Delete` comes to. -/
def Sought (process : ProcessHeap) (ptr record : VoidPtr) : Prop :=
  ptr ≠ 0 ∧ FirstRecord process.trees ptr process.HeapTree record

theorem Delete_missed_used (missed : ∀ record, ¬ Sought process ptr record)
    (returned : Delete fuel ptr freed process = some (done, process')) :
    done = false ∧ process'.UsedMemory = process.UsedMemory := by
  unfold Delete at returned
  split at returned
  · obtain ⟨rfl, rfl⟩ := Prod.mk.inj (Option.some.inj returned)
    exact ⟨rfl, rfl⟩
  case isFalse filled =>
    split at returned
    · obtain ⟨rfl, rfl⟩ := Prod.mk.inj (Option.some.inj returned)
      exact ⟨rfl, rfl⟩
    obtain ⟨found, ends, same⟩ := Option.map_eq_some_iff.mp returned
    cases found with
    | some record => exact absurd ⟨filled, (firstRecord_iff ends).mpr rfl⟩ (missed record)
    | none =>
        obtain ⟨rfl, rfl⟩ := Prod.mk.inj same
        refine ⟨rfl, ?_⟩
        unfold ProcessHeap.Crash
        split <;> rfl

theorem Delete_sought (sought : Sought process ptr record)
    (returned : Delete fuel ptr freed process = some (done, process')) :
    loop (deleteRound process.trees ptr) fuel process.HeapTree = some (some record) ∧ done = freed ∧
      process' = { process with UsedMemory := process.UsedMemory - (process.trees record).EntrySize } := by
  unfold Delete at returned
  rw [if_neg sought.1, if_neg sought.2.nonnull] at returned
  obtain ⟨found, ends, same⟩ := Option.map_eq_some_iff.mp returned
  obtain rfl := (firstRecord_iff ends).mp sought.2
  obtain ⟨rfl, rfl⟩ := Prod.mk.inj same
  exact ⟨ends, rfl, rfl⟩

/-- A call that returns went through `Delete`; where the answer would stop the machine, it found no record. -/
theorem stop_cases (returned : DeleteOrStop fuel ptr answer process = some (done, process')) :
    ∃ freed, Delete fuel ptr freed process = some (done, process') ∧ (answer = some freed ∨ answer = none ∧
      ¬ (ptr ≠ 0 ∧ (loop (deleteRound process.trees ptr) fuel process.HeapTree).join.isSome)) := by
  cases answer with
  | some freed => exact ⟨freed, returned, .inl rfl⟩
  | none =>
      unfold DeleteOrStop at returned
      dsimp only at returned
      split at returned
      · cases returned
      case isFalse running => exact ⟨false, returned, .inr ⟨rfl, running⟩⟩

theorem stop_missed (missed : ∀ record, ¬ Sought process ptr record)
    (returned : DeleteOrStop fuel ptr answer process = some (done, process')) :
    done = false ∧ process'.UsedMemory = process.UsedMemory := by
  obtain ⟨freed, deleted, -⟩ := stop_cases returned
  exact Delete_missed_used missed deleted

theorem stop_sought (sought : Sought process ptr record)
    (returned : DeleteOrStop fuel ptr answer process = some (done, process')) :
    answer = some done ∧
      process' = { process with UsedMemory := process.UsedMemory - (process.trees record).EntrySize } := by
  obtain ⟨freed, deleted, answered⟩ := stop_cases returned
  obtain ⟨ends, rfl, same⟩ := Delete_sought sought deleted
  rcases answered with rfl | ⟨-, running⟩
  · exact ⟨rfl, same⟩
  · rw [ends] at running
    exact absurd ⟨sought.1, rfl⟩ running

theorem stop_trees (returned : DeleteOrStop fuel ptr answer process = some (done, process')) :
    process'.trees = process.trees ∧ process'.HeapTree = process.HeapTree := by
  obtain ⟨freed, deleted, -⟩ := stop_cases returned
  exact Delete_trees deleted

theorem stop_returns_missed (list : Follows process.trees.next 0 process.HeapTree nodes)
    (missed : ∀ record, ¬ Sought process ptr record) :
    ∃ fuel process', DeleteOrStop fuel ptr answer process = some (false, process') := by
  obtain ⟨fuel, found, ends, -⟩ := @delete_search _ _ ptr _ list
  have returns (freed : Bool) : ∃ process', Delete fuel ptr freed process = some (false, process') := by
    unfold Delete
    split
    · exact ⟨_, rfl⟩
    case isFalse filled =>
      split
      · exact ⟨_, rfl⟩
      cases found with
      | some record => exact absurd ⟨filled, (firstRecord_iff ends).mpr rfl⟩ (missed record)
      | none => exact ⟨_, by rw [ends]; rfl⟩
  cases answer with
  | some freed =>
      obtain ⟨process', returned⟩ := returns freed
      exact ⟨fuel, process', returned⟩
  | none =>
      obtain ⟨process', returned⟩ := returns false
      refine ⟨fuel, process', ?_⟩
      unfold DeleteOrStop
      dsimp only
      rw [if_neg, returned]
      rintro ⟨filled, some⟩
      rw [ends] at some
      obtain ⟨record, rfl⟩ := Option.isSome_iff_exists.mp some
      exact missed record ⟨filled, (firstRecord_iff ends).mpr rfl⟩

theorem stop_returns_sought (list : Follows process.trees.next 0 process.HeapTree nodes)
    (sought : Sought process ptr record) :
    ∃ fuel process', DeleteOrStop fuel ptr (some freed) process = some (freed, process') := by
  obtain ⟨fuel, found, ends, -⟩ := @delete_search _ _ ptr _ list
  obtain rfl := (firstRecord_iff ends).mp sought.2
  exact ⟨fuel, _, Delete_found sought.1 sought.2.nonnull ends⟩

theorem entry_update {tree : ProcessHeapTree} (same : tree.Entry = trees.entry node) :
    Trees.entry (Function.update trees node tree) = trees.entry := by
  funext other
  unfold Trees.entry
  by_cases here : other = node
  · rw [here, Function.update_self, same]
    rfl
  · rw [Function.update_of_ne here]

theorem entry_made {tree : ProcessHeapTree} (other : VoidPtr) :
    Trees.entry (Function.update trees node tree) other = if other = node then tree.Entry else trees.entry other := by
  unfold Trees.entry
  split
  case isTrue here => rw [here, Function.update_self]
  case isFalse apart => rw [Function.update_of_ne apart]

theorem link_entry (place : Place) (other : VoidPtr) :
    (trees.link place node ptr sz padAmount).entry other = if other = node then ptr else trees.entry other := by
  let tree : ProcessHeapTree := ⟨ptr, sz, padAmount, .kBlackTreeKind, place.entry, 0, 0, 0⟩
  refine Eq.trans (congrFun ?_ other) (@entry_made trees node tree other)
  unfold Trees.link
  dsimp only
  split
  all_goals
    refine (entry_update ?_).trans ((entry_update ?_).trans (entry_update ?_))
    all_goals rfl

/-- What `New` does when it succeeds. -/
structure Made (process : ProcessHeap) (sz : SizeT) (ptr node : VoidPtr) (process' : ProcessHeap) : Prop where
  room : process.UsedMemory ≤ kCPSMaxMemoryLimit
  present : node ≠ 0
  used : process'.UsedMemory = process.UsedMemory + sz
  entry : ∀ other, process'.trees.entry other = if other = node then ptr else process.trees.entry other

theorem New_outcome {result : Except Int VoidPtr}
    (returned : New fuel sz padAmount ptr node process = some (result, process')) :
    result = .ok ptr ∧ Made process sz ptr node process' ∨
      (∃ code, result = .error code) ∧ (process.UsedMemory ≤ kCPSMaxMemoryLimit → node = 0) ∧
        process'.UsedMemory = process.UsedMemory ∧ process'.trees = process.trees ∧
          process'.HeapTree = process.HeapTree := by
  have crashed : process.Crash.UsedMemory = process.UsedMemory := by
    unfold ProcessHeap.Crash
    split <;> rfl
  unfold New at returned
  split at returned
  case isTrue full =>
    obtain ⟨rfl, rfl⟩ := Prod.mk.inj (Option.some.inj returned)
    exact .inr ⟨⟨_, rfl⟩, fun room => absurd full (BitVec.not_lt.mpr room), rfl, rfl, rfl⟩
  case isFalse full =>
  have room := BitVec.not_lt.mp full
  split at returned
  · split at returned
    case isTrue failed =>
      obtain ⟨rfl, rfl⟩ := Prod.mk.inj (Option.some.inj returned)
      exact .inr ⟨⟨_, rfl⟩, fun _ => failed, crashed, Crash_trees process⟩
    case isFalse present =>
      obtain ⟨rfl, rfl⟩ := Prod.mk.inj (Option.some.inj returned)
      exact .inl ⟨rfl, room, present, rfl, fun other => entry_made other⟩
  · obtain ⟨place, -, same⟩ := Option.map_eq_some_iff.mp returned
    split at same
    case isTrue failed =>
      obtain ⟨rfl, rfl⟩ := Prod.mk.inj same
      exact .inr ⟨⟨_, rfl⟩, fun _ => failed, crashed, Crash_trees process⟩
    case isFalse present =>
      obtain ⟨rfl, rfl⟩ := Prod.mk.inj same
      exact .inl ⟨rfl, room, present, rfl, link_entry place⟩

end Outcomes

/-! ## What the calls keep -/

/-- The ledger is balanced, and a record is for a pointer that is held or was deleted. -/
structure Kept (l : Ledger) : Prop where
  grown : ∃ chain, Grown l.history chain
  balanced : l.Balanced
  known : ∀ record ∈ l.records, l.Holds (l.process.trees.entry record) ∨ l.process.trees.entry record ∈ l.deleted

section Charged
variable {l l' : Ledger} {call : LedgerCall} {sz size padAmount : SizeT} {ptr node record : VoidPtr} {fuel : ℕ}
  {done : Bool} {answer : Option Bool} {process : ProcessHeap}

theorem enter_new (returned : (LedgerCall.new sz padAmount ptr node).enter fuel l = some (done, l')) :
    done = true ∧ Made l.process sz ptr node l'.process ∧ l'.held = l.held ++ [(ptr, sz)] ∧ l'.deleted = l.deleted ∧
        l'.records = l.records ++ [node] ∨
      done = false ∧ (l.process.UsedMemory ≤ kCPSMaxMemoryLimit → node = 0) ∧
        ∃ process, l' = { l with process := process } ∧ process.UsedMemory = l.process.UsedMemory ∧
          process.trees = l.process.trees ∧ process.HeapTree = l.process.HeapTree := by
  obtain ⟨⟨result, process⟩, ran, same⟩ := Option.map_eq_some_iff.mp returned
  rcases New_outcome ran with ⟨rfl, made⟩ | ⟨⟨code, rfl⟩, failed, used, trees, root⟩
  · obtain ⟨rfl, rfl⟩ := Prod.mk.inj same
    exact .inl ⟨rfl, made, rfl, rfl, rfl⟩
  · obtain ⟨rfl, rfl⟩ := Prod.mk.inj same
    exact .inr ⟨rfl, failed, process, rfl, used, trees, root⟩

theorem enter_delete (returned : (LedgerCall.delete ptr answer).enter fuel l = some (done, l')) :
    ∃ process, DeleteOrStop fuel ptr answer l.process = some (done, process) ∧
      l' = if done then l.strike ptr process else { l with process := process } := by
  obtain ⟨⟨done, process⟩, ran, same⟩ := Option.map_eq_some_iff.mp returned
  obtain ⟨rfl, rfl⟩ := Prod.mk.inj same
  exact ⟨process, ran, rfl⟩

theorem sum_eraseP {entry : VoidPtr × SizeT} {held : List (VoidPtr × SizeT)} {counts : VoidPtr × SizeT → Bool}
    (worth : VoidPtr × SizeT → ℕ) (first : held.find? counts = some entry) :
    (held.map worth).sum = worth entry + ((held.eraseP counts).map worth).sum := by
  induction held with
  | nil => cases first
  | cons a rest ih =>
      cases here : counts a with
      | true =>
          rw [List.find?_cons_of_pos here] at first
          obtain rfl := Option.some.inj first
          rw [List.eraseP_cons_of_pos here, List.map_cons, List.sum_cons]
      | false =>
          have apart : ¬ counts a = true := by rw [here]; decide
          rw [List.find?_cons_of_neg apart] at first
          rw [List.eraseP_cons_of_neg apart, List.map_cons, List.map_cons, List.sum_cons, List.sum_cons, ih first,
            Nat.add_left_comm]

theorem strike_total (held : l.size ptr = some size) : l.total = size.toNat + (l.strike ptr process).total := by
  obtain ⟨entry, first, rfl⟩ := Option.map_eq_some_iff.mp held
  exact sum_eraseP (fun entry => entry.2.toNat) first

theorem holds_iff : l.Holds ptr ↔ ∃ size, l.size ptr = some size := by
  unfold Ledger.Holds Ledger.size
  constructor
  · intro held
    obtain ⟨entry, member, rfl⟩ := List.mem_map.mp held
    have some : (l.held.find? fun other => other.1 = entry.1).isSome := List.find?_isSome.mpr ⟨entry, member, by simp⟩
    obtain ⟨found, first⟩ := Option.isSome_iff_exists.mp some
    exact ⟨found.2, by rw [first]; rfl⟩
  · rintro ⟨size, first⟩
    obtain ⟨entry, found, -⟩ := Option.map_eq_some_iff.mp first
    have same : entry.1 = ptr := by simpa using List.find?_some found
    exact List.mem_map.mpr ⟨entry, List.mem_of_find?_eq_some found, same⟩

theorem Kept.sought_known (kept : Kept l) (sought : Sought l.process ptr record) : l.Holds ptr ∨ ptr ∈ l.deleted := by
  obtain ⟨chain, grown⟩ := kept.grown
  have member := grown.recorded record (sought.2.mem grown.follows)
  rw [← sought.2.entry]
  exact kept.known record member

theorem new_charges_iff (kept : Kept l) :
    Accounts (.new sz padAmount ptr node) l ↔ Charges (.new sz padAmount ptr node) l := by
  obtain ⟨chain, grown⟩ := kept.grown
  have balanced := kept.balanced
  constructor
  · rintro ⟨-, below⟩ room present fits
    have ends : SearchEnds (.new sz padAmount ptr node) l.history := (searchEnds_iff grown).mpr (.inr fits)
    obtain ⟨fuel, ⟨result, process⟩, ran⟩ := ends
    rcases New_outcome ran with ⟨rfl, -⟩ | ⟨-, failed, -⟩
    · refine below fuel ⟨process, l.held ++ [(ptr, sz)], l.deleted, l.records ++ [node]⟩ ?_
      exact Option.map_eq_some_iff.mpr ⟨_, ran, rfl⟩
    · exact absurd (failed room) present
  · intro charges
    have below : ∀ fuel l', (LedgerCall.new sz padAmount ptr node).enter fuel l = some (true, l') →
        l.process.UsedMemory.toNat + sz.toNat ≤ kCPSMaxMemoryLimit.toNat := by
      intro fuel l' returned
      obtain ⟨⟨result, process⟩, ran, same⟩ := Option.map_eq_some_iff.mp returned
      have ends : SearchEnds (.new sz padAmount ptr node) l.history := ⟨fuel, _, ran⟩
      rcases New_outcome ran with ⟨-, made⟩ | ⟨⟨code, rfl⟩, -⟩
      · have fits := ((searchEnds_iff grown).mp ends).resolve_left (BitVec.not_lt.mpr made.room)
        exact charges made.room made.present fits
      · obtain ⟨lie, -⟩ := Prod.mk.inj same
        cases lie
    refine ⟨fun fuel done l' returned => ?_, below⟩
    rcases enter_new returned with ⟨rfl, made, held, -, -⟩ | ⟨rfl, -, process, rfl, used, -, -⟩
    · have limit := below fuel l' returned
      have capped := kCPSMaxMemoryLimit.isLt
      unfold Ledger.Balanced Ledger.total at balanced ⊢
      rw [made.used, held, BitVec.toNat_add, Nat.mod_eq_of_lt (by omega), balanced]
      simp
    · unfold Ledger.Balanced
      rw [used]
      exact balanced

theorem missed_accounts (kept : Kept l) (missed : ∀ record, ¬ Sought l.process ptr record) :
    Accounts (.delete ptr answer) l := by
  obtain ⟨chain, grown⟩ := kept.grown
  have back : ∀ fuel done l', (LedgerCall.delete ptr answer).enter fuel l = some (done, l') →
      done = false ∧ l'.process.UsedMemory = l.process.UsedMemory ∧ l'.held = l.held := by
    intro fuel done l' returned
    obtain ⟨process, ran, rfl⟩ := enter_delete returned
    obtain ⟨rfl, used⟩ := stop_missed missed ran
    exact ⟨rfl, used, rfl⟩
  constructor
  · intro fuel done l' returned
    obtain ⟨-, used, held⟩ := back fuel done l' returned
    unfold Ledger.Balanced Ledger.total
    rw [used, held]
    exact kept.balanced
  · intro _ _
    obtain ⟨fuel, process, ran⟩ := @stop_returns_missed _ answer _ _ grown.follows missed
    have returned : (LedgerCall.delete ptr answer).enter fuel l = some (false, { l with process := process }) :=
      Option.map_eq_some_iff.mpr ⟨_, ran, rfl⟩
    exact ⟨fuel, _, returned, (back fuel false _ returned).2.1⟩

theorem enter_sought (sought : Sought l.process ptr record)
    (returned : (LedgerCall.delete ptr answer).enter fuel l = some (done, l')) :
    answer = some done ∧ ∃ process, process.UsedMemory = l.process.UsedMemory - (l.process.trees record).EntrySize ∧
      l' = if done then l.strike ptr process else { l with process := process } := by
  obtain ⟨process, ran, same⟩ := enter_delete returned
  obtain ⟨answered, rfl⟩ := stop_sought sought ran
  exact ⟨answered, _, rfl, same⟩

theorem sought_enters (kept : Kept l) (sought : Sought l.process ptr record) (freed : Bool) :
    ∃ fuel process, process.UsedMemory = l.process.UsedMemory - (l.process.trees record).EntrySize ∧
      (LedgerCall.delete ptr (some freed)).enter fuel l =
        some (freed, if freed then l.strike ptr process else { l with process := process }) := by
  obtain ⟨chain, grown⟩ := kept.grown
  obtain ⟨fuel, process, ran⟩ := @stop_returns_sought _ _ freed _ _ grown.follows sought
  obtain ⟨-, rfl⟩ := stop_sought sought ran
  exact ⟨fuel, _, rfl, Option.map_eq_some_iff.mpr ⟨_, ran, rfl⟩⟩

theorem freed_accounts_iff (kept : Kept l) (sought : Sought l.process ptr record) :
    Accounts (.delete ptr (some true)) l ↔ l.size ptr = some (l.process.trees record).EntrySize := by
  have balanced : l.process.UsedMemory.toNat = l.total := kept.balanced
  have bound := l.process.UsedMemory.isLt
  have bound' := (l.process.trees record).EntrySize.isLt
  constructor
  · rintro ⟨sums, refuses⟩
    by_cases held : l.Holds ptr
    · obtain ⟨size, first⟩ := holds_iff.mp held
      obtain ⟨fuel, process, used, returned⟩ := sought_enters kept sought true
      have after : process.UsedMemory.toNat = (l.strike ptr process).total := sums fuel true _ returned
      have total := @strike_total _ _ _ process first
      rw [used, BitVec.toNat_sub] at after
      rw [first]
      refine congrArg some (BitVec.eq_of_toNat_eq ?_)
      omega
    · obtain ⟨fuel, l', returned, -⟩ := refuses ((kept.sought_known sought).resolve_left held) held
      cases (enter_sought sought returned).1
  · intro first
    refine ⟨fun fuel done l' returned => ?_, fun _ unheld => absurd (holds_iff.mpr ⟨_, first⟩) unheld⟩
    obtain ⟨answered, process, used, rfl⟩ := enter_sought sought returned
    obtain rfl := Option.some.inj answered
    have total := @strike_total _ _ _ process first
    change process.UsedMemory.toNat = (l.strike ptr process).total
    rw [used, BitVec.toNat_sub]
    omega

theorem refused_accounts_iff (kept : Kept l) (sought : Sought l.process ptr record) :
    Accounts (.delete ptr (some false)) l ↔ (l.process.trees record).EntrySize = 0 := by
  have balanced : l.process.UsedMemory.toNat = l.total := kept.balanced
  have bound := l.process.UsedMemory.isLt
  have bound' := (l.process.trees record).EntrySize.isLt
  constructor
  · rintro ⟨sums, -⟩
    obtain ⟨fuel, process, used, returned⟩ := sought_enters kept sought false
    have after : process.UsedMemory.toNat = l.total := sums fuel false _ returned
    rw [used, BitVec.toNat_sub] at after
    refine BitVec.eq_of_toNat_eq ?_
    change _ = 0
    omega
  · intro free
    have same : ∀ process : ProcessHeap,
        process.UsedMemory = l.process.UsedMemory - (l.process.trees record).EntrySize →
        process.UsedMemory = l.process.UsedMemory := by
      intro process used
      rw [used, free]
      exact BitVec.sub_zero _
    constructor
    · intro fuel done l' returned
      obtain ⟨answered, process, used, rfl⟩ := enter_sought sought returned
      obtain rfl := Option.some.inj answered
      change process.UsedMemory.toNat = l.total
      rw [same process used, balanced]
    · intro _ _
      obtain ⟨fuel, process, used, returned⟩ := sought_enters kept sought false
      exact ⟨fuel, _, returned, same process used⟩

theorem stopped_accounts_iff (kept : Kept l) (sought : Sought l.process ptr record) :
    Accounts (.delete ptr none) l ↔ l.Holds ptr := by
  constructor
  · rintro ⟨-, refuses⟩
    by_contra unheld
    obtain ⟨fuel, l', returned, -⟩ := refuses ((kept.sought_known sought).resolve_left unheld) unheld
    cases (enter_sought sought returned).1
  · intro held
    refine ⟨fun fuel done l' returned => ?_, fun _ unheld => absurd held unheld⟩
    cases (enter_sought sought returned).1

theorem delete_charges_iff (kept : Kept l) : Accounts (.delete ptr answer) l ↔ Charges (.delete ptr answer) l := by
  by_cases sought : ∃ record, Sought l.process ptr record
  · obtain ⟨record, sought⟩ := sought
    have charges (due : VoidPtr → Prop) : due record ↔
        (ptr ≠ 0 → ∀ other, FirstRecord l.process.trees ptr l.process.HeapTree other → due other) := by
      refine ⟨fun meets _ other first => first.unique sought.2 ▸ meets, fun all => all sought.1 record sought.2⟩
    match answer with
    | some true =>
        exact (freed_accounts_iff kept sought).trans
          (charges fun other => l.size ptr = some (l.process.trees other).EntrySize)
    | some false =>
        exact (refused_accounts_iff kept sought).trans (charges fun other => (l.process.trees other).EntrySize = 0)
    | none => exact (stopped_accounts_iff kept sought).trans (charges fun _ => l.Holds ptr)
  · refine iff_of_true (missed_accounts kept fun record here => sought ⟨record, here⟩) ?_
    intro nonnull record first
    exact absurd ⟨record, nonnull, first⟩ sought

theorem charges_iff (kept : Kept l) : Accounts call l ↔ Charges call l := by
  cases call with
  | new sz padAmount ptr node => exact new_charges_iff kept
  | delete ptr answer => exact delete_charges_iff kept

theorem step_grown (grown : ∃ chain, Grown l.history chain) (unmade : call.Unmade l) (taken : LedgerStep call l l') :
    ∃ chain, Grown l'.history chain := by
  obtain ⟨fuel, done, returned⟩ := taken
  cases call with
  | new sz padAmount ptr node =>
      obtain ⟨⟨result, process⟩, ran, same⟩ := Option.map_eq_some_iff.mp returned
      obtain ⟨chain, grown⟩ := grown
      rcases New_outcome ran with ⟨rfl, -⟩ | ⟨⟨code, rfl⟩, -, -, trees, root⟩
      · obtain ⟨-, rfl⟩ := Prod.mk.inj same
        have entered : UnmadeStep (.new sz padAmount ptr node) l.history
            (Ledger.history ⟨process, l.held ++ [(ptr, sz)], l.deleted, l.records ++ [node]⟩) := by
          refine ⟨unmade, fuel, Option.map_eq_some_iff.mpr ⟨_, ran, ?_⟩⟩
          simp [Ledger.history]
        exact turn_grown ⟨chain, grown⟩ entered
      · obtain ⟨-, rfl⟩ := Prod.mk.inj same
        exact ⟨chain, grown.frame trees root⟩
  | delete ptr answer =>
      obtain ⟨process, ran, rfl⟩ := enter_delete returned
      obtain ⟨chain, grown⟩ := grown
      obtain ⟨trees, root⟩ := stop_trees ran
      refine ⟨chain, ?_⟩
      split
      · exact grown.frame trees root
      · exact grown.frame trees root

theorem strike_knows {other : VoidPtr} (known : l.Holds other ∨ other ∈ l.deleted) :
    (l.strike ptr process).Holds other ∨ other ∈ (l.strike ptr process).deleted := by
  by_cases same : other = ptr
  · exact .inr (same ▸ List.mem_cons_self)
  refine known.imp (fun held => ?_) (List.mem_cons_of_mem _)
  obtain ⟨entry, member, rfl⟩ := List.mem_map.mp held
  have stays : entry ∈ l.held.eraseP (·.1 = ptr) :=
    (List.mem_eraseP_of_neg (by simpa using same)).mpr member
  exact List.mem_map_of_mem stays

theorem step_known (kept : Kept l) (returned : call.enter fuel l = some (done, l')) :
    ∀ record ∈ l'.records, l'.Holds (l'.process.trees.entry record) ∨ l'.process.trees.entry record ∈ l'.deleted := by
  cases call with
  | new sz padAmount ptr node =>
      rcases enter_new returned with ⟨-, made, held, deleted, records⟩ | ⟨-, -, process, rfl, -, trees, -⟩
      · intro record member
        unfold Ledger.Holds
        rw [made.entry, held, deleted, List.map_append]
        rw [records] at member
        split
        case isTrue => exact .inl (List.mem_append_right _ List.mem_cons_self)
        case isFalse apart =>
          have old := (List.mem_append.mp member).resolve_right fun here => apart (List.mem_singleton.mp here)
          exact (kept.known record old).imp_left (List.mem_append_left _)
      · intro record member
        change l.Holds (process.trees.entry record) ∨ process.trees.entry record ∈ l.deleted
        rw [trees]
        exact kept.known record member
  | delete ptr answer =>
      obtain ⟨process, ran, rfl⟩ := enter_delete returned
      obtain ⟨trees, -⟩ := stop_trees ran
      split
      · intro record member
        change (l.strike ptr process).Holds (process.trees.entry record) ∨ process.trees.entry record ∈ ptr :: l.deleted
        rw [trees]
        exact strike_knows (kept.known record member)
      · intro record member
        change l.Holds (process.trees.entry record) ∨ process.trees.entry record ∈ l.deleted
        rw [trees]
        exact kept.known record member

theorem step_kept (kept : Kept l) (charges : Charges call l) (taken : EnteredStep call l l') : Kept l' := by
  obtain ⟨unmade, fuel, done, returned⟩ := taken
  exact ⟨step_grown kept.grown unmade ⟨fuel, done, returned⟩,
    ((charges_iff kept).mpr charges).1 fuel done l' returned, step_known kept returned⟩

end Charged

/-! ## Runs -/

theorem opened_kept {process : ProcessHeap} (empty : process.HeapTree = 0) (unused : process.UsedMemory = 0) :
    Kept (opened process) := by
  refine ⟨⟨[], unallocated_grown empty⟩, ?_, fun record member => by cases member⟩
  unfold Ledger.Balanced opened
  rw [unused]
  rfl

/-- A process is charged for what it holds exactly as long as each allocation is below the limit with its size,
and each deletion comes to the record of the allocation that it takes back. -/
theorem memory_accounts_iff {process : ProcessHeap} (empty : process.HeapTree = 0) (unused : process.UsedMemory = 0)
    (calls : List LedgerCall) :
    AllSteps EnteredStep Accounts (opened process) calls ↔ AllSteps EnteredStep Charges (opened process) calls :=
  allSteps_iff (opened_kept empty unused) (fun _ _ kept => charges_iff kept)
    fun _ _ _ kept charges taken => step_kept kept charges taken

theorem memory_accounts_blank :
    AllSteps EnteredStep Accounts (opened blankProcess) [.new 16 0 0x100 0x1000, .delete 0x100 (some true)] ↔
      AllSteps EnteredStep Charges (opened blankProcess) [.new 16 0 0x100 0x1000, .delete 0x100 (some true)] :=
  memory_accounts_iff rfl rfl _

/-- `mm_free_ptr` stops the machine at the second deletion. -/
theorem second_delete_stops : ¬ ∀ process calls, process.HeapTree = 0 → process.UsedMemory = 0 →
    AllSteps EnteredStep Accounts (opened process) calls := by
  intro every
  have fresh : (0x1000 : VoidPtr) ∉ (opened blankProcess).records := by decide
  let held : Ledger := ⟨oneSize.process, [(0x100, 16)], [], [0x1000]⟩
  let struck : Ledger := held.strike 0x100 { held.process with
    UsedMemory := held.process.UsedMemory - (held.process.trees 0x1000).EntrySize }
  have first : EnteredStep (.new 16 0 0x100 0x1000) (opened blankProcess) held := ⟨fresh, 0, true, rfl⟩
  have deleted : DeleteOrStop 1 0x100 (some true) held.process = some (true, struck.process) :=
    Delete_found (by decide) (by decide) rfl
  have second : EnteredStep (.delete 0x100 (some true)) held struck := by
    refine ⟨trivial, 1, true, ?_⟩
    rw [LedgerCall.enter, deleted]
    rfl
  have run := Run.cons first (.single second)
  obtain ⟨-, refuses⟩ := every blankProcess (_ ++ [.delete 0x100 none]) rfl rfl _ _ [] rfl _ run
  obtain ⟨fuel, l', returned, -⟩ := refuses (by decide) (by unfold Ledger.Holds; decide)
  have sought : Sought struck.process 0x100 0x1000 := ⟨by decide, .here (by decide) rfl⟩
  cases (enter_sought sought returned).1

end Ne.Kernel.Sched
