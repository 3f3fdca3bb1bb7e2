import NeKernel.Arch.SystemCalls
import NeKernel.Lib.SlotTable

/-!
# The table of registered system calls

`hali_install_entry` and `hali_remove_entry` keep an entry in the slot that its hash selects, and leave a
slot that another hash has taken alone. Over any history the table is a partial map of hashes.
-/

namespace Ne.Kernel.Arch
open Runs

variable {P : Type*}

def kNeInvalidEntry : Int := -1

structure HalCallEntry (P : Type*) where
  fHash : BitVec 64
  fActive : Bool
  fProc : Option P
  fAuthLevel : BitVec 64

abbrev RegisteredCalls (P : Type*) := Nat → HalCallEntry P

/-- The entry that `hali_remove_entry` leaves and that the kernel image starts with. -/
def emptyEntry : HalCallEntry P := ⟨0, false, none, 0⟩

def kRegisteredSystemCalls : RegisteredCalls P := fun _ => emptyEntry

def haliInstallEntry (proc : Option P) (level hash : BitVec 64) (table : RegisteredCalls P) :
    Int × RegisteredCalls P :=
  if hash = 0 then (kNeInvalidEntry, table)
  else if proc.isNone then (kNeInvalidEntry, table)
  else
    let i := hash.toNat % kMaxDispatchCallCount
    if kMaxDispatchCallCount < i then (kNeInvalidEntry, table)
    else if (table i).fActive then (kNeInvalidEntry, table)
    else ((i : Int), Function.update table i ⟨hash, true, proc, level⟩)

def haliRemoveEntry (hash : BitVec 64) (table : RegisteredCalls P) : RegisteredCalls P :=
  if hash = 0 then table
  else
    let i := hash.toNat % kMaxDispatchCallCount
    if kMaxDispatchCallCount < i then table
    else if (table i).fHash ≠ hash then table
    else Function.update table i emptyEntry

inductive CallChange (P : Type*)
  | install (proc : Option P) (level hash : BitVec 64)
  | remove (hash : BitVec 64)

def CallStep : CallChange P → RegisteredCalls P → RegisteredCalls P → Prop
  | .install proc level hash, table, next => next = (haliInstallEntry proc level hash table).2
  | .remove hash, table, next => next = haliRemoveEntry hash table

/-- Some active slot holds the hash. -/
def Registered (table : RegisteredCalls P) (hash : BitVec 64) : Prop :=
  ∃ i, (table i).fActive = true ∧ (table i).fHash = hash

/-- A slot is empty, or it holds a procedure under a hash that selects it. -/
def Consistent (table : RegisteredCalls P) : Prop :=
  ∀ i, table i = emptyEntry ∨ ∃ hash proc level, hash ≠ 0 ∧ i = hash.toNat % kMaxDispatchCallCount ∧
    table i = ⟨hash, true, some proc, level⟩

def slotOf (hash : BitVec 64) : Nat := hash.toNat % kMaxDispatchCallCount

/-- What the slots bind: a hash to a procedure and its level. -/
def bindings (table : RegisteredCalls P) (i : Nat) : Option (BitVec 64 × P × BitVec 64) :=
  if (table i).fActive then (table i).fProc.map fun proc => ((table i).fHash, proc, (table i).fAuthLevel) else none

abbrev CallMap (P : Type*) := BitVec 64 → Option (P × BitVec 64)

/-- The table as a map of hashes. -/
def callMap (table : RegisteredCalls P) : CallMap P := SlotTable.lookup slotOf (bindings table)

/-- No hash of the map falls into the slot of `hash`. -/
def Vacant (calls : CallMap P) (hash : BitVec 64) : Prop :=
  ∀ other, slotOf other = slotOf hash → calls other = none

/-- The changes of the map that the two functions are for. -/
inductive MapStep : CallChange P → CallMap P → CallMap P → Prop
  | installed {calls : CallMap P} {proc : P} {level hash : BitVec 64} (named : hash ≠ 0) (vacant : Vacant calls hash) :
      MapStep (.install (some proc) level hash) calls (Function.update calls hash (some (proc, level)))
  | refused {calls : CallMap P} {proc : Option P} {level hash : BitVec 64}
      (invalid : hash = 0 ∨ proc = none ∨ ¬ Vacant calls hash) : MapStep (.install proc level hash) calls calls
  | removed {calls : CallMap P} {hash : BitVec 64} : MapStep (.remove hash) calls (Function.update calls hash none)

section Tables
variable {table next : RegisteredCalls P} {proc : Option P} {level hash other : BitVec 64} {i : Nat}
  {changes : List (CallChange P)}

theorem slotOf_lt : slotOf hash < kMaxDispatchCallCount := Nat.mod_lt _ (by decide)

theorem consistent_boot : Consistent (kRegisteredSystemCalls : RegisteredCalls P) := fun _ => .inl rfl

theorem Consistent.active (consistent : Consistent table) (active : (table i).fActive = true) :
    ∃ hash proc level, hash ≠ 0 ∧ i = slotOf hash ∧ table i = ⟨hash, true, some proc, level⟩ := by
  rcases consistent i with empty | held
  · rw [empty] at active
    cases active
  · exact held

theorem Consistent.slot (consistent : Consistent table) (active : (table i).fActive = true) :
    (table i).fHash ≠ 0 ∧ slotOf (table i).fHash = i := by
  obtain ⟨hash, p, level, named, slot, entry⟩ := consistent.active active
  rw [entry]
  exact ⟨named, slot.symm⟩

theorem Consistent.inactive (consistent : Consistent table) (free : (table i).fActive ≠ true) :
    table i = emptyEntry := by
  rcases consistent i with empty | ⟨hash, proc, level, -, -, held⟩
  · exact empty
  · rw [held] at free
    exact absurd rfl free

theorem install_cases (proc : Option P) (level hash : BitVec 64) (table : RegisteredCalls P) :
    ((hash = 0 ∨ proc = none ∨ (table (slotOf hash)).fActive = true) ∧
      haliInstallEntry proc level hash table = (kNeInvalidEntry, table)) ∨
    ∃ p, proc = some p ∧ hash ≠ 0 ∧ (table (slotOf hash)).fActive ≠ true ∧
      haliInstallEntry proc level hash table =
        ((slotOf hash : Int), Function.update table (slotOf hash) ⟨hash, true, some p, level⟩) := by
  unfold haliInstallEntry
  by_cases zero : hash = 0
  · exact .inl ⟨.inl zero, if_pos zero⟩
  rw [if_neg zero]
  cases proc with
  | none => exact .inl ⟨.inr (.inl rfl), rfl⟩
  | some p =>
      have inside : ¬ kMaxDispatchCallCount < hash.toNat % kMaxDispatchCallCount :=
        Nat.not_lt.mpr (Nat.le_of_lt (@slotOf_lt hash))
      by_cases taken : (table (slotOf hash)).fActive = true
      · exact .inl ⟨.inr (.inr taken), (if_neg inside).trans (if_pos taken)⟩
      · exact .inr ⟨p, rfl, zero, taken, (if_neg inside).trans (if_neg taken)⟩

theorem remove_cases (hash : BitVec 64) (table : RegisteredCalls P) :
    ((hash = 0 ∨ (table (slotOf hash)).fHash ≠ hash) ∧ haliRemoveEntry hash table = table) ∨
    (hash ≠ 0 ∧ (table (slotOf hash)).fHash = hash ∧
      haliRemoveEntry hash table = Function.update table (slotOf hash) emptyEntry) := by
  unfold haliRemoveEntry
  by_cases zero : hash = 0
  · exact .inl ⟨.inl zero, if_pos zero⟩
  have inside : ¬ kMaxDispatchCallCount < hash.toNat % kMaxDispatchCallCount :=
    Nat.not_lt.mpr (Nat.le_of_lt (@slotOf_lt hash))
  rw [if_neg zero]
  by_cases held : (table (slotOf hash)).fHash = hash
  · exact .inr ⟨zero, held, (if_neg inside).trans (if_neg (not_not.mpr held))⟩
  · exact .inl ⟨.inr held, (if_neg inside).trans (if_pos held)⟩

theorem Consistent.update (consistent : Consistent table) {entry : HalCallEntry P}
    (fits : entry = emptyEntry ∨
      ∃ hash proc level, hash ≠ 0 ∧ i = slotOf hash ∧ entry = ⟨hash, true, some proc, level⟩) :
    Consistent (Function.update table i entry) := by
  intro j
  by_cases here : j = i
  · rw [here, Function.update_self]
    exact fits
  · rw [Function.update_of_ne here]
    exact consistent j

theorem Consistent.step (consistent : Consistent table) {change : CallChange P} (step : CallStep change table next) :
    Consistent next := by
  cases change with
  | install proc level hash =>
      rw [step]
      rcases install_cases proc level hash table with ⟨-, refused⟩ | ⟨p, -, named, -, done⟩
      · rwa [refused]
      · rw [done]
        exact consistent.update (.inr ⟨hash, p, level, named, rfl, rfl⟩)
  | remove hash =>
      rw [step]
      rcases remove_cases hash table with ⟨-, kept⟩ | ⟨-, -, done⟩
      · rwa [kept]
      · rw [done]
        exact consistent.update (.inl rfl)

theorem Consistent.run (run : Run CallStep table changes next) (consistent : Consistent table) : Consistent next :=
  run.invariant (fun _ _ _ consistent step => consistent.step step) consistent

theorem Consistent.remove_of_absent (consistent : Consistent table) (absent : ¬ Registered table hash) :
    haliRemoveEntry hash table = table := by
  rcases remove_cases hash table with ⟨-, kept⟩ | ⟨named, held, -⟩
  · exact kept
  · by_cases active : (table (slotOf hash)).fActive = true
    · exact absurd ⟨_, active, held⟩ absent
    · rw [consistent.inactive active] at held
      exact absurd held.symm named

theorem bindings_empty (empty : table i = emptyEntry) : bindings table i = none := by
  rw [bindings, empty]
  rfl

theorem bindings_eq_some {p : P} :
    bindings table i = some (hash, p, level) ↔ table i = ⟨hash, true, some p, level⟩ := by
  unfold bindings
  obtain ⟨hash', active, proc, level'⟩ := table i
  cases active <;> cases proc <;> simp

theorem bindings_install {p : P} :
    bindings (Function.update table (slotOf hash) ⟨hash, true, some p, level⟩) =
      SlotTable.insert slotOf (bindings table) hash (p, level) := by
  funext i
  by_cases here : i = slotOf hash
  · rw [SlotTable.insert, here, Function.update_self, bindings_eq_some, Function.update_self]
  · rw [SlotTable.insert, Function.update_of_ne here, bindings, Function.update_of_ne here]
    rfl

theorem bindings_remove :
    bindings (Function.update table (slotOf hash) emptyEntry) = SlotTable.erase slotOf (bindings table) hash := by
  funext i
  by_cases here : i = slotOf hash
  · rw [SlotTable.erase, here, Function.update_self]
    exact bindings_empty (Function.update_self ..)
  · rw [SlotTable.erase, Function.update_of_ne here, bindings, Function.update_of_ne here]
    rfl

theorem Consistent.placed (consistent : Consistent table) : SlotTable.Placed slotOf (bindings table) := by
  rintro i hash ⟨p, level⟩ held
  have entry := bindings_eq_some.mp held
  have active : (table i).fActive = true := by rw [entry]
  have slot := (consistent.slot active).2
  rwa [entry] at slot

theorem Consistent.vacant_iff (consistent : Consistent table) :
    Vacant (callMap table) hash ↔ (table (slotOf hash)).fActive ≠ true := by
  constructor
  · intro vacant active
    obtain ⟨other, p, level, -, shared, held⟩ := consistent.active active
    have bound : callMap table other = some (p, level) := by
      rw [callMap, SlotTable.lookup_eq_some, ← shared, bindings_eq_some, held]
    rw [vacant other shared.symm] at bound
    cases bound
  · intro free other shared
    refine SlotTable.lookup_of_free ?_
    rw [shared]
    exact bindings_empty (consistent.inactive free)

/-- Each change of the table is the change of the map that it is for. -/
theorem Consistent.refines (consistent : Consistent table) {change : CallChange P}
    (step : CallStep change table next) : MapStep change (callMap table) (callMap next) := by
  cases change with
  | install proc level hash =>
      rw [step]
      rcases install_cases proc level hash table with ⟨invalid, refused⟩ | ⟨p, rfl, named, free, done⟩
      · rw [refused]
        exact .refused (by rwa [consistent.vacant_iff, not_not])
      · have empty : bindings table (slotOf hash) = none := bindings_empty (consistent.inactive free)
        have added : callMap (haliInstallEntry (some p) level hash table).2 =
            Function.update (callMap table) hash (some (p, level)) := by
          rw [done, callMap, bindings_install, SlotTable.lookup_insert empty]
          rfl
        rw [added]
        exact .installed named (consistent.vacant_iff.mpr free)
  | remove hash =>
      rw [step]
      by_cases held : ∃ value, callMap table hash = some value
      · obtain ⟨⟨p, level⟩, bound⟩ := held
        have entry := bindings_eq_some.mp (SlotTable.lookup_eq_some.mp bound)
        have active : (table (slotOf hash)).fActive = true := by rw [entry]
        have named := (consistent.slot active).1
        rcases remove_cases hash table with ⟨refused, -⟩ | ⟨-, -, done⟩
        · rw [entry] at named refused
          exact absurd refused (not_or.mpr ⟨named, not_not.mpr rfl⟩)
        · have erased : callMap (haliRemoveEntry hash table) = Function.update (callMap table) hash none := by
            rw [done, callMap, bindings_remove, SlotTable.lookup_erase bound]
            rfl
          rw [erased]
          exact .removed
      -- the slot is free or another hash's, and is left as it is
      · have none : callMap table hash = none :=
          Option.eq_none_iff_forall_ne_some.mpr fun value same => held ⟨value, same⟩
        have absent : ¬ Registered table hash := by
          rintro ⟨i, active, rfl⟩
          obtain ⟨hash, p, level, -, slot, entry⟩ := consistent.active active
          refine held ⟨(p, level), SlotTable.lookup_eq_some.mpr (bindings_eq_some.mpr ?_)⟩
          rw [entry, ← slot, entry]
        rw [consistent.remove_of_absent absent]
        have same : callMap table = Function.update (callMap table) hash Option.none := by
          rw [← none, Function.update_eq_self]
        nth_rewrite 2 [same]
        exact .removed

/-- A history of the table is one of the map. -/
theorem run_refines (run : Run CallStep table changes next) (consistent : Consistent table) :
    Run MapStep (callMap table) changes (callMap next) := by
  induction run with
  | nil => exact .nil _
  | cons head _ ih => exact .cons (consistent.refines head) (ih (consistent.step head))

/-- What the slots hold after every history of installing and removing, and what a failure does to them. -/
theorem registered_calls_kept (run : Run CallStep (kRegisteredSystemCalls : RegisteredCalls P) changes table) :
    (∀ i, (table i).fActive = true → (table i).fHash.toNat % kMaxDispatchCallCount = i) ∧
    (∀ i j, (table i).fActive = true → (table j).fActive = true → (table i).fHash = (table j).fHash → i = j) ∧
    (∀ proc level hash, (haliInstallEntry proc level hash table).1 = kNeInvalidEntry →
      (haliInstallEntry proc level hash table).2 = table) ∧
    (∀ hash, ¬ Registered table hash → haliRemoveEntry hash table = table) := by
  have consistent := consistent_boot.run run
  have placed (i : Nat) (active : (table i).fActive = true) := (consistent.slot active).2
  refine ⟨placed, fun i j here there same => ?_, fun proc level hash failed => ?_,
    fun hash absent => consistent.remove_of_absent absent⟩
  · rw [← placed i here, ← placed j there, same]
  · rcases install_cases proc level hash table with ⟨-, refused⟩ | ⟨p, -, -, -, done⟩
    · rw [refused]
    · rw [done, kNeInvalidEntry] at failed
      have natural : (slotOf hash : Int) = -1 := failed
      omega

theorem registered_calls_kept_colliding :
    ∃ table : RegisteredCalls Unit,
      Run CallStep kRegisteredSystemCalls [.install (some ()) 100 5, .install (some ()) 101 517, .remove 517] table ∧
      (table 5).fActive = true ∧ (table 5).fHash.toNat % kMaxDispatchCallCount = 5 ∧
      (haliInstallEntry (some ()) 101 517 table).2 = table ∧ haliRemoveEntry 517 table = table := by
  let first := (haliInstallEntry (some ()) 100 5 kRegisteredSystemCalls).2
  let second := (haliInstallEntry (some ()) 101 517 first).2
  have run : Run CallStep kRegisteredSystemCalls
      [.install (some ()) 100 5, .install (some ()) 101 517, .remove 517] (haliRemoveEntry 517 second) :=
    .cons (t := first) rfl (.cons (t := second) rfl (.cons rfl (.nil _)))
  obtain ⟨slots, -, installs, removes⟩ := registered_calls_kept run
  refine ⟨_, run, rfl, ?_⟩
  refine ⟨slots 5 rfl, installs _ _ _ rfl, removes _ ?_⟩
  rintro ⟨i, active, held⟩
  have here := slots i active
  rw [held] at here
  subst here
  cases held

end Tables

end Ne.Kernel.Arch
