import Mathlib.Logic.Function.Basic

/-!
# Direct-mapped tables

Every key has one slot, and a slot holds at most one binding. A table whose bindings lie in the slots
of their keys is a partial map, in which two bound keys never have one slot.
-/

namespace SlotTable

variable {K I V : Type*}

/-- Every binding lies in the slot of its key. -/
def Placed (slot : K → I) (table : I → Option (K × V)) : Prop :=
  ∀ i key value, table i = some (key, value) → slot key = i

variable [DecidableEq K] [DecidableEq I]

def lookup (slot : K → I) (table : I → Option (K × V)) (key : K) : Option V :=
  (table (slot key)).bind fun binding => if binding.1 = key then some binding.2 else none

def insert (slot : K → I) (table : I → Option (K × V)) (key : K) (value : V) : I → Option (K × V) :=
  Function.update table (slot key) (some (key, value))

def erase (slot : K → I) (table : I → Option (K × V)) (key : K) : I → Option (K × V) :=
  Function.update table (slot key) none

section Rules
variable {slot : K → I} {table : I → Option (K × V)} {key other : K} {value value' : V} {i j : I}

omit [DecidableEq K] [DecidableEq I] in
theorem Placed.unique (placed : Placed slot table) (here : table i = some (key, value))
    (there : table j = some (key, value')) : i = j :=
  (placed i key value here).symm.trans (placed j key value' there)

omit [DecidableEq I] in
theorem lookup_of_free (free : table (slot key) = none) : lookup slot table key = none := by
  rw [lookup, free, Option.bind_none]

omit [DecidableEq I] in
theorem lookup_of_other (here : table (slot key) = some (other, value)) (apart : other ≠ key) :
    lookup slot table key = none := by
  rw [lookup, here, Option.bind_some, if_neg apart]

omit [DecidableEq I] in
theorem lookup_eq_some : lookup slot table key = some value ↔ table (slot key) = some (key, value) := by
  unfold lookup
  cases held : table (slot key) with
  | none => simp
  | some binding =>
      obtain ⟨key', value'⟩ := binding
      by_cases same : key' = key
      · simp [same]
      · simp [same]

omit [DecidableEq K] in
theorem Placed.insert (placed : Placed slot table) : Placed slot (insert slot table key value) := by
  intro i key' value' held
  unfold SlotTable.insert at held
  by_cases here : i = slot key
  · rw [here, Function.update_self, Option.some.injEq, Prod.mk.injEq] at held
    rw [here, held.1]
  · rw [Function.update_of_ne here] at held
    exact placed i key' value' held

omit [DecidableEq K] in
theorem Placed.erase (placed : Placed slot table) : Placed slot (erase slot table key) := by
  intro i key' value' held
  unfold SlotTable.erase at held
  by_cases here : i = slot key
  · rw [here, Function.update_self] at held
    cases held
  · rw [Function.update_of_ne here] at held
    exact placed i key' value' held

/-- A binding put into a free slot adds to the map and changes no other key. -/
theorem lookup_insert (free : table (slot key) = none) :
    lookup slot (insert slot table key value) = Function.update (lookup slot table) key (some value) := by
  funext other
  by_cases same : other = key
  · rw [same, Function.update_self, lookup_eq_some, insert, Function.update_self]
  · rw [Function.update_of_ne same]
    by_cases shared : slot other = slot key
    · have now : insert slot table key value (slot other) = some (key, value) := by
        rw [insert, shared, Function.update_self]
      have before : table (slot other) = none := by rw [shared, free]
      rw [lookup_of_other now (Ne.symm same), lookup_of_free before]
    · rw [lookup, insert, Function.update_of_ne shared]
      rfl

/-- Taking a bound key out of its slot changes no other key. -/
theorem lookup_erase (held : lookup slot table key = some value) :
    lookup slot (erase slot table key) = Function.update (lookup slot table) key none := by
  funext other
  by_cases same : other = key
  · rw [same, Function.update_self]
    exact lookup_of_free (Function.update_self ..)
  · rw [Function.update_of_ne same]
    by_cases shared : slot other = slot key
    · have now : erase slot table key (slot other) = none := by rw [erase, shared, Function.update_self]
      have before : table (slot other) = some (key, value) := by rw [shared, lookup_eq_some.mp held]
      rw [lookup_of_free now, lookup_of_other before (Ne.symm same)]
    · rw [lookup, erase, Function.update_of_ne shared]
      rfl

end Rules

end SlotTable
