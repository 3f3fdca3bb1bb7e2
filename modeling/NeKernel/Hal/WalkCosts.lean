import NeKernel.Hal.DataFrames

/-!
# What mapping a page costs

A walk that may allocate takes one frame for each table that its path lacks, and fails when they are too few.
-/

namespace Ne.Kernel.HAL
open ByteMem

def HasTable (mem : Memory) (root a : UIntPtr) (d : Nat) : Prop := walkShape.tableOf mem root d a ≠ none

instance (mem : Memory) (root a : UIntPtr) (d : Nat) : Decidable (HasTable mem root a d) :=
  inferInstanceAs (Decidable (_ ≠ _))

/-- How many of the last `n` levels have no table yet. -/
def lacking (present : Nat → Prop) [DecidablePred present] : Nat → Nat
  | 0 => 0
  | n + 1 => lacking present n + if present (3 - n) then 0 else 1

/-- The path of one page has its tables, the others have those that they had. -/
def PathAdded (mem mem' : Memory) (root va : UIntPtr) : Prop :=
  ∀ k a, k ≤ 3 → (HasTable mem' root a k ↔ HasTable mem root a k ∨ walkShape.Same k a va)

section Counts
variable {p q : Nat → Prop} [DecidablePred p] [DecidablePred q] {n : Nat}

theorem lacking_congr (bound : n ≤ 3) (same : ∀ d, 3 < d + n → d ≤ 3 → (p d ↔ q d)) : lacking p n = lacking q n := by
  induction n with
  | zero => rfl
  | succ n ih =>
      have here : p (3 - n) ↔ q (3 - n) := same (3 - n) (by omega) (by omega)
      rw [lacking, lacking, ih (by omega) fun d deep low => same d (by omega) low, if_congr here rfl rfl]

theorem lacking_le : lacking p n ≤ n := by
  induction n with
  | zero => exact le_rfl
  | succ n ih =>
      rw [lacking]
      split <;> omega

end Counts

section Walks
variable {root va a table f link : UIntPtr} {mem mem' : Memory} {data held : List UIntPtr} {σ τ υ : PmmState}
  {d k n : Nat} {value : UIntPtr → UIntPtr}

theorem hasTable_of_table {t : UIntPtr} (reached : walkShape.tableOf mem root d va = some t) :
    HasTable mem root va d := by
  unfold HasTable
  rw [reached]
  nofun

theorem HasTable.same (same : walkShape.Same k a va) : HasTable mem root a k ↔ HasTable mem root va k := by
  unfold HasTable
  rw [RadixShape.tableOf_same same]

theorem Grafted.hasTable (tree : TableInv mem root held) (grafted : Grafted mem mem' root va table f link d value)
    (ended : walkShape.next (load64 mem (slotAt table (walkShape.index d va))) = none) (deep : k ≤ 3) :
    HasTable mem' root a k ↔ HasTable mem root a k ∨ k = d + 1 ∧ walkShape.Same (d + 1) a va := by
  unfold HasTable
  by_cases under : d < k ∧ walkShape.Same (d + 1) a va
  · obtain ⟨below, same⟩ := under
    have cut : walkShape.tableOf mem root (d + 1) a = none := by
      rw [RadixShape.tableOf_same same, RadixShape.tableOf_succ_of_entryOf, RadixShape.entryOf,
        grafted.updates.reached]
      exact ended
    have before : walkShape.tableOf mem root k a = none := RadixShape.tableOf_none_above cut below
    rcases Nat.lt_or_eq_of_le (Nat.succ_le_of_lt below) with far | rfl
    · have after := RadixShape.tableOf_graft_below tree.separate grafted.updates grafted.leads grafted.leaves same far
        deep
      have other : k ≠ d + 1 := Nat.ne_of_gt far
      simp [after, before, other]
    · have after := RadixShape.tableOf_graft tree.separate grafted.updates grafted.leads same
      simp [after, same]
  · rw [RadixShape.tableOf_unchanged tree.separate grafted.updates deep under]
    refine (or_iff_left ?_).symm
    rintro ⟨rfl, same⟩
    exact under ⟨Nat.lt_succ_self d, same⟩

theorem DataInv.alloc_count (inv : DataInv root data σ) (taken : pmmiAllocFrame σ = (f, τ)) (nonnull : f ≠ 0) :
    τ.kPmmFree.toNat + 1 = σ.kPmmFree.toNat := by
  obtain ⟨total, held, free, owned, tree⟩ := inv.pageInv
  obtain ⟨-, -, -, free', owned'⟩ := owned.alloc_taken taken nonnull
  have balance : σ.kPmmFree.toNat + σ.kPmmUsed.toNat = total := owned.balance
  have balance' : τ.kPmmFree.toNat + τ.kPmmUsed.toNat = total := owned'.balance
  have used : σ.kPmmUsed.toNat = held.length := owned.used
  have used' : τ.kPmmUsed.toNat = held.length + 1 := owned'.used
  omega

theorem WalkTurn.cost (inv : DataInv root data σ) (level : d < 3)
    (reached : walkShape.tableOf σ.mem root d va = some table) (opened : Opened σ.mem root va d)
    (turn : WalkTurn va table d σ υ) :
    υ.kPmmFree.toNat + (if HasTable σ.mem root va (d + 1) then 0 else 1) = σ.kPmmFree.toNat ∧
      ∀ k a, k ≤ 3 → (HasTable υ.mem root a k ↔ HasTable σ.mem root a k ∨ k = d + 1 ∧ walkShape.Same (d + 1) a va) := by
  obtain ⟨total, held, free, owned, tree⟩ := inv.pageInv
  have below : walkShape.tableOf σ.mem root (d + 1) va =
      walkShape.next (load64 σ.mem (slotAt table (walkShape.index d va))) := by
    rw [RadixShape.tableOf, reached]
    rfl
  have lacks (ended : walkShape.next (load64 σ.mem (slotAt table (walkShape.index d va))) = none) :
      ¬ HasTable σ.mem root va (d + 1) := fun some => some (below.trans ended)
  cases turn with
  | new absent taken nonnull =>
      obtain ⟨fresh, same, zero, free', owned'⟩ := owned.alloc_taken taken nonnull
      have ended := next_of_absent absent
      have grafted := grafted_new tree owned' fresh same level reached zero
      have count := inv.alloc_count taken nonnull
      rw [if_neg (lacks ended)]
      exact ⟨count, fun k a deep => grafted.hasTable tree ended deep⟩
  | split present large taken nonnull hsplit =>
      obtain ⟨fresh, same, zero, free', owned'⟩ := owned.alloc_taken taken nonnull
      rw [same.load64_eq (slot_apart_fresh tree owned' fresh (Nat.le_of_lt level) reached)] at hsplit
      have ended := next_of_large large
      have grafted := grafted_split tree owned' fresh same level reached opened rfl ⟨present, .inr large⟩ hsplit
      have count := inv.alloc_count taken nonnull
      rw [if_neg (lacks ended)]
      exact ⟨count, fun k a deep => grafted.hasTable tree ended deep⟩
  | widen present branch =>
      have some : HasTable σ.mem root va (d + 1) := hasTable_of_table (below.trans (next_of_branch present branch))
      have keeps := (tree.widen level reached rfl present branch rfl).2.2
      rw [if_pos some]
      refine ⟨rfl, fun k a deep => ?_⟩
      have same : walkShape.tableOf _ root k a = walkShape.tableOf σ.mem root k a :=
        RadixShape.tableOf_relabel tree.separate (updates_store (Nat.le_of_lt level) reached)
          (fun _ => by rw [load64_store64_same, keeps]) deep
      constructor
      · exact fun table => .inl fun none => table (same.trans none)
      · rintro (table | ⟨rfl, path⟩)
        · exact fun none => table (same.symm.trans none)
        · exact fun none => (HasTable.same path).mpr some (same.symm.trans none)

/-- A walk comes to the end of its path if the frames left suffice for the tables that the path lacks. -/
theorem walkFrom_cost (bound : n ≤ 3) (inv : DataInv root data σ)
    (reached : walkShape.tableOf σ.mem root (3 - n) va = some table) (opened : Opened σ.mem root va (3 - n)) :
    (lacking (HasTable σ.mem root va) n ≤ σ.kPmmFree.toNat → (walkFrom va true n table σ).1 ≠ 0) ∧
    ((walkFrom va true n table σ).1 ≠ 0 →
      (walkFrom va true n table σ).2.kPmmFree.toNat + lacking (HasTable σ.mem root va) n = σ.kPmmFree.toNat ∧
      PathAdded σ.mem (walkFrom va true n table σ).2.mem root va) := by
  induction n generalizing σ table with
  | zero =>
      obtain ⟨total, held, free, owned, tree⟩ := inv.pageInv
      have nonzero : slotAt table (walkShape.index 3 va) ≠ 0 := slot_nonzero tree owned le_rfl reached
      refine ⟨fun _ => nonzero, fun _ => ⟨Nat.add_zero _, fun k a deep => ?_⟩⟩
      refine (or_iff_left_of_imp fun path => (HasTable.same path).mpr ?_).symm
      obtain ⟨t, here⟩ := RadixShape.tableOf_of_above reached deep
      exact hasTable_of_table here
  | succ n ih =>
      obtain ⟨d, hd⟩ : ∃ d, 3 - (n + 1) = d := ⟨_, rfl⟩
      have level : d < 3 := by omega
      have deeper : 3 - n = d + 1 := by omega
      rw [hd] at reached opened
      rw [deeper] at ih
      rw [lacking, deeper]
      rcases @walkFrom_turn va table σ d true n (by omega) with
        ⟨-, never, -⟩ | ⟨τ, taken, ends, ended⟩ | ⟨υ, turn, goes⟩
      · cases never
      · have lacks : ¬ HasTable σ.mem root va (d + 1) := by
          refine fun some => some ?_
          rw [RadixShape.tableOf, reached]
          exact ended
        have empty : σ.kPmmFree.toNat = 0 := by
          by_contra room
          exact (inv.alloc_cost taken (by omega)).1 rfl
        rw [ends, if_neg lacks]
        exact ⟨fun room => by omega, fun some => absurd rfl some⟩
      · obtain ⟨inv', -⟩ := turn.dataInv inv level reached opened
        obtain ⟨total, held, free, owned, tree⟩ := inv.pageInv
        obtain ⟨step, -⟩ := turn.stepped tree owned level reached opened
        obtain ⟨spent, tables⟩ := turn.cost inv level reached opened
        obtain ⟨goesOn, ends⟩ := ih (by omega) inv' step.reached step.opened
        have same : lacking (HasTable υ.mem root va) n = lacking (HasTable σ.mem root va) n := by
          refine lacking_congr (by omega) fun k deep low => (tables k va low).trans (or_iff_left ?_)
          rintro ⟨rfl, -⟩
          omega
        rw [goes]
        rw [same] at goesOn ends
        refine ⟨fun room => goesOn (by omega), fun some => ?_⟩
        obtain ⟨count, added⟩ := ends some
        refine ⟨by omega, fun k a deep => ?_⟩
        rw [added k a deep, tables k a deep, or_assoc]
        refine or_congr_right (or_iff_right_of_imp ?_)
        rintro ⟨rfl, path⟩
        exact path

end Walks

section Operations
variable {root va pa f : UIntPtr} {data : List UIntPtr} {σ τ : PmmState} {flags : BitVec 32} {k : Nat} {a : UIntPtr}

theorem mmWalkPage_cost (inv : DataInv root data σ) (va : UIntPtr) :
    (lacking (HasTable σ.mem root va) 3 ≤ σ.kPmmFree.toNat → (mmWalkPage root va true σ).1 ≠ 0) ∧
    ((mmWalkPage root va true σ).1 ≠ 0 →
      (mmWalkPage root va true σ).2.kPmmFree.toNat + lacking (HasTable σ.mem root va) 3 = σ.kPmmFree.toNat ∧
      PathAdded σ.mem (mmWalkPage root va true σ).2.mem root va) := by
  obtain ⟨nonnull, base⟩ := inv.pageInv.root_facts
  unfold mmWalkPage
  rw [if_neg nonnull, base]
  exact walkFrom_cost le_rfl inv rfl fun k _ none => absurd none (Nat.not_lt_zero k)

theorem mmMapPageIn_cost (inv : DataInv root data σ) (va : UIntPtr) (flags : BitVec 32) (nonnull : pa ≠ 0)
    (aligned : pa &&& (BitVec.ofNat 64 kPageSize - 1) = 0) :
    (lacking (HasTable σ.mem root va) 3 ≤ σ.kPmmFree.toNat → (mmMapPageIn root va pa flags σ).1 = kErrorSuccess) ∧
    ((mmMapPageIn root va pa flags σ).1 = kErrorSuccess →
      (mmMapPageIn root va pa flags σ).2.kPmmFree.toNat + lacking (HasTable σ.mem root va) 3 = σ.kPmmFree.toNat ∧
      PathAdded σ.mem (mmMapPageIn root va pa flags σ).2.mem root va) := by
  have failed : kErrorInvalidData ≠ kErrorSuccess := by decide
  have walked := mmWalkPage_walked inv.pageInv va true
  obtain ⟨through, ends⟩ := mmWalkPage_cost inv va
  unfold mmMapPageIn
  rw [if_neg nonnull, if_neg (not_not.mpr aligned)]
  cases walk : mmWalkPage root va true σ with
  | mk slot τ =>
      rw [walk] at walked through ends
      dsimp only at *
      by_cases none : slot = 0
      · rw [if_pos none]
        exact ⟨fun room => absurd none (through room), fun success => absurd success failed⟩
      · obtain ⟨table, reached, rfl, -⟩ := walked.slot.resolve_left none
        obtain ⟨count, added⟩ := ends none
        obtain ⟨total, held, free, owned, tree⟩ := walked.inv
        rw [if_neg none]
        refine ⟨fun _ => rfl, fun _ => ⟨count, fun k a deep => ?_⟩⟩
        have same : walkShape.tableOf _ root k a = walkShape.tableOf τ.mem root k a :=
          RadixShape.tableOf_relabel tree.separate (updates_store (v := PTE.make pa flags) le_rfl reached)
            (fun inner => absurd inner (Nat.lt_irrefl 3)) deep
        rw [← added k a deep]
        unfold HasTable
        exact not_congr (Eq.congr_left same)

theorem pmmiAllocFrame_tables (inv : DataInv root data σ) (taken : pmmiAllocFrame σ = (f, τ)) (deep : k ≤ 3) :
    HasTable τ.mem root a k ↔ HasTable σ.mem root a k := by
  obtain ⟨total, held, free, owned, tree⟩ := inv.pageInv
  rcases owned.alloc with none | ⟨g, υ, free', taken', -, fresh, same, zero, owned'⟩
  · obtain ⟨-, rfl⟩ := Prod.ext_iff.mp (taken.symm.trans none)
    rfl
  · obtain ⟨rfl, rfl⟩ := Prod.ext_iff.mp (taken.symm.trans taken')
    have spared : walkShape.SameTables σ.mem τ.mem root 3 := by
      intro d va t level reached x inside
      have member := tree.held d va t level reached
      have alignedT := (owned.isFrame_of_held member).2.1
      have alignedF := (owned'.isFrame_of_held List.mem_cons_self).2.1
      exact same x (frames_apart alignedT alignedF (fun one => fresh (one ▸ member)) x inside)
    unfold HasTable
    rw [RadixShape.tableOf_congr spared deep]

end Operations

end Ne.Kernel.HAL
