import NeKernel.Hal.PageOps

/-!
# The tables built by `mm_init_kernel_tables`
-/

namespace Ne.Kernel.HAL
open ByteMem

/-- The page invariant and, until the first walk widens entries, writable top-level entries. -/
structure InitInv (root : UIntPtr) (σ : PmmState) : Prop where
  pages : PageInv root σ
  writable : ∀ va e, walkShape.entryOf σ.mem root 0 va = some e → e &&& 1 ≠ 0 → e.getLsbD 1 = true

def TopPresent (mem : Memory) (root a : UIntPtr) : Prop := load64 mem (slotAt root (walkShape.index 0 a)) &&& 1 ≠ 0

instance (mem : Memory) (root a : UIntPtr) : Decidable (TopPresent mem root a) := inferInstanceAs (Decidable (_ ≠ _))

/-- What `initPdpt` leaves when it does not fail. -/
structure PdptReady (root base : UIntPtr) (σ τ : PmmState) : Prop where
  inv : InitInv root τ
  present : TopPresent τ.mem root base
  kept : ∀ a, TopPresent σ.mem root a → TopPresent τ.mem root a
  views : ∀ a, viewOf τ.mem root a = viewOf σ.mem root a

/-- What a turn of the loop leaves when it does not fail. -/
structure GiBMapped (root base : UIntPtr) (σ τ : PmmState) : Prop where
  inv : InitInv root τ
  present : TopPresent τ.mem root base
  kept : ∀ a, TopPresent σ.mem root a → TopPresent τ.mem root a
  others : ∀ a, ¬ walkShape.Same 2 a base → viewOf τ.mem root a = viewOf σ.mem root a
  here : ∀ a, walkShape.Same 2 a base → viewOf τ.mem root a =
    some (leafView a 2 ((base + walkShape.index 2 a * kLargePage) ||| kLeafPerm))

section Leaves
variable {base i x : UIntPtr} {d j k : Nat}

theorem getLsbD_of_aligned (aligned : x.toNat % 2 ^ k = 0) (low : j < k) : x.getLsbD j = false := by
  have bits := Nat.testBit_mod_two_pow x.toNat k j
  rw [aligned] at bits
  rw [BitVec.getLsbD]
  simpa [low] using bits.symm

theorem initLeaf_getLsbD (aligned : base.toNat % 2 ^ 30 = 0) (low : j < 21) :
    ((base + i * kLargePage) ||| kLeafPerm).getLsbD j = kLeafPerm.getLsbD j := by
  have page : (base + i * kLargePage).toNat % 2 ^ 21 = 0 := by
    have size : kLargePage.toNat = 2 ^ 21 := by decide
    rw [BitVec.toNat_add, BitVec.toNat_mul, size]
    omega
  rw [BitVec.getLsbD_or, getLsbD_of_aligned page low, Bool.false_or]

theorem initLeaf_leaf (aligned : base.toNat % 2 ^ 30 = 0) :
    isLeaf 2 ((base + i * kLargePage) ||| kLeafPerm) := by
  refine ⟨?_, .inr ?_⟩
  · rw [and_one_ne_zero, initLeaf_getLsbD aligned (by omega)]
    decide
  · rw [and_page_ne_zero, initLeaf_getLsbD aligned (by omega)]
    decide

end Leaves

section Build
variable {root base pml4 limit : UIntPtr} {σ τ : PmmState} {total fuel : Nat} {held free : List UIntPtr}

theorem tableInv_blank {mem : Memory} (zero : ∀ x, Within root kPageSize x → mem x = 0)
    (member : root ∈ held) : TableInv mem root held := by
  have entries {va e : UIntPtr} (found : walkShape.entryOf mem root 0 va = some e) : e = 0 := by
    obtain ⟨t, reached, rfl⟩ := RadixShape.entryOf_some found
    cases reached
    exact load64_zero fun x inside => zero x (RadixShape.within_table inside)
  have cut (d : Nat) (va : UIntPtr) (deep : 0 < d) : walkShape.tableOf mem root d va = none := by
    refine RadixShape.tableOf_none_above ?_ (Nat.succ_le_of_lt deep)
    rw [RadixShape.tableOf_succ_of_entryOf]
    cases found : walkShape.entryOf mem root 0 va with
    | none => rfl
    | some e =>
        rw [entries found]
        rfl
  have only {d : Nat} {va t : UIntPtr} (reached : walkShape.tableOf mem root d va = some t) :
      d = 0 ∧ t = root := by
    rcases Nat.eq_zero_or_pos d with rfl | deep
    · cases reached
      exact ⟨rfl, rfl⟩
    · rw [cut d va deep] at reached
      cases reached
  have noEntry {d : Nat} {va e : UIntPtr} (found : walkShape.entryOf mem root d va = some e) :
      d = 0 ∧ e = 0 := by
    obtain ⟨t, reached, -⟩ := RadixShape.entryOf_some found
    obtain ⟨rfl, -⟩ := only reached
    exact ⟨rfl, entries found⟩
  have noLeaf {d : Nat} {va e : UIntPtr} (found : walkShape.entryOf mem root d va = some e) :
      ¬ isLeaf d e := by
    rw [(noEntry found).2]
    exact fun leaf => leaf.1 (by simp)
  refine ⟨⟨?_, ?_⟩, ?_, fun va e found => noLeaf found, fun d va e _ found leaf => absurd leaf (noLeaf found),
    fun k d va e e' _ _ found leaf => absurd leaf (noLeaf found)⟩
  · intro d d' a b t _ _ first second
    obtain ⟨rfl, -⟩ := only first
    obtain ⟨rfl, -⟩ := only second
    exact ⟨rfl, fun k none => absurd none (Nat.not_lt_zero k)⟩
  · intro d d' a b t t' _ _ first second differ
    exact absurd ((only first).2.trans (only second).2.symm) differ
  · intro d va t _ reached
    rw [(only reached).2]
    exact member

theorem kInitTablePerm_link (f : UIntPtr) :
    (f ||| kInitTablePerm) &&& 1 ≠ 0 ∧ (f ||| kInitTablePerm).getLsbD 1 = true :=
  ⟨or_present (by decide), (linkPerm_facts kInitTablePerm (.inr rfl)).2.2.2 f⟩

theorem initInv_blank (owned : FrameInv total ⟨σ, held⟩ free) (taken : pmmiAllocFrame σ = (root, τ))
    (nonnull : root ≠ 0) : InitInv root τ := by
  obtain ⟨-, -, zero, free', next⟩ := owned.alloc_taken taken nonnull
  have tables : TableInv τ.mem root (root :: held) := tableInv_blank zero (List.mem_cons_self ..)
  refine ⟨⟨total, root :: held, free', next, tables⟩, fun va e found present => ?_⟩
  obtain ⟨t, reached, rfl⟩ := RadixShape.entryOf_some found
  cases reached
  exact absurd (by rw [load64_zero fun x inside => zero x (RadixShape.within_table inside)]; rfl) present

theorem topPresent_of_entryOf {mem mem' : Memory} {a : UIntPtr}
    (same : walkShape.entryOf mem' root 0 a = walkShape.entryOf mem root 0 a) (present : TopPresent mem root a) :
    TopPresent mem' root a := by
  have word : load64 mem' (slotAt root (walkShape.index 0 a)) = load64 mem (slotAt root (walkShape.index 0 a)) :=
    Option.some.inj same
  unfold TopPresent
  rwa [word]

theorem initPdpt_ready (inv : InitInv root σ) (base : UIntPtr)
    (done : initPdpt (slotAt root (walkShape.index 0 base)) σ = (true, τ)) : PdptReady root base σ τ := by
  obtain ⟨⟨total, held, free, owned, tables⟩, writable⟩ := inv
  unfold initPdpt at done
  by_cases absent : load64 σ.mem (slotAt root (walkShape.index 0 base)) &&& 1 = 0
  · rw [if_pos absent] at done
    rcases owned.alloc with none | ⟨f, υ, free', taken, nonnull, fresh, same, zero, owned'⟩
    · simp [none] at done
    · simp only [taken, if_neg nonnull, Prod.mk.injEq, true_and] at done
      subst done
      have apart : Apart (slotAt root (walkShape.index 0 base)) 8 f 4096 :=
        slot_apart_fresh tables owned' fresh (by omega) rfl
      have blank : ¬ isLeaf 1 0 := fun leaf => leaf.1 (by simp)
      have grafted : Grafted σ.mem (υ.store (slotAt root (walkShape.index 0 base))
          (f ||| kInitTablePerm)).mem root base root f (f ||| kInitTablePerm) 0 (fun _ => 0) := by
        refine grafted_of_alloc tables owned' fresh (.inr rfl) (by omega) rfl (fun x off far => ?_)
          load64_store64_same (fun i bound => ?_) (fun _ _ => by decide)
          (fun _ _ leaf => absurd leaf blank) fun _ leaf => absurd leaf blank
        · exact (store64_outside off).trans (same x far)
        · refine load64_zero fun x inside => ?_
          exact (store64_outside fun inSlot => apart x inSlot (within_fresh bound inside)).trans
            (zero x (within_fresh bound inside))
      have reached : walkShape.tableOf σ.mem root 0 base = some root := rfl
      have next := owned_of_graft tables owned' (by omega) reached
        fun x off _ => store64_outside (v := f ||| kInitTablePerm) off
      have present :
          TopPresent (υ.store (slotAt root (walkShape.index 0 base)) (f ||| kInitTablePerm)).mem root base := by
        unfold TopPresent
        dsimp only [PmmState.store]
        rw [load64_store64_same]
        exact (kInitTablePerm_link f).1
      refine ⟨⟨⟨total, f :: held, free', next, tables.graft grafted⟩, fun va e found present => ?_⟩, present,
        fun a there => ?_, fun a => ?_⟩
      · rcases grafted.entryOf_cases tables (by omega) found with ⟨old, -⟩ | ⟨-, -, rfl⟩ | ⟨none, -, -⟩
        · exact writable va e old present
        · exact (kInitTablePerm_link f).2
        · cases none
      · by_cases below : walkShape.Same 1 a base
        · unfold TopPresent at present ⊢
          rwa [below.last]
        · exact topPresent_of_entryOf (RadixShape.entryOf_off_path tables.separate grafted.updates (by omega)
            fun ⟨_, same⟩ => below same) there
      · by_cases below : walkShape.Same 1 a base
        · refine grafted.viewOf_same tables rfl (if_neg fun branch => branch.1 absent) ?_ below
          rw [if_neg fun leaf => leaf.2.1 absent, if_neg blank]
        · exact grafted.viewOf_other tables below
  · rw [if_neg absent] at done
    cases done
    exact ⟨⟨⟨total, held, free, owned, tables⟩, writable⟩, absent, fun _ there => there, fun _ => rfl⟩

theorem initGiB_mapped (inv : InitInv root σ) (aligned : base.toNat % 2 ^ 30 = 0)
    (done : initGiB root base σ = (true, τ)) : GiBMapped root base σ τ := by
  unfold initGiB at done
  rw [show pageIndex base 39 = walkShape.index 0 base from rfl,
    show pageIndex base 30 = walkShape.index 1 base from rfl] at done
  dsimp only at done
  cases first : initPdpt (slotAt root (walkShape.index 0 base)) σ with
  | mk ok υ =>
      rw [first] at done
      dsimp only at done
      cases ok with
      | false => simp at done
      | true =>
          obtain ⟨⟨⟨total, held, free, owned, tables⟩, writable⟩, there, before, views⟩ := initPdpt_ready inv base first
          have present : load64 υ.mem (slotAt root (walkShape.index 0 base)) &&& 1 ≠ 0 := there
          have entry : walkShape.entryOf υ.mem root 0 base = _ := entryOf_of_table rfl
          have branch : load64 υ.mem (slotAt root (walkShape.index 0 base)) &&& kPageSizeBit = 0 := by
            by_contra large
            exact tables.top base _ entry ⟨present, .inr large⟩
          have reached := tableOf_of_branch entry present branch
          have above := writable base _ entry present
          generalize load64 υ.mem (slotAt root (walkShape.index 0 base)) = pml4e at *
          rw [if_neg (by simp)] at done
          rcases owned.alloc with none | ⟨f, ω, free', taken, nonnull, fresh, same, zero, owned'⟩
          · simp [none] at done
          · simp only [taken, if_neg nonnull, Prod.mk.injEq, true_and] at done
            have apart := slot_apart_fresh tables owned' fresh (by omega) reached
            have filled : SameOutside f 4096 (store64 ω.mem (slotAt (tableBase pml4e) (walkShape.index 1 base))
                (f ||| kInitTablePerm)) τ.mem := by
              rw [← done]
              exact fillEntries_sameOutside le_rfl
            have outside (x : UIntPtr)
                (off : ¬ Within (slotAt (tableBase pml4e) (walkShape.index 1 base)) 8 x)
                (far : ¬ Within f 4096 x) : τ.mem x = ω.mem x :=
              (filled x far).trans (store64_outside off)
            have large (a : UIntPtr) : isLeaf 2 ((base + walkShape.index 2 a * kLargePage) ||| kLeafPerm) :=
              initLeaf_leaf aligned
            have grafted : Grafted υ.mem τ.mem root base (tableBase pml4e) f (f ||| kInitTablePerm) 1
                (fun i => (base + i * kLargePage) ||| kLeafPerm) := by
              refine grafted_of_alloc tables owned' fresh (.inr rfl) (by omega) reached
                (fun x off far => (outside x off far).trans (same x far)) ?_ (fun i bound => ?_)
                (fun _ a => next_of_large ?_) (fun _ a _ => ?_) fun a _ bit member set => ?_
              · exact (filled.load64_eq apart).trans load64_store64_same
              · rw [← done]
                exact fillEntries_load i bound le_rfl
              · exact (large a).2.resolve_left (by omega)
              · rw [initLeaf_getLsbD aligned (by omega)]
                decide
              · simp only [List.mem_cons, List.not_mem_nil, or_false] at member
                rcases member with rfl | rfl
                · rw [initLeaf_getLsbD aligned (by omega)] at set
                  exact absurd set (by decide)
                · refine ⟨(kInitTablePerm_link f).2, fun k e below found => ?_⟩
                  obtain rfl : k = 0 := by omega
                  rw [entry] at found
                  cases found
                  exact above
            have next := owned_of_graft tables owned' (by omega) reached outside
            have pages : PageInv root τ := by
              refine ⟨total, f :: held, free', ?_, tables.graft grafted⟩
              rw [← done] at next ⊢
              exact next
            have top (a : UIntPtr) : walkShape.entryOf τ.mem root 0 a = walkShape.entryOf υ.mem root 0 a :=
              RadixShape.entryOf_off_path tables.separate grafted.updates (by omega) fun ⟨reach, _⟩ => by omega
            refine ⟨⟨pages, fun va e found present => ?_⟩, topPresent_of_entryOf (top base) there,
              fun a old => topPresent_of_entryOf (top a) (before a old),
              fun a off => (grafted.viewOf_other tables off).trans (views a), fun a below => ?_⟩
            · rw [top va] at found
              exact writable va e found present
            · rw [(tables.graft grafted).viewOf_eq, grafted.leafBelow_same tables below, if_pos (large a)]
              rfl

theorem initFrom_initInv (inv : InitInv pml4 σ) (aligned : base.toNat % 2 ^ 30 = 0)
    (done : initFrom limit pml4 fuel base σ = some (root, τ)) (nonnull : root ≠ 0) :
    root = pml4 ∧ InitInv pml4 τ := by
  induction fuel generalizing base σ with
  | zero => cases done
  | succ fuel ih =>
      rw [initFrom] at done
      by_cases more : base < limit
      · rw [if_pos more] at done
        cases turn : initGiB pml4 base σ with
        | mk ok υ =>
            rw [turn] at done
            dsimp only at done
            cases ok with
            | false =>
                rw [if_pos rfl] at done
                cases done
                exact absurd rfl nonnull
            | true =>
                rw [if_neg (by simp)] at done
                refine ih (initGiB_mapped inv aligned turn).inv ?_ done
                have size : kGiB.toNat = 2 ^ 30 := by decide
                rw [BitVec.toNat_add, size]
                omega
      · rw [if_neg more] at done
        cases done
        exact ⟨rfl, inv⟩

/-- The tables `mm_init_kernel_tables` leaves behind, from any state of the frame allocator. -/
theorem mmInitKernelTables_pageInv (owned : FrameInv total ⟨σ, held⟩ free)
    (done : mmInitKernelTables fuel limit σ = some (root, τ)) (nonnull : root ≠ 0) : PageInv root τ := by
  unfold mmInitKernelTables at done
  cases taken : pmmiAllocFrame σ with
  | mk pml4 υ =>
      rw [taken] at done
      dsimp only at done
      by_cases empty : pml4 = 0
      · rw [if_pos empty] at done
        cases done
        exact absurd rfl nonnull
      · rw [if_neg empty] at done
        obtain ⟨rfl, inv⟩ := initFrom_initInv (initInv_blank owned taken empty) (by decide) done nonnull
        exact inv.pages

end Build

end Ne.Kernel.HAL
