import NeKernel.Hal.PageSplit

/-!
# The walk to a page's slot

Every turn of `mm_walk_page`'s loop keeps the tree and what each page sees, and leaves the entries
it passed open to user writes.
-/

namespace Ne.Kernel.HAL
open ByteMem

section Fill
variable {table x : UIntPtr} {value : UIntPtr → UIntPtr} {n : Nat} {mem : Memory}

theorem slotAt_ofNat (i : Nat) : slotAt table (BitVec.ofNat 64 i) = table + BitVec.ofNat 64 (8 * i) := by
  unfold slotAt
  rw [Nat.mul_comm, BitVec.ofNat_mul]
  rfl

theorem fillEntries_sameOutside (bound : n ≤ 512) :
    SameOutside table 4096 mem (fillEntries table value n mem) := by
  induction n with
  | zero => exact .refl
  | succ n ih =>
      have last : SameOutside table 4096 (fillEntries table value n mem)
          (fillEntries table value (n + 1) mem) := by
        rw [fillEntries, slotAt_ofNat]
        exact store64_offset_sameOutside _ (by omega)
      exact (ih (by omega)).trans last

theorem fillEntries_load (i : Nat) (below : i < n) (bound : n ≤ 512) :
    load64 (fillEntries table value n mem) (slotAt table (BitVec.ofNat 64 i)) =
      value (BitVec.ofNat 64 i) := by
  induction n with
  | zero => omega
  | succ n ih =>
      rw [fillEntries]
      rcases Nat.lt_succ_iff_lt_or_eq.mp below with earlier | rfl
      · rw [load64_store64_apart, ih earlier (by omega)]
        rw [slotAt_ofNat, slotAt_ofNat]
        exact Apart.of_offsets (by omega) (by omega)
      · exact load64_store64_same

end Fill

section Owned
variable {total : Nat} {r : FrameRun} {free held : List UIntPtr} {σ τ : PmmState} {mem : Memory}

theorem FrameInv.rewrite_held (inv : FrameInv total r free)
    (inside : ∀ x, (∀ g ∈ r.held, ¬ Within g kPageSize x) → mem x = r.state.mem x) :
    FrameInv total ⟨{ r.state with mem := mem }, r.held⟩ free := by
  refine inv.rewrite fun f member x link => inside x fun g held inG => ?_
  have distinct : f ≠ g := fun same => inv.not_held_of_free member (same ▸ held)
  exact frames_apart (inv.isFrame_of_free member).2.1 (inv.isFrame_of_held held).2.1 distinct x
    (link.mono (by decide)) inG

end Owned

def PageInv (root : UIntPtr) (σ : PmmState) : Prop :=
  ∃ total held free, FrameInv total ⟨σ, held⟩ free ∧ TableInv σ.mem root held

/-- The entries a walk passes above depth `d` allow user writes. -/
def Opened (mem : Memory) (root va : UIntPtr) (d : Nat) : Prop :=
  ∀ k e, k < d → walkShape.entryOf mem root k va = some e → e.getLsbD 2 = true ∧ e.getLsbD 1 = true

/-- What a walk with `n` turns leaves. It reaches a slot when it may allocate and `n` frames are left. -/
structure Walked (root va : UIntPtr) (alloc : Bool) (n : Nat) (σ : PmmState)
    (result : UIntPtr × PmmState) : Prop where
  inv : PageInv root result.2
  views : ∀ a, viewOf result.2.mem root a = viewOf σ.mem root a
  slot : result.1 = 0 ∨ ∃ table, walkShape.tableOf result.2.mem root 3 va = some table ∧
    result.1 = slotAt table (walkShape.index 3 va) ∧ Opened result.2.mem root va 3
  progress : alloc = true → n ≤ σ.kPmmFree.toNat → result.1 ≠ 0

section Graft
variable {total : Nat} {root va table f perm : UIntPtr} {held free : List UIntPtr} {σ τ : PmmState}
  {mem' : Memory} {d : Nat} {value : UIntPtr → UIntPtr}

theorem linkPerm_facts (perm : UIntPtr) (known : perm = kTablePerm ∨ perm = kInitTablePerm) :
    perm &&& 1 = 1 ∧ perm &&& kPageSizeBit = 0 ∧ perm &&& ~~~kPageMask = 0 ∧
      ∀ x : UIntPtr, (x ||| perm).getLsbD 1 = true := by
  rcases known with rfl | rfl
  · exact ⟨by decide, by decide, by decide, fun x => by simp [kTablePerm]⟩
  · exact ⟨by decide, by decide, by decide, fun x => by simp [kInitTablePerm]⟩

theorem grafted_of_alloc (tables : TableInv σ.mem root held) (owned : FrameInv total ⟨τ, f :: held⟩ free)
    (fresh : f ∉ held) (known : perm = kTablePerm ∨ perm = kInitTablePerm) (level : d < 3)
    (reached : walkShape.tableOf σ.mem root d va = some table)
    (outside : ∀ x, ¬ Within (slotAt table (walkShape.index d va)) 8 x → ¬ Within f 4096 x →
      mem' x = σ.mem x)
    (entry : load64 mem' (slotAt table (walkShape.index d va)) = f ||| perm)
    (filled : ∀ i < 512, load64 mem' (slotAt f (BitVec.ofNat 64 i)) = value (BitVec.ofNat 64 i))
    (ends : d + 1 < 3 → ∀ a, walkShape.next (value (walkShape.index (d + 1) a)) = none)
    (pat : d + 1 < 3 → ∀ a, isLeaf (d + 1) (value (walkShape.index (d + 1) a)) →
      (value (walkShape.index (d + 1) a)).getLsbD 12 = false)
    (rights : ∀ a, isLeaf (d + 1) (value (walkShape.index (d + 1) a)) → ∀ bit ∈ [2, 1],
      (value (walkShape.index (d + 1) a)).getLsbD bit = true → (f ||| perm).getLsbD bit = true ∧
      ∀ k e, k < d → walkShape.entryOf σ.mem root k va = some e → e.getLsbD bit = true) :
    Grafted σ.mem mem' root va table f (f ||| perm) d value := by
  obtain ⟨present, small, low, -⟩ := linkPerm_facts perm known
  have alignedF := (owned.isFrame_of_held (List.mem_cons_self ..)).2.1
  refine ⟨⟨Nat.le_of_lt level, reached, outside, fun k b t hk found => ?_⟩, level, entry,
    next_link alignedF present small low, fun a => ?_, ends, pat, rights⟩
  · have member := tables.held k b t hk found
    have alignedT := (owned.isFrame_of_held (List.mem_cons_of_mem _ member)).2.1
    exact frames_apart alignedT alignedF fun same => fresh (same ▸ member)
  · have index := filled (walkShape.index (d + 1) a).toNat (walkShape.small (d + 1) a)
    rwa [BitVec.ofNat_toNat, BitVec.setWidth_eq] at index

theorem owned_of_graft (tables : TableInv σ.mem root held) (owned : FrameInv total ⟨τ, f :: held⟩ free)
    (level : d ≤ 3) (reached : walkShape.tableOf σ.mem root d va = some table)
    (outside : ∀ x, ¬ Within (slotAt table (walkShape.index d va)) 8 x → ¬ Within f 4096 x →
      mem' x = τ.mem x) : FrameInv total ⟨{ τ with mem := mem' }, f :: held⟩ free := by
  refine owned.rewrite_held fun x none => outside x ?_ (none f (List.mem_cons_self ..))
  exact fun inSlot => none table (List.mem_cons_of_mem _ (tables.held d va table level reached))
    (RadixShape.within_table inSlot)

theorem slot_apart_fresh (tables : TableInv σ.mem root held) (owned : FrameInv total ⟨τ, f :: held⟩ free)
    (fresh : f ∉ held) (level : d ≤ 3) (reached : walkShape.tableOf σ.mem root d va = some table) :
    Apart (slotAt table (walkShape.index d va)) 8 f 4096 := by
  have member := tables.held d va table level reached
  have alignedT := (owned.isFrame_of_held (List.mem_cons_of_mem _ member)).2.1
  have alignedF := (owned.isFrame_of_held (List.mem_cons_self ..)).2.1
  intro x inSlot inF
  exact frames_apart alignedT alignedF (fun same => fresh (same ▸ member)) x
    (RadixShape.within_table inSlot) inF

theorem within_fresh {i : Nat} (bound : i < 512) {x : UIntPtr}
    (inside : Within (slotAt f (BitVec.ofNat 64 i)) 8 x) : Within f 4096 x := by
  rw [slotAt_ofNat] at inside
  exact inside.of_offset _ (by omega)

theorem Opened.extend (opened : Opened σ.mem root va d)
    (kept : ∀ k < d, walkShape.entryOf mem' root k va = walkShape.entryOf σ.mem root k va)
    {e : UIntPtr} (here : walkShape.entryOf mem' root d va = some e)
    (open' : e.getLsbD 2 = true ∧ e.getLsbD 1 = true) : Opened mem' root va (d + 1) := by
  intro k e' below found
  rcases Nat.lt_succ_iff_lt_or_eq.mp below with earlier | rfl
  · rw [kept k earlier] at found
    exact opened k e' earlier found
  · rw [here] at found
    cases found
    exact open'

end Graft

/-- One turn of the loop at depth `d`, which leads to `table`. -/
structure Stepped (root va : UIntPtr) (d : Nat) (σ τ : PmmState) (table : UIntPtr) : Prop where
  inv : PageInv root τ
  views : ∀ a, viewOf τ.mem root a = viewOf σ.mem root a
  reached : walkShape.tableOf τ.mem root (d + 1) va = some table
  opened : Opened τ.mem root va (d + 1)

section Turn
variable {root va table f : UIntPtr} {σ τ : PmmState} {mem' : Memory} {d : Nat}
  {held free : List UIntPtr} {total : Nat} {value : UIntPtr → UIntPtr}

theorem kTablePerm_open (x : UIntPtr) :
    (x ||| kTablePerm).getLsbD 2 = true ∧ (x ||| kTablePerm).getLsbD 1 = true := by
  simp [kTablePerm]

theorem stepped_of_graft {υ : PmmState} (tables : TableInv σ.mem root held)
    (opened : Opened σ.mem root va d)
    (grafted : Grafted σ.mem υ.mem root va table f (f ||| kTablePerm) d value)
    (owned : FrameInv total ⟨υ, f :: held⟩ free) (views : ∀ a, viewOf υ.mem root a = viewOf σ.mem root a) :
    Stepped root va d σ υ (tableBase (load64 υ.mem (slotAt table (walkShape.index d va)))) := by
  have sep := tables.separate
  have leads : tableBase (load64 υ.mem (slotAt table (walkShape.index d va))) = f := by
    have next := grafted.leads
    unfold walkShape at next
    dsimp only at next
    split at next
    · exact Option.some.inj next
    · cases next
  refine ⟨⟨total, f :: held, free, owned, tables.graft grafted⟩, views, ?_, ?_⟩
  · rw [leads]
    exact RadixShape.tableOf_graft sep grafted.updates grafted.leads .refl
  · have here : walkShape.entryOf υ.mem root d va = some (f ||| kTablePerm) := by
      rw [RadixShape.entryOf_updated sep grafted.updates .refl, grafted.entry]
    have inner := grafted.inner
    exact opened.extend (fun k below => RadixShape.entryOf_off_path sep grafted.updates (by omega)
      fun ⟨reach, _⟩ => by omega) here (kTablePerm_open f)

section
variable (tables : TableInv σ.mem root held) (owned : FrameInv total ⟨τ, f :: held⟩ free) (fresh : f ∉ held)
  (same : SameOutside f kPageSize σ.mem τ.mem) (level : d < 3)
  (reached : walkShape.tableOf σ.mem root d va = some table) (opened : Opened σ.mem root va d)
include tables owned fresh same level reached opened

omit opened in
theorem grafted_new (zero : ∀ x, Within f kPageSize x → τ.mem x = 0) :
    Grafted σ.mem (τ.store (slotAt table (walkShape.index d va)) (f ||| kTablePerm)).mem
      root va table f (f ||| kTablePerm) d (fun _ => 0) := by
  have apart := slot_apart_fresh tables owned fresh (Nat.le_of_lt level) reached
  have blank : ¬ isLeaf (d + 1) 0 := fun leaf => leaf.1 (by simp)
  refine grafted_of_alloc tables owned fresh (.inl rfl) level reached (fun x off far => ?_)
    load64_store64_same (fun i bound => ?_) (fun _ _ => by decide)
    (fun _ _ leaf => absurd leaf blank) fun _ leaf => absurd leaf blank
  · exact (store64_outside off).trans (same x far)
  · refine load64_zero fun x inside => ?_
    exact (store64_outside fun inSlot => apart x inSlot (within_fresh bound inside)).trans
      (zero x (within_fresh bound inside))

theorem stepped_new (zero : ∀ x, Within f kPageSize x → τ.mem x = 0)
    (absent : load64 σ.mem (slotAt table (walkShape.index d va)) &&& 1 = 0) :
    Stepped root va d σ (τ.store (slotAt table (walkShape.index d va)) (f ||| kTablePerm))
      (tableBase (load64 (τ.store (slotAt table (walkShape.index d va)) (f ||| kTablePerm)).mem
        (slotAt table (walkShape.index d va)))) := by
  have blank : ¬ isLeaf (d + 1) 0 := fun leaf => leaf.1 (by simp)
  have grafted := grafted_new tables owned fresh same level reached zero
  refine stepped_of_graft tables opened grafted (owned_of_graft tables owned (Nat.le_of_lt level) reached
    fun x off _ => store64_outside off) fun a => ?_
  by_cases below : walkShape.Same (d + 1) a va
  · refine grafted.viewOf_same tables rfl ?_ ?_ below
    · exact if_neg fun branch => branch.1 absent
    · rw [if_neg fun leaf => leaf.2.1 absent, if_neg blank]
  · exact grafted.viewOf_other tables below

section Split
variable {e : UIntPtr} {split : Memory}
  (entry : load64 σ.mem (slotAt table (walkShape.index d va)) = e) (leaf : isLeaf d e)
  (hsplit : fillEntries f (splitEntry e (39 - 9 * d)) kEntries τ.mem = split)
include entry leaf hsplit

omit opened owned fresh same hsplit in
theorem leaf_inner : 0 < d ∧ d < 3 := by
  have here : walkShape.entryOf σ.mem root d va = some e := by
    rw [RadixShape.entryOf, reached, ← entry]
    rfl
  refine ⟨Nat.pos_of_ne_zero fun top => ?_, level⟩
  subst top
  exact tables.top va _ here leaf

theorem grafted_split : Grafted σ.mem
    ({ τ with mem := split }.store (slotAt table (walkShape.index d va)) (f ||| kTablePerm)).mem
    root va table f (f ||| kTablePerm) d (splitEntry e (39 - 9 * d)) := by
  have apart := slot_apart_fresh tables owned fresh (Nat.le_of_lt level) reached
  have filled : SameOutside f 4096 τ.mem split := hsplit ▸ fillEntries_sameOutside le_rfl
  have inner := leaf_inner tables level reached entry leaf
  have pieces (a : UIntPtr) : isLeaf (d + 1) (splitAt d e a) := splitAt_leaf inner leaf
  refine grafted_of_alloc tables owned fresh (.inl rfl) level reached (fun x off far => ?_)
    load64_store64_same (fun i bound => ?_) (fun less a => ?_) (fun less a _ => ?_)
    fun a _ bit member _ => ?_
  · exact (store64_outside off).trans ((filled x far).trans (same x far))
  · have piece : load64 (fillEntries f (splitEntry e (39 - 9 * d)) 512 τ.mem)
        (slotAt f (BitVec.ofNat 64 i)) = _ := fillEntries_load i bound le_rfl
    rw [← piece]
    refine load64_congr fun x inside => ?_
    exact (store64_outside fun inSlot => apart x inSlot (within_fresh bound inside)).trans
      (congrFun hsplit x).symm
  · exact if_neg fun branch => ((pieces a).2.resolve_left (by omega)) branch.2
  · have none := splitAt_pat (e := e) (a := a) inner
    rwa [patBit, if_neg (by omega)] at none
  · have open' := kTablePerm_open f
    simp only [List.mem_cons, List.not_mem_nil, or_false] at member
    rcases member with rfl | rfl
    · exact ⟨open'.1, fun k e below found => (opened k e below found).1⟩
    · exact ⟨open'.2, fun k e below found => (opened k e below found).2⟩

omit opened same fresh entry leaf in
theorem owned_split : FrameInv total ⟨{ τ with mem := split }.store (slotAt table (walkShape.index d va))
    (f ||| kTablePerm), f :: held⟩ free := by
  have filled : SameOutside f 4096 τ.mem split := hsplit ▸ fillEntries_sameOutside le_rfl
  exact owned_of_graft (τ := τ) tables owned (Nat.le_of_lt level) reached fun x off far =>
    (store64_outside off).trans (filled x far)

theorem stepped_split : Stepped root va d σ
    ({ τ with mem := split }.store (slotAt table (walkShape.index d va)) (f ||| kTablePerm))
    (tableBase (load64 ({ τ with mem := split }.store (slotAt table (walkShape.index d va))
      (f ||| kTablePerm)).mem (slotAt table (walkShape.index d va)))) := by
  have inner := leaf_inner tables level reached entry leaf
  have here : walkShape.entryOf σ.mem root d va = some e := by
    rw [RadixShape.entryOf, reached, ← entry]
    rfl
  have pat := tables.pat d va _ level here leaf
  have pieces (a : UIntPtr) : isLeaf (d + 1) (splitAt d e a) := splitAt_leaf inner leaf
  have grafted := grafted_split tables owned fresh same level reached opened entry leaf hsplit
  have owned' := owned_split tables owned level reached hsplit
  refine stepped_of_graft tables opened grafted owned' fun a => ?_
  by_cases below : walkShape.Same (d + 1) a va
  · refine grafted.viewOf_same tables entry ?_ ?_ below
    · exact if_neg fun branch => (leaf.2.resolve_left (by omega)) branch.2
    · exact (if_pos ⟨inner.1, leaf⟩).trans ((congrArg some (splitAt_leafView inner pat).symm).trans
        (if_pos (pieces a)).symm)
  · exact grafted.viewOf_other tables below

end Split

end

theorem stepped_widen (tables : TableInv σ.mem root held) (owned : FrameInv total ⟨σ, held⟩ free)
    (level : d < 3) (reached : walkShape.tableOf σ.mem root d va = some table)
    (opened : Opened σ.mem root va d)
    (present : load64 σ.mem (slotAt table (walkShape.index d va)) &&& 1 ≠ 0)
    (branch : load64 σ.mem (slotAt table (walkShape.index d va)) &&& kPageSizeBit = 0) :
    Stepped root va d σ (σ.store (slotAt table (walkShape.index d va))
      (load64 σ.mem (slotAt table (walkShape.index d va)) ||| kTablePerm))
      (tableBase (load64 (σ.store (slotAt table (walkShape.index d va))
        (load64 σ.mem (slotAt table (walkShape.index d va)) ||| kTablePerm)).mem
          (slotAt table (walkShape.index d va)))) := by
  generalize hυ : σ.store (slotAt table (walkShape.index d va))
    (load64 σ.mem (slotAt table (walkShape.index d va)) ||| kTablePerm) = υ
  have written : υ.mem = store64 σ.mem (slotAt table (walkShape.index d va))
      (load64 σ.mem (slotAt table (walkShape.index d va)) ||| kTablePerm) := by
    rw [← hυ]
    rfl
  obtain ⟨after, views, keeps⟩ := tables.widen level reached rfl present branch written
  have now : load64 υ.mem (slotAt table (walkShape.index d va)) =
      load64 σ.mem (slotAt table (walkShape.index d va)) ||| kTablePerm := by
    rw [written, load64_store64_same]
  have up := updates_store (v := load64 σ.mem (slotAt table (walkShape.index d va)) ||| kTablePerm)
    (Nat.le_of_lt level) reached
  rw [← written] at up
  have owned' : FrameInv total ⟨υ, held⟩ free := by
    rw [← hυ]
    refine owned.rewrite_held fun x none => store64_outside fun inSlot => ?_
    exact none table (tables.held d va table (Nat.le_of_lt level) reached)
      (RadixShape.within_table inSlot)
  have here := RadixShape.entryOf_updated tables.separate up (RadixShape.Same.refl (a := va))
  rw [now] at here
  refine ⟨⟨total, held, free, owned', after⟩, views, ?_, ?_⟩
  · rw [RadixShape.tableOf_succ_of_entryOf, here, now]
    refine (keeps.trans (next_of_branch present branch)).trans ?_
    unfold tableBase
    rw [or_mask (by decide)]
  · exact opened.extend (fun k below => RadixShape.entryOf_off_path tables.separate up (by omega)
      fun ⟨reach, _⟩ => by omega) here (kTablePerm_open _)

end Turn

section Walk
variable {root va table : UIntPtr} {σ τ : PmmState} {d : Nat} {alloc : Bool}

theorem Walked.stop {n : Nat} (inv : PageInv root σ)
    (refused : alloc = true → ¬ n ≤ σ.kPmmFree.toNat) : Walked root va alloc n σ (0, σ) :=
  ⟨inv, fun _ => rfl, .inl rfl, fun may room => absurd room (refused may)⟩

theorem Stepped.walked {n : Nat} {result : UIntPtr × PmmState} (step : Stepped root va d σ τ table)
    (rest : Walked root va alloc n τ result) (spent : σ.kPmmFree.toNat ≤ τ.kPmmFree.toNat + 1) :
    Walked root va alloc (n + 1) σ result :=
  ⟨rest.inv, fun a => (rest.views a).trans (step.views a), rest.slot,
    fun may room => rest.progress may (by omega)⟩

theorem slot_nonzero {held free : List UIntPtr} {total : Nat} (tables : TableInv σ.mem root held)
    (owned : FrameInv total ⟨σ, held⟩ free) (level : d ≤ 3)
    (reached : walkShape.tableOf σ.mem root d va = some table) :
    slotAt table (walkShape.index d va) ≠ 0 := by
  obtain ⟨nonnull, aligned, -⟩ := owned.isFrame_of_held (tables.held d va table level reached)
  have small := walkShape.small d va
  unfold slotAt
  unfold kPageSize at aligned
  bv_omega

/-- A turn that goes on to the next level, with the state it leaves. -/
inductive WalkTurn (va table : UIntPtr) (d : Nat) (σ : PmmState) : PmmState → Prop
  | new {f : UIntPtr} {τ : PmmState} : load64 σ.mem (slotAt table (walkShape.index d va)) &&& 1 = 0 →
      pmmiAllocFrame σ = (f, τ) → f ≠ 0 →
      WalkTurn va table d σ (τ.store (slotAt table (walkShape.index d va)) (f ||| kTablePerm))
  | split {f : UIntPtr} {τ : PmmState} {split : Memory} :
      load64 σ.mem (slotAt table (walkShape.index d va)) &&& 1 ≠ 0 →
      load64 σ.mem (slotAt table (walkShape.index d va)) &&& kPageSizeBit ≠ 0 →
      pmmiAllocFrame σ = (f, τ) → f ≠ 0 →
      fillEntries f (splitEntry (load64 τ.mem (slotAt table (walkShape.index d va))) (39 - 9 * d)) kEntries τ.mem =
        split →
      WalkTurn va table d σ
        ({ τ with mem := split }.store (slotAt table (walkShape.index d va)) (f ||| kTablePerm))
  | widen : load64 σ.mem (slotAt table (walkShape.index d va)) &&& 1 ≠ 0 →
      load64 σ.mem (slotAt table (walkShape.index d va)) &&& kPageSizeBit = 0 →
      WalkTurn va table d σ (σ.store (slotAt table (walkShape.index d va))
        (load64 σ.mem (slotAt table (walkShape.index d va)) ||| kTablePerm))

theorem walkFrom_turn (n : Nat) (level : 39 - 9 * d = 12 + 9 * (n + 1)) :
    (walkFrom va alloc (n + 1) table σ = (0, σ) ∧ alloc = false ∧
      walkShape.next (load64 σ.mem (slotAt table (walkShape.index d va))) = none) ∨
    (∃ τ, pmmiAllocFrame σ = (0, τ) ∧ walkFrom va alloc (n + 1) table σ = (0, τ) ∧
      walkShape.next (load64 σ.mem (slotAt table (walkShape.index d va))) = none) ∨
    ∃ υ, WalkTurn va table d σ υ ∧ walkFrom va alloc (n + 1) table σ =
      walkFrom va alloc n (tableBase (load64 υ.mem (slotAt table (walkShape.index d va)))) υ := by
  have index : pageIndex va (12 + 9 * (n + 1)) = walkShape.index d va := by rw [← level]; rfl
  rw [walkFrom]
  dsimp only
  rw [index, ← level]
  by_cases absent : load64 σ.mem (slotAt table (walkShape.index d va)) &&& 1 = 0
  · rw [if_pos absent]
    have ended := next_of_absent absent
    by_cases no : alloc = false
    · exact .inl ⟨if_pos no, no, ended⟩
    rw [if_neg no]
    cases taken : pmmiAllocFrame σ with
    | mk f τ =>
        by_cases none : f = 0
        · subst none
          exact .inr (.inl ⟨τ, rfl, if_pos rfl, ended⟩)
        · exact .inr (.inr ⟨_, .new absent taken none, if_neg none⟩)
  rw [if_neg absent]
  by_cases large : load64 σ.mem (slotAt table (walkShape.index d va)) &&& kPageSizeBit ≠ 0
  · rw [if_pos large]
    have ended := next_of_large large
    by_cases no : alloc = false
    · exact .inl ⟨if_pos no, no, ended⟩
    rw [if_neg no]
    cases taken : pmmiAllocFrame σ with
    | mk f τ =>
        by_cases none : f = 0
        · subst none
          exact .inr (.inl ⟨τ, rfl, if_pos rfl, ended⟩)
        · exact .inr (.inr ⟨_, .split absent large taken none rfl, if_neg none⟩)
  · rw [if_neg large]
    exact .inr (.inr ⟨_, .widen absent (not_not.mp large), rfl⟩)

theorem WalkTurn.stepped {υ : PmmState} {total : Nat} {held free : List UIntPtr}
    (tables : TableInv σ.mem root held) (owned : FrameInv total ⟨σ, held⟩ free) (level : d < 3)
    (reached : walkShape.tableOf σ.mem root d va = some table) (opened : Opened σ.mem root va d)
    (turn : WalkTurn va table d σ υ) :
    Stepped root va d σ υ (tableBase (load64 υ.mem (slotAt table (walkShape.index d va)))) ∧
      σ.kPmmFree.toNat ≤ υ.kPmmFree.toNat + 1 := by
  have some : held ≠ [] := List.ne_nil_of_mem (tables.held 0 0 root (by omega) rfl)
  have spent {f : UIntPtr} {τ : PmmState} (taken : pmmiAllocFrame σ = (f, τ)) :
      σ.kPmmFree.toNat ≤ τ.kPmmFree.toNat + 1 := by
    rcases Nat.eq_zero_or_pos σ.kPmmFree.toNat with zero | room
    · omega
    · exact (owned.alloc_nonzero some room taken).2.ge
  cases turn with
  | new absent taken nonnull =>
      obtain ⟨fresh, same, zero, free', owned'⟩ := owned.alloc_taken taken nonnull
      have cost := spent taken
      exact ⟨stepped_new tables owned' fresh same level reached opened zero absent, cost⟩
  | @split _ _ _ present large taken nonnull hsplit =>
      obtain ⟨fresh, same, zero, free', owned'⟩ := owned.alloc_taken taken nonnull
      rw [same.load64_eq (slot_apart_fresh tables owned' fresh (Nat.le_of_lt level) reached)] at hsplit
      have cost := spent taken
      exact ⟨stepped_split tables owned' fresh same level reached opened rfl ⟨present, .inr large⟩ hsplit, cost⟩
  | widen present branch =>
      exact ⟨stepped_widen tables owned level reached opened present branch, Nat.le_succ _⟩

theorem walkFrom_walked (n : Nat) (bound : n ≤ 3) (inv : PageInv root σ)
    (reached : walkShape.tableOf σ.mem root (3 - n) va = some table)
    (opened : Opened σ.mem root va (3 - n)) :
    Walked root va alloc n σ (walkFrom va alloc n table σ) := by
  obtain ⟨total, held, free, owned, tables⟩ := inv
  have inv : PageInv root σ := ⟨total, held, free, owned, tables⟩
  induction n generalizing σ table total held free with
  | zero =>
      have nonzero : slotAt table (walkShape.index 3 va) ≠ 0 := slot_nonzero tables owned le_rfl reached
      exact ⟨inv, fun _ => rfl, .inr ⟨table, reached, rfl, opened⟩, fun _ _ => nonzero⟩
  | succ n ih =>
      obtain ⟨d, hd⟩ : ∃ d, 3 - (n + 1) = d := ⟨_, rfl⟩
      have level : d < 3 := by omega
      have deeper : 3 - n = d + 1 := by omega
      rw [hd] at reached opened
      rw [deeper] at ih
      rcases @walkFrom_turn va table σ d alloc n (by omega) with ⟨ends, no, -⟩ | ⟨τ, taken, ends, -⟩ | ⟨υ, turn, goes⟩
      · rw [ends]
        exact .stop inv fun may => absurd (no.symm.trans may) Bool.false_ne_true
      · obtain rfl := owned.alloc_null taken
        have some : held ≠ [] := List.ne_nil_of_mem (tables.held 0 0 root (by omega) rfl)
        rw [ends]
        exact .stop inv fun _ room => absurd rfl (owned.alloc_nonzero some (by omega) taken).1
      · obtain ⟨step, cost⟩ := turn.stepped tables owned level reached opened
        obtain ⟨total', held', free', owned', tables'⟩ := step.inv
        rw [goes]
        exact step.walked (ih (by omega) step.reached step.opened total' held' free' owned' tables' step.inv) cost

theorem PageInv.root_facts (inv : PageInv root σ) : root ≠ 0 ∧ tableBase root = root := by
  obtain ⟨total, held, free, owned, tables⟩ := inv
  obtain ⟨nonnull, aligned, -⟩ := owned.isFrame_of_held (tables.held 0 0 root (by omega) rfl)
  refine ⟨nonnull, ?_⟩
  have base := tableBase_aligned (c := 0) aligned (by decide)
  simpa using base

theorem mmWalkPage_walked (inv : PageInv root σ) (va : UIntPtr) (alloc : Bool) :
    Walked root va alloc 3 σ (mmWalkPage root va alloc σ) := by
  obtain ⟨nonnull, base⟩ := inv.root_facts
  unfold mmWalkPage
  rw [if_neg nonnull, base]
  exact walkFrom_walked 3 le_rfl inv rfl fun k _ none => absurd none (Nat.not_lt_zero k)

end Walk

end Ne.Kernel.HAL
