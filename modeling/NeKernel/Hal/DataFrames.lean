import NeKernel.Hal.PageTraffic
import Mathlib.Data.List.Perm.Subperm

/-!
# Frames that carry data

A frame that was handed out is a table, was handed out before, or carries the data of a page. What the page
manager does keeps the data frames apart from the tables, and leaves their bytes alone.
-/

namespace Ne.Kernel.HAL
open ByteMem

/-- A frame that was taken and not given back. -/
def HandedOut (σ : PmmState) (f : UIntPtr) : Prop := IsFrame σ f ∧ ¬ Listed σ f

/-- The region of memory that the frames are carved from. -/
def InRegion (σ : PmmState) (x : UIntPtr) : Prop := σ.kPmmBase ≤ x ∧ x < σ.kPmmEnd

def SameRegion (σ τ : PmmState) : Prop := τ.kPmmBase = σ.kPmmBase ∧ τ.kPmmEnd = σ.kPmmEnd

/-- The frames that were handed out are the tables and `data`. An entry has 52 bits for the address of a frame. -/
structure DataFrames (root : UIntPtr) (data : List UIntPtr) (σ : PmmState) (total : Nat)
    (tables free : List UIntPtr) : Prop where
  owned : FrameInv total ⟨σ, tables ++ data⟩ free
  tree : TableInv σ.mem root tables
  known : ∀ t ∈ tables, IsTable σ.mem root t
  narrow : σ.kPmmEnd.toNat ≤ 2 ^ 52

def DataInv (root : UIntPtr) (data : List UIntPtr) (σ : PmmState) : Prop :=
  ∃ total tables free, DataFrames root data σ total tables free

/-- The bytes of the frames stay, and so do the tables, the region and the number of frames. -/
structure Spares (root : UIntPtr) (data : List UIntPtr) (σ τ : PmmState) : Prop where
  bytes : ∀ f ∈ data, ∀ x, Within f kPageSize x → τ.mem x = σ.mem x
  tables : ∀ k a t, k ≤ 3 → walkShape.tableOf σ.mem root k a = some t → walkShape.tableOf τ.mem root k a = some t
  region : SameRegion σ τ
  count : τ.kPmmFree.toNat + τ.kPmmUsed.toNat = σ.kPmmFree.toNat + σ.kPmmUsed.toNat

/-- A last-level entry maps the frame. -/
def Mapped (mem : Memory) (root va f : UIntPtr) : Prop :=
  ∃ e, walkShape.entryOf mem root 3 va = some e ∧ e &&& 1 ≠ 0 ∧ e &&& kAddrMask = f

section Lists
variable {total : Nat} {root t : UIntPtr} {σ τ υ : PmmState} {held held' tables free data : List UIntPtr}
  {mem mem' : Memory}

theorem Spares.refl : Spares root data σ σ := ⟨fun _ _ _ _ => rfl, fun _ _ _ _ => id, ⟨rfl, rfl⟩, rfl⟩

theorem Spares.trans (first : Spares root data σ τ) (second : Spares root data τ υ) : Spares root data σ υ where
  bytes f member x inside := (second.bytes f member x inside).trans (first.bytes f member x inside)
  tables k a t level reached := second.tables k a t level (first.tables k a t level reached)
  region := ⟨second.region.1.trans first.region.1, second.region.2.trans first.region.2⟩
  count := second.count.trans first.count

theorem Spares.among (spares : Spares root data σ τ) {fewer : List UIntPtr} (less : ∀ f ∈ fewer, f ∈ data) :
    Spares root fewer σ τ :=
  ⟨fun f member => spares.bytes f (less f member), spares.tables, spares.region, spares.count⟩

theorem Spares.isTable (spares : Spares root data σ τ) (table : IsTable σ.mem root t) : IsTable τ.mem root t := by
  obtain ⟨k, a, level, reached⟩ := table
  exact ⟨k, a, level, spares.tables k a t level reached⟩

theorem Spares.inRegion (spares : Spares root data σ τ) (x : UIntPtr) : InRegion τ x ↔ InRegion σ x := by
  unfold InRegion
  rw [spares.region.1, spares.region.2]

theorem Spares.of_same (same : walkShape.SameTables σ.mem τ.mem root 3) (region : SameRegion σ τ)
    (count : τ.kPmmFree.toNat + τ.kPmmUsed.toNat = σ.kPmmFree.toNat + σ.kPmmUsed.toNat)
    (bytes : ∀ f ∈ data, ∀ x, Within f kPageSize x → τ.mem x = σ.mem x) : Spares root data σ τ :=
  ⟨bytes, fun _ _ _ level reached => (RadixShape.tableOf_congr same level).trans reached, region, count⟩

theorem FrameInv.reorder (inv : FrameInv total ⟨σ, held⟩ free) (same : held.Perm held') :
    FrameInv total ⟨σ, held'⟩ free where
  chain := inv.chain
  owned := (same.append_left free).nodup_iff.mp inv.owned
  frames f := (same.append_left free).mem_iff.symm.trans (inv.frames f)
  baseAligned := inv.baseAligned
  cursorAligned := inv.cursorAligned
  endAligned := inv.endAligned
  started := inv.started
  bounded := inv.bounded
  left := inv.left
  used := inv.used.trans same.length_eq
  balance := inv.balance
  small := inv.small

theorem TableInv.among (tables : TableInv mem root held) (more : ∀ t ∈ held, t ∈ held') : TableInv mem root held' :=
  tables.congr (fun _ _ _ _ _ _ _ => rfl) fun t table => more t (tables.mem_of_isTable table)

theorem TableInv.viewOf_congr (inv : TableInv mem root held) (same : walkShape.SameTables mem mem' root 3)
    (a : UIntPtr) : viewOf mem' root a = viewOf mem root a := by
  have after : TableInv mem' root held := inv.congr same fun t => inv.mem_of_isTable
  rw [after.viewOf_eq, inv.viewOf_eq, leafBelow_congr fun k _ le => .inl (RadixShape.entryOf_congr same le)]

end Lists

section Frames
variable {root f : UIntPtr} {data tables free : List UIntPtr} {total : Nat} {σ : PmmState} {mem' : Memory}

theorem pmmiAllocFrame_region (σ : PmmState) : SameRegion σ (pmmiAllocFrame σ).2 := by
  unfold SameRegion
  rcases pmmiAllocFrame_cases σ with ⟨-, taken⟩ | ⟨-, -, -, taken⟩ | ⟨-, taken⟩ <;> simp only [taken, and_self]

theorem DataInv.pageInv (inv : DataInv root data σ) : PageInv root σ := by
  obtain ⟨total, tables, free, frames⟩ := inv
  exact ⟨total, tables ++ data, free, frames.owned, frames.tree.among fun t => List.mem_append_left _⟩

theorem FrameInv.handedOut_iff {held : List UIntPtr} (inv : FrameInv total ⟨σ, held⟩ free) :
    HandedOut σ f ↔ f ∈ held := by
  constructor
  · rintro ⟨there, unlisted⟩
    refine (List.mem_append.mp ((inv.frames f).mpr there)).resolve_left fun listed => ?_
    exact unlisted ⟨free, inv.chain, listed⟩
  · intro member
    refine ⟨inv.isFrame_of_held member, ?_⟩
    rintro ⟨nodes, chain, listed⟩
    obtain rfl := chain.unique inv.chain
    exact inv.not_held_of_free listed member

open Classical in
theorem PageInv.dataInv (inv : PageInv root σ) (narrow : σ.kPmmEnd.toNat ≤ 2 ^ 52) : ∃ data, DataInv root data σ := by
  obtain ⟨total, held, free, owned, tree⟩ := inv
  let tabled := fun t => decide (IsTable σ.mem root t)
  refine ⟨held.filter (! tabled ·), total, held.filter tabled, free, ?_, ?_, fun t member => ?_, narrow⟩
  · exact owned.reorder (List.filter_append_perm tabled held).symm
  · refine tree.congr (fun _ _ _ _ _ _ _ => rfl) fun t table => ?_
    exact List.mem_filter.mpr ⟨tree.mem_of_isTable table, decide_eq_true table⟩
  · exact of_decide_eq_true (List.mem_filter.mp member).2

theorem DataInv.isTable_or (inv : DataInv root data σ) : HandedOut σ f ↔ IsTable σ.mem root f ∨ f ∈ data := by
  obtain ⟨total, tables, free, frames⟩ := inv
  rw [frames.owned.handedOut_iff, List.mem_append]
  exact or_congr_left ⟨frames.known f, frames.tree.mem_of_isTable⟩

theorem DataFrames.nodup (frames : DataFrames root data σ total tables free) : data.Nodup :=
  (List.nodup_append.mp (List.nodup_append.mp frames.owned.owned).2.1).2.1

theorem DataFrames.untabled (frames : DataFrames root data σ total tables free) (member : f ∈ data) :
    f ∉ tables :=
  fun table => List.disjoint_of_nodup_append (List.nodup_append.mp frames.owned.owned).2.1 table member

theorem DataFrames.isFrame (frames : DataFrames root data σ total tables free) (member : f ∈ data) :
    IsFrame σ f :=
  frames.owned.isFrame_of_held (List.mem_append_right _ member)

theorem DataInv.aligned (inv : DataInv root data σ) (member : f ∈ data) :
    f &&& (BitVec.ofNat 64 kPageSize - 1) = 0 := by
  obtain ⟨total, tables, free, frames⟩ := inv
  apply BitVec.eq_of_toNat_eq
  exact (and_kPmmAlign f).trans (frames.isFrame member).2.1

theorem DataInv.below (inv : DataInv root data σ) (member : f ∈ data) : f.toNat < 2 ^ 52 := by
  obtain ⟨total, tables, free, frames⟩ := inv
  obtain ⟨-, -, -, carved⟩ := frames.isFrame member
  have bounded : σ.kPmmCursor.toNat ≤ σ.kPmmEnd.toNat := frames.owned.bounded
  have narrow := frames.narrow
  omega

theorem DataFrames.apart {t x : UIntPtr} (frames : DataFrames root data σ total tables free)
    (member : f ∈ data) (tabled : t ∈ tables) (inside : Within f kPageSize x) : ¬ Within t kPageSize x := by
  have differ : f ≠ t := fun same => frames.untabled member (same ▸ tabled)
  have alignedF := (frames.isFrame member).2.1
  have alignedT := (frames.owned.isFrame_of_held (List.mem_append_left _ tabled)).2.1
  exact frames_apart alignedF alignedT differ x inside

theorem FrameInv.inRegion {held : List UIntPtr} {x : UIntPtr} (inv : FrameInv total ⟨σ, held⟩ free)
    (there : IsFrame σ f) (inside : Within f kPageSize x) : InRegion σ x := by
  obtain ⟨-, aligned, low, high⟩ := there
  have cursorAligned : σ.kPmmCursor.toNat % kPageSize = 0 := inv.cursorAligned
  have bounded : σ.kPmmCursor.toNat ≤ σ.kPmmEnd.toNat := inv.bounded
  unfold Within kPageSize at *
  refine ⟨?_, ?_⟩ <;> bv_omega

theorem DataInv.inRegion_frame {x : UIntPtr} (inv : DataInv root data σ) (aligned : f &&& kPageMask = 0)
    (inside : Within f kPageSize x) (there : InRegion σ x) : InRegion σ f := by
  obtain ⟨total, tables, free, frames⟩ := inv
  have baseAligned : σ.kPmmBase.toNat % kPageSize = 0 := frames.owned.baseAligned
  have endAligned : σ.kPmmEnd.toNat % kPageSize = 0 := frames.owned.endAligned
  have page : f.toNat % kPageSize = 0 := (and_kPmmAlign f).symm.trans (congrArg BitVec.toNat aligned)
  obtain ⟨low, high⟩ := there
  unfold Within kPageSize at *
  refine ⟨?_, ?_⟩ <;> bv_omega

/-- What is written in data frames, or outside the region of frames, is in no table. -/
theorem DataFrames.same (frames : DataFrames root data σ total tables free)
    (outside : ∀ x, InRegion σ x → (∀ f ∈ data, ¬ Within f kPageSize x) → mem' x = σ.mem x) :
    walkShape.SameTables σ.mem mem' root 3 := by
  intro d va t level reached x inside
  have table := frames.tree.held d va t level reached
  have region := frames.owned.inRegion (frames.owned.isFrame_of_held (List.mem_append_left _ table)) inside
  exact outside x region fun f member inFrame => frames.apart member table inFrame inside

theorem DataFrames.rewrite {τ : PmmState} {data' free' : List UIntPtr}
    (frames : DataFrames root data σ total tables free) (same : walkShape.SameTables σ.mem τ.mem root 3)
    (owned : FrameInv total ⟨τ, tables ++ data'⟩ free') (region : SameRegion σ τ) :
    DataInv root data' τ ∧ ∀ a, viewOf τ.mem root a = viewOf σ.mem root a := by
  have spares : Spares root [] σ τ := .of_same same region (owned.balance.trans frames.owned.balance.symm) (by simp)
  refine ⟨⟨total, tables, free', owned, frames.tree.congr same fun t => frames.tree.mem_of_isTable,
    fun t member => ?_, ?_⟩, frames.tree.viewOf_congr same⟩
  · exact spares.isTable (frames.known t member)
  · exact region.2 ▸ frames.narrow

theorem DataInv.alloc (inv : DataInv root data σ) : pmmiAllocFrame σ = (0, σ) ∨
    ∃ f τ, pmmiAllocFrame σ = (f, τ) ∧ f ≠ 0 ∧ f ∉ data ∧ DataInv root (f :: data) τ ∧
      Spares root data σ τ ∧ (∀ a, viewOf τ.mem root a = viewOf σ.mem root a) ∧
      ∀ x, Within f kPageSize x → τ.mem x = 0 := by
  obtain ⟨total, tables, free, frames⟩ := inv
  rcases frames.owned.alloc with none | ⟨f, τ, free', taken, nonnull, fresh, same, zero, owned'⟩
  · exact .inl none
  have apart : ∀ t ∈ tables ++ data, ∀ x, Within t kPageSize x → τ.mem x = σ.mem x := by
    intro t member x inside
    have alignedT := (frames.owned.isFrame_of_held member).2.1
    have alignedF := (owned'.isFrame_of_held List.mem_cons_self).2.1
    exact same x (frames_apart alignedT alignedF (fun one => fresh (one ▸ member)) x inside)
  have spared : walkShape.SameTables σ.mem τ.mem root 3 := fun d va t level reached =>
    apart t (List.mem_append_left _ (frames.tree.held d va t level reached))
  have region := pmmiAllocFrame_region σ
  rw [taken] at region
  obtain ⟨inv', views⟩ := frames.rewrite spared (owned'.reorder List.perm_middle.symm) region
  exact .inr ⟨f, τ, taken, nonnull, fun member => fresh (List.mem_append_right _ member), inv',
    .of_same spared region (owned'.balance.trans frames.owned.balance.symm) fun g member =>
      apart g (List.mem_append_right _ member), views, zero⟩

theorem Spares.free_le {τ : PmmState} {data' : List UIntPtr} (spares : Spares root [] σ τ)
    (before : DataInv root data σ) (after : DataInv root data' τ) :
    τ.kPmmFree.toNat + data'.length ≤ σ.kPmmFree.toNat + data.length := by
  obtain ⟨total, tables, free, frames⟩ := before
  obtain ⟨total', tables', free', frames'⟩ := after
  have distinct : tables.Nodup := (List.nodup_append.mp (List.nodup_append.mp frames.owned.owned).2.1).1
  have more : tables.length ≤ tables'.length := by
    refine (List.Nodup.subperm distinct fun t member => ?_).length_le
    exact frames'.tree.mem_of_isTable (spares.isTable (frames.known t member))
  have used : σ.kPmmUsed.toNat = (tables ++ data).length := frames.owned.used
  have used' : τ.kPmmUsed.toNat = (tables' ++ data').length := frames'.owned.used
  have count := spares.count
  rw [List.length_append] at used used'
  omega

theorem DataInv.alloc_cost {τ : PmmState} (inv : DataInv root data σ) (taken : pmmiAllocFrame σ = (f, τ))
    (room : 0 < σ.kPmmFree.toNat) : f ≠ 0 ∧ τ.kPmmFree.toNat + 1 = σ.kPmmFree.toNat := by
  obtain ⟨total, held, free, owned, tree⟩ := inv.pageInv
  exact owned.alloc_nonzero (List.ne_nil_of_mem (tree.held 0 0 root (by omega) rfl)) room taken

theorem DataInv.write (inv : DataInv root data σ)
    (outside : ∀ x, InRegion σ x → (∀ f ∈ data, ¬ Within f kPageSize x) → mem' x = σ.mem x) :
    DataInv root data { σ with mem := mem' } ∧ Spares root [] σ { σ with mem := mem' } ∧
      ∀ a, viewOf mem' root a = viewOf σ.mem root a := by
  obtain ⟨total, tables, free, frames⟩ := inv
  have same := frames.same outside
  have owned : FrameInv total ⟨{ σ with mem := mem' }, tables ++ data⟩ free := by
    refine frames.owned.rewrite fun f member x inside => ?_
    have inFrame : Within f kPageSize x := inside.mono (by decide)
    have there := frames.owned.isFrame_of_free member
    refine outside x (frames.owned.inRegion there inFrame) fun g holds => ?_
    have differ : f ≠ g := fun one => frames.owned.not_held_of_free member (one ▸ List.mem_append_right _ holds)
    exact frames_apart there.2.1 (frames.isFrame holds).2.1 differ x inFrame
  have region : SameRegion σ { σ with mem := mem' } := ⟨rfl, rfl⟩
  obtain ⟨inv', views⟩ := frames.rewrite same owned region
  exact ⟨inv', .of_same same region rfl (by simp), views⟩

theorem DataInv.release (inv : DataInv root (f :: data) σ) :
    DataInv root data (pmmiFreeFrame f σ) ∧ Spares root data σ (pmmiFreeFrame f σ) ∧
      ∀ a, viewOf (pmmiFreeFrame f σ).mem root a = viewOf σ.mem root a := by
  obtain ⟨total, tables, free, frames⟩ := inv
  have frame := frames.isFrame List.mem_cons_self
  rcases pmmiFreeFrame_cases f σ with ⟨none, -⟩ | ⟨-, freed⟩
  · exact absurd frame none
  have outside : ∀ x, ¬ Within f kPageSize x → (pmmiFreeFrame f σ).mem x = σ.mem x := by
    intro x off
    rw [freed]
    exact store64_outside fun inLink => off (inLink.mono (by decide))
  have same := frames.same fun x _ none => outside x (none f List.mem_cons_self)
  have pushed := frames.owned.push (List.mem_append_right tables List.mem_cons_self)
  rw [List.erase_append_right _ (frames.untabled List.mem_cons_self), List.erase_cons_head] at pushed
  rw [freed] at same outside ⊢
  obtain ⟨inv', views⟩ := frames.rewrite same pushed ⟨rfl, rfl⟩
  refine ⟨inv', .of_same same ⟨rfl, rfl⟩ (pushed.balance.trans frames.owned.balance.symm) fun g member x inside =>
    outside x ?_, views⟩
  have differ : g ≠ f := fun one => (List.nodup_cons.mp frames.nodup).1 (one ▸ member)
  exact frames_apart (frames.isFrame (List.mem_cons_of_mem _ member)).2.1 frame.2.1 differ x inside

/-- The view of a page that has a last table is the one of its last-level entry. -/
theorem mapped_iff {va : UIntPtr} (inv : PageInv root σ) : Mapped σ.mem root va f ↔
    (∃ t, walkShape.tableOf σ.mem root 3 va = some t) ∧ ∃ view, viewOf σ.mem root va = some view ∧ view.frame = f := by
  obtain ⟨total, held, free, owned, tree⟩ := inv
  constructor
  · rintro ⟨e, entry, present, rfl⟩
    obtain ⟨t, reached, -⟩ := RadixShape.entryOf_some entry
    exact ⟨⟨t, reached⟩, _, tree.viewOf_leaf entry (by omega) ⟨present, .inl rfl⟩, leafFrame_last⟩
  · rintro ⟨⟨t, reached⟩, view, seen, rfl⟩
    have entry := entryOf_of_table reached
    by_cases absent : load64 σ.mem (slotAt t (walkShape.index 3 va)) &&& 1 = 0
    · rw [tree.viewOf_absent entry le_rfl absent] at seen
      cases seen
    · rw [tree.viewOf_leaf entry (by omega) ⟨absent, .inl rfl⟩] at seen
      obtain rfl := Option.some.inj seen
      exact ⟨_, entry, absent, leafFrame_last.symm⟩

theorem Mapped.stays {va : UIntPtr} {τ : PmmState} (before : PageInv root σ) (after : PageInv root τ)
    (spares : Spares root data σ τ) (same : viewOf τ.mem root va = viewOf σ.mem root va)
    (mapped : Mapped σ.mem root va f) : Mapped τ.mem root va f := by
  obtain ⟨⟨t, reached⟩, seen⟩ := (mapped_iff before).mp mapped
  rw [← same] at seen
  exact (mapped_iff after).mpr ⟨⟨t, spares.tables 3 va t le_rfl reached⟩, seen⟩

theorem Mapped.unique {mem : Memory} {a g : UIntPtr} (mapped : Mapped mem root a f) (again : Mapped mem root a g) :
    f = g := by
  obtain ⟨e, entry, -, rfl⟩ := mapped
  obtain ⟨e', entry', -, rfl⟩ := again
  rw [Option.some.inj (entry.symm.trans entry')]

theorem Mapped.page {mem : Memory} {a b : UIntPtr} (mapped : Mapped mem root a f)
    (same : pageNumber b = pageNumber a) : Mapped mem root b f := by
  obtain ⟨e, entry, present, frame⟩ := mapped
  exact ⟨e, (RadixShape.entryOf_same (same_iff_pageNumber.mpr same)).trans entry, present, frame⟩

end Frames

/-! ## The page manager -/

section Turns
variable {root va table f : UIntPtr} {σ υ : PmmState} {d total : Nat} {data tables free : List UIntPtr}

theorem DataFrames.graft {free' : List UIntPtr} {link : UIntPtr} {value : UIntPtr → UIntPtr}
    (frames : DataFrames root data σ total tables free)
    (grafted : Grafted σ.mem υ.mem root va table f link d value)
    (ended : walkShape.next (load64 σ.mem (slotAt table (walkShape.index d va))) = none)
    (owned : FrameInv total ⟨υ, f :: (tables ++ data)⟩ free') (region : SameRegion σ υ) :
    DataInv root data υ ∧ Spares root data σ υ := by
  have inner := grafted.inner
  have tree := frames.tree
  have tabled := tree.held d va table (by omega) grafted.updates.reached
  have after := tree.graft grafted
  have narrow : υ.kPmmEnd.toNat ≤ 2 ^ 52 := region.2 ▸ frames.narrow
  have spares : Spares root data σ υ := by
    refine ⟨fun g member x inside => ?_, fun k a t level reached => ?_, region,
      owned.balance.trans frames.owned.balance.symm⟩
    · refine grafted.updates.outside x (fun inSlot => ?_) ?_
      · exact frames.apart member tabled inside (RadixShape.within_table inSlot)
      · have alignedG := (frames.isFrame member).2.1
        have alignedF := (owned.isFrame_of_held List.mem_cons_self).2.1
        have fresh := (List.nodup_cons.mp (List.nodup_append.mp owned.owned).2.1).1
        exact frames_apart alignedG alignedF (fun one => fresh (one ▸ List.mem_append_right _ member)) x inside
    · rw [RadixShape.tableOf_unchanged tree.separate grafted.updates level, reached]
      rintro ⟨deeper, same⟩
      have cut : walkShape.tableOf σ.mem root (d + 1) a = none := by
        rw [RadixShape.tableOf_succ_of_entryOf, RadixShape.entryOf_same same, RadixShape.entryOf,
          grafted.updates.reached]
        exact ended
      rw [RadixShape.tableOf_none_above cut deeper] at reached
      cases reached
  refine ⟨⟨total, f :: tables, free', owned, after, fun t member => ?_, narrow⟩, spares⟩
  rcases List.mem_cons.mp member with rfl | old
  · exact ⟨d + 1, va, inner, RadixShape.tableOf_graft tree.separate grafted.updates grafted.leads .refl⟩
  · exact spares.isTable (frames.known t old)

theorem DataFrames.relabel {v : UIntPtr} (frames : DataFrames root data σ total tables free) (level : d ≤ 3)
    (reached : walkShape.tableOf σ.mem root d va = some table)
    (keeps : d < 3 → walkShape.next v = walkShape.next (load64 σ.mem (slotAt table (walkShape.index d va))))
    (after : TableInv (σ.store (slotAt table (walkShape.index d va)) v).mem root tables) :
    DataInv root data (σ.store (slotAt table (walkShape.index d va)) v) ∧
      Spares root data σ (σ.store (slotAt table (walkShape.index d va)) v) := by
  have tabled := frames.tree.held d va table level reached
  have now : load64 (σ.store (slotAt table (walkShape.index d va)) v).mem (slotAt table (walkShape.index d va)) = v :=
    load64_store64_same
  have spares : Spares root data σ (σ.store (slotAt table (walkShape.index d va)) v) := by
    refine ⟨fun g member x inside => ?_, fun k a t deep found => ?_, ⟨rfl, rfl⟩, rfl⟩
    · exact store64_outside fun inSlot => frames.apart member tabled inside (RadixShape.within_table inSlot)
    · rw [← found]
      refine RadixShape.tableOf_relabel frames.tree.separate (updates_store level reached) (fun inner => ?_) deep
      rw [← keeps inner]
      exact congrArg walkShape.next now
  refine ⟨⟨total, tables, free, ?_, after, fun t member => ?_, frames.narrow⟩, spares⟩
  · refine frames.owned.rewrite_held fun x none => store64_outside fun inSlot => ?_
    exact none table (List.mem_append_left _ tabled) (RadixShape.within_table inSlot)
  · exact spares.isTable (frames.known t member)

theorem WalkTurn.dataInv (inv : DataInv root data σ) (level : d < 3)
    (reached : walkShape.tableOf σ.mem root d va = some table) (opened : Opened σ.mem root va d)
    (turn : WalkTurn va table d σ υ) : DataInv root data υ ∧ Spares root data σ υ := by
  obtain ⟨total, tables, free, frames⟩ := inv
  have whole : TableInv σ.mem root (tables ++ data) := frames.tree.among fun t => List.mem_append_left _
  have region := pmmiAllocFrame_region σ
  cases turn with
  | new absent taken nonnull =>
      obtain ⟨fresh, same, zero, free', owned'⟩ := frames.owned.alloc_taken taken nonnull
      rw [taken] at region
      have grafted := grafted_new whole owned' fresh same level reached zero
      exact frames.graft grafted (next_of_absent absent)
        (owned_of_graft whole owned' (Nat.le_of_lt level) reached fun x off _ => store64_outside off) region
  | split present large taken nonnull hsplit =>
      obtain ⟨fresh, same, zero, free', owned'⟩ := frames.owned.alloc_taken taken nonnull
      rw [taken] at region
      rw [same.load64_eq (slot_apart_fresh whole owned' fresh (Nat.le_of_lt level) reached)] at hsplit
      have grafted := grafted_split whole owned' fresh same level reached opened rfl ⟨present, .inr large⟩ hsplit
      exact frames.graft grafted (next_of_large large) (owned_split whole owned' level reached hsplit) region
  | widen present branch =>
      obtain ⟨after, -, keeps⟩ := frames.tree.widen level reached rfl present branch rfl
      exact frames.relabel (Nat.le_of_lt level) reached (fun _ => keeps) after

/-- A walk keeps the data frames, and reaches the slot of a page that has a last table. -/
theorem walkFrom_dataInv {alloc : Bool} (n : Nat) (bound : n ≤ 3) (inv : DataInv root data σ)
    (reached : walkShape.tableOf σ.mem root (3 - n) va = some table) (opened : Opened σ.mem root va (3 - n)) :
    DataInv root data (walkFrom va alloc n table σ).2 ∧
      Spares root data σ (walkFrom va alloc n table σ).2 ∧
      (∀ t, walkShape.tableOf σ.mem root 3 va = some t → (walkFrom va alloc n table σ).1 ≠ 0) ∧
      σ.kPmmFree.toNat ≤ (walkFrom va alloc n table σ).2.kPmmFree.toNat + n := by
  induction n generalizing σ table with
  | zero =>
      obtain ⟨total, held, free, owned, tree⟩ := inv.pageInv
      have nonzero : slotAt table (walkShape.index 3 va) ≠ 0 := slot_nonzero tree owned le_rfl reached
      exact ⟨inv, .refl, fun _ _ => nonzero, le_rfl⟩
  | succ n ih =>
      obtain ⟨d, hd⟩ : ∃ d, 3 - (n + 1) = d := ⟨_, rfl⟩
      have level : d < 3 := by omega
      have deeper : 3 - n = d + 1 := by omega
      rw [hd] at reached opened
      rw [deeper] at ih
      have cut (ended : walkShape.next (load64 σ.mem (slotAt table (walkShape.index d va))) = none) :
          walkShape.tableOf σ.mem root 3 va = none := by
        have here : walkShape.tableOf σ.mem root (d + 1) va = none := by
          rw [RadixShape.tableOf_succ_of_entryOf, RadixShape.entryOf, reached]
          exact ended
        exact RadixShape.tableOf_none_above here (by omega)
      rcases @walkFrom_turn va table σ d alloc n (by omega) with
        ⟨ends, -, ended⟩ | ⟨τ, taken, ends, ended⟩ | ⟨υ, turn, goes⟩
      · rw [ends]
        exact ⟨inv, .refl, fun t found => absurd ((cut ended).symm.trans found) (by simp), Nat.le_add_right _ _⟩
      · obtain ⟨total, held, free, owned, tree⟩ := inv.pageInv
        obtain rfl := owned.alloc_null taken
        rw [ends]
        exact ⟨inv, .refl, fun t found => absurd ((cut ended).symm.trans found) (by simp), Nat.le_add_right _ _⟩
      · obtain ⟨inv', spares⟩ := turn.dataInv inv level reached opened
        obtain ⟨total, held, free, owned, tree⟩ := inv.pageInv
        obtain ⟨step, cost⟩ := turn.stepped tree owned level reached opened
        obtain ⟨inv'', spares', reaches, cost'⟩ := ih (by omega) inv' step.reached step.opened
        rw [goes]
        exact ⟨inv'', spares.trans spares', fun t found => reaches t (spares.tables 3 va t le_rfl found), by omega⟩

end Turns

section Operations
variable {root va pa : UIntPtr} {σ : PmmState} {data : List UIntPtr} {flags : BitVec 32}

theorem mmWalkPage_dataInv (inv : DataInv root data σ) (va : UIntPtr) (alloc : Bool) :
    DataInv root data (mmWalkPage root va alloc σ).2 ∧
      Spares root data σ (mmWalkPage root va alloc σ).2 ∧
      (∀ t, walkShape.tableOf σ.mem root 3 va = some t → (mmWalkPage root va alloc σ).1 ≠ 0) ∧
      σ.kPmmFree.toNat ≤ (mmWalkPage root va alloc σ).2.kPmmFree.toNat + 3 := by
  obtain ⟨nonnull, base⟩ := inv.pageInv.root_facts
  unfold mmWalkPage
  rw [if_neg nonnull, base]
  exact walkFrom_dataInv 3 le_rfl inv rfl fun k _ none => absurd none (Nat.not_lt_zero k)

theorem DataInv.assign {table v : UIntPtr} (inv : DataInv root data σ)
    (reached : walkShape.tableOf σ.mem root 3 va = some table) (opened : Opened σ.mem root va 3) :
    DataInv root data (σ.store (slotAt table (walkShape.index 3 va)) v) ∧
      Spares root data σ (σ.store (slotAt table (walkShape.index 3 va)) v) := by
  obtain ⟨total, tables, free, frames⟩ := inv
  obtain ⟨after, -⟩ := frames.tree.assign (v := v) reached (fun k e below => opened k e below) rfl
  exact frames.relabel le_rfl reached (fun inner => absurd inner (by decide)) after

theorem mmMapPageIn_dataInv (inv : DataInv root data σ) (va pa : UIntPtr) (flags : BitVec 32) :
    DataInv root data (mmMapPageIn root va pa flags σ).2 ∧
      Spares root data σ (mmMapPageIn root va pa flags σ).2 ∧
      ((mmMapPageIn root va pa flags σ).1 = kErrorSuccess →
        ∃ t, walkShape.tableOf (mmMapPageIn root va pa flags σ).2.mem root 3 va = some t) ∧
      σ.kPmmFree.toNat ≤ (mmMapPageIn root va pa flags σ).2.kPmmFree.toNat + 3 := by
  have failed : kErrorInvalidData ≠ kErrorSuccess := by decide
  unfold mmMapPageIn
  split
  · exact ⟨inv, .refl, fun success => absurd success failed, Nat.le_add_right _ _⟩
  split
  · exact ⟨inv, .refl, fun success => absurd success failed, Nat.le_add_right _ _⟩
  have walked := mmWalkPage_walked inv.pageInv va true
  obtain ⟨after, same, -, cost⟩ := mmWalkPage_dataInv inv va true
  cases walk : mmWalkPage root va true σ with
  | mk slot τ =>
      rw [walk] at walked after same cost
      dsimp only at *
      by_cases none : slot = 0
      · rw [if_pos none]
        exact ⟨after, same, fun success => absurd success failed, cost⟩
      · obtain ⟨table, reached, rfl, opened⟩ := walked.slot.resolve_left none
        obtain ⟨assigned, same'⟩ := after.assign (v := PTE.make pa flags) reached opened
        rw [if_neg none]
        exact ⟨assigned, same.trans same', fun _ => ⟨table, same'.tables 3 va table le_rfl reached⟩, cost⟩

theorem mmUnmapPage_dataInv (inv : DataInv root data σ) {t : UIntPtr} {view : PageView}
    (deep : walkShape.tableOf σ.mem root 3 va = some t) (seen : viewOf σ.mem root va = some view) :
    DataInv root data (mmUnmapPage root va σ).2 ∧ Spares root data σ (mmUnmapPage root va σ).2 ∧
      (mmUnmapPage root va σ).1 = view.frame ∧
      ∀ a, pageNumber a = pageNumber va → viewOf (mmUnmapPage root va σ).2.mem root a = none := by
  have spec := (mmUnmapPage_spec inv.pageInv va).2.2
  have walked := mmWalkPage_walked inv.pageInv va false
  obtain ⟨after, same, reaches, -⟩ := mmWalkPage_dataInv inv va false
  unfold mmUnmapPage at spec ⊢
  cases walk : mmWalkPage root va false σ with
  | mk slot τ =>
      rw [walk] at walked after same reaches spec
      dsimp only at *
      obtain ⟨table, reached, rfl, opened⟩ := walked.slot.resolve_left (reaches t deep)
      have shown : viewOf τ.mem root va = some view := (walked.views va).trans seen
      have present : load64 τ.mem (slotAt table (walkShape.index 3 va)) &&& 1 ≠ 0 := by
        intro absent
        obtain ⟨total, held, free, owned, tree⟩ := after.pageInv
        rw [tree.viewOf_absent (entryOf_of_table reached) le_rfl absent] at shown
        cases shown
      have some : ¬ (slotAt table (walkShape.index 3 va) = 0 ∨
          load64 τ.mem (slotAt table (walkShape.index 3 va)) &&& 1 = 0) :=
        not_or.mpr ⟨reaches t deep, present⟩
      obtain ⟨assigned, same'⟩ := after.assign (v := 0) reached opened
      rw [if_neg some] at spec ⊢
      obtain ⟨-, -, here⟩ := walked.inv.assign reached opened 0
      have gone : ∀ a, pageNumber a = pageNumber va →
          viewOf (τ.store (slotAt table (walkShape.index 3 va)) 0).mem root a = none := by
        intro a page
        rw [here a page, if_neg (by simp)]
      have outcome := spec.resolve_left fun kept => by
        have still := (kept.2 va).trans seen
        rw [gone va rfl] at still
        cases still
      obtain ⟨-, view', seen', frame⟩ := outcome va rfl
      obtain rfl := Option.some.inj (seen.symm.trans seen')
      exact ⟨assigned, same.trans same', frame.symm, gone⟩

end Operations

end Ne.Kernel.HAL
