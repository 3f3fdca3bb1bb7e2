import NeKernel.Hal.WalkCosts
import NeKernel.Ldr.ImageWindow
import NeKernel.Ldr.SectionLoads
import Mathlib.Data.Set.Card

/-!
# Loads that fail

A loader that gives up unmaps the pages it had mapped. What these pages showed before is not put back.
-/

namespace Ne.Kernel.Ldr
open ByteMem Access HAL Runs

/-- When the turn of the `i`th page comes, there is a table at depth `d`. -/
def Paved (mem : Memory) (root base : UIntPtr) (i d : Nat) : Prop :=
  HasTable mem root (pageAt base i) d ∨ ∃ j, j < i ∧ walkShape.Same d (pageAt base i) (pageAt base j)

instance (mem : Memory) (root base : UIntPtr) (i : Nat) : DecidablePred (Paved mem root base i) :=
  fun d => inferInstanceAs (Decidable (_ ∨ ∃ j, j < i ∧ ∀ k, k < d → _ = _))

/-- The frames that the first `n` pages take, those for their tables included. -/
def framesFor (mem : Memory) (root base : UIntPtr) : Nat → Nat
  | 0 => 0
  | i + 1 => framesFor mem root base i + (1 + lacking (Paved mem root base i) 3)

/-- The pages that the free frames suffice for showed nothing, among the first `n`. -/
def Vacant (root base : UIntPtr) (σ : PmmState) (n : Nat) : Prop :=
  ∀ i < n, framesFor σ.mem root base (i + 1) ≤ σ.kPmmFree.toNat → viewOf σ.mem root (pageAt base i) = none

noncomputable def tableCount (mem : Memory) (root : UIntPtr) : Nat := {t | IsTable mem root t}.ncard

/-- Every address shows what it did, and the frames are as free as they were, but for new tables. -/
structure RolledBack (root : UIntPtr) (σ τ : PmmState) : Prop where
  views : ∀ a, viewOf τ.mem root a = viewOf σ.mem root a
  free : τ.kPmmFree.toNat + tableCount τ.mem root = σ.kPmmFree.toNat + tableCount σ.mem root

section Counts
variable {mem : Memory} {root base a b : UIntPtr} {data data' : List UIntPtr} {σ τ : PmmState} {d k n : Nat}

theorem framesFor_mono (le : k ≤ n) : framesFor mem root base k ≤ framesFor mem root base n := by
  induction le with
  | refl => exact le_rfl
  | step _ ih => exact ih.trans (Nat.le_add_right _ _)

theorem vacant_iff (suffice : framesFor σ.mem root base k ≤ σ.kPmmFree.toNat)
    (ends : k = n ∨ k < n ∧ σ.kPmmFree.toNat < framesFor σ.mem root base (k + 1)) :
    Vacant root base σ n ↔ ∀ i < k, viewOf σ.mem root (pageAt base i) = none := by
  constructor
  · intro vacant i below
    exact vacant i (by omega) ((framesFor_mono below).trans suffice)
  · intro none i below enough
    refine none i ?_
    rcases ends with rfl | ⟨-, scarce⟩
    · exact below
    · by_contra beyond
      have more : framesFor σ.mem root base (k + 1) ≤ framesFor σ.mem root base (i + 1) := framesFor_mono (by omega)
      omega

theorem DataFrames.tableCount {total : Nat} {tables free : List UIntPtr}
    (frames : DataFrames root data σ total tables free) :
    tableCount σ.mem root = tables.length ∧ σ.kPmmUsed.toNat = tables.length + data.length := by
  have distinct : tables.Nodup := (List.nodup_append.mp (List.nodup_append.mp frames.owned.owned).2.1).1
  have used : σ.kPmmUsed.toNat = (tables ++ data).length := frames.owned.used
  have same : {t | IsTable σ.mem root t} = ↑tables.toFinset := by
    ext t
    rw [List.coe_toFinset]
    exact ⟨fun table => frames.tree.mem_of_isTable table, frames.known t⟩
  rw [List.length_append] at used
  refine ⟨?_, used⟩
  unfold Ldr.tableCount
  rw [same, Set.ncard_coe_finset, List.toFinset_card_of_nodup distinct]

theorem free_tables_same (before : DataInv root data σ) (after : DataInv root data τ) (spares : Spares root [] σ τ) :
    τ.kPmmFree.toNat + tableCount τ.mem root = σ.kPmmFree.toNat + tableCount σ.mem root := by
  obtain ⟨total, tables, free, frames⟩ := before
  obtain ⟨total', tables', free', frames'⟩ := after
  obtain ⟨count, used⟩ := DataFrames.tableCount frames
  obtain ⟨count', used'⟩ := DataFrames.tableCount frames'
  have kept := spares.count
  omega

theorem leafBelow_same (same : walkShape.Same (n + 1) a b) : leafBelow mem root a n = leafBelow mem root b n := by
  induction n with
  | zero => rfl
  | succ n ih => rw [leafBelow, leafBelow, RadixShape.entryOf_same same, ih (same.mono (by omega))]

theorem viewOf_none_page (page : pageNumber a = pageNumber b) :
    viewOf mem root a = none ↔ viewOf mem root b = none := by
  unfold viewOf
  rw [Option.map_eq_none_iff, Option.map_eq_none_iff, leafBelow_same (same_iff_pageNumber.mpr page)]

end Counts

section Undoing
variable {root base : UIntPtr} {data frames : List UIntPtr} {σ υ : PmmState}

/-- Unmapping restores what there was exactly when there was nothing. -/
theorem unmapped_rolledBack_iff (few : frames.length ≤ 2 ^ 36) (before : DataInv root data σ)
    (inv : DataInv root (frames ++ data) υ) (spares : Spares root [] σ υ)
    (beside : SameBeside root base frames.length σ.mem υ.mem) (backs : Backs υ.mem root base frames) :
    RolledBack root σ (ldrUnmapPages root base frames.length υ) ↔
      ∀ i < frames.length, viewOf σ.mem root (pageAt base i) = none := by
  obtain ⟨inv', spares', beside', gone⟩ := ldrUnmapPages_spec few inv backs
  constructor
  · intro rolled i below
    rw [← rolled.views, gone i below]
  · intro vacant
    refine ⟨fun a => ?_, free_tables_same before inv' (spares.trans (spares'.among (by simp)))⟩
    by_cases page : ∃ i < frames.length, pageNumber a = pageNumber (pageAt base i)
    · obtain ⟨i, below, same⟩ := page
      rw [(viewOf_none_page same).mpr (gone i below), (viewOf_none_page same).mpr (vacant i below)]
    · exact beside.trans beside' a fun i below same => page ⟨i, below, same⟩

end Undoing

/-- What the first `n` pages have cost since `start`, and the tables they left. -/
structure Spent (root base : UIntPtr) (n : Nat) (start σ : PmmState) : Prop where
  count : σ.kPmmFree.toNat + framesFor start.mem root base n = start.kPmmFree.toNat
  tables : ∀ k a, k ≤ 3 → (HasTable σ.mem root a k ↔
    HasTable start.mem root a k ∨ ∃ j, j < n ∧ walkShape.Same k a (pageAt base j))

section Backing
variable {root base : UIntPtr} {data frames : List UIntPtr} {start σ : PmmState} {i n left : Nat}

theorem backPage_cost (inv : DataInv root data σ) (base : UIntPtr) (i : Nat) :
    (1 + lacking (HasTable σ.mem root (pageAt base i)) 3 ≤ σ.kPmmFree.toNat → (backPage root base i σ).1 = true) ∧
    ((backPage root base i σ).1 = true → (backPage root base i σ).2.kPmmFree.toNat +
        (1 + lacking (HasTable σ.mem root (pageAt base i)) 3) = σ.kPmmFree.toNat ∧
      PathAdded σ.mem (backPage root base i σ).2.mem root (pageAt base i)) := by
  unfold backPage
  rcases inv.alloc with none | ⟨f, τ, taken, nonnull, -, inv', -⟩
  · rw [none]
    refine ⟨fun room => ?_, fun backed => absurd backed (by simp)⟩
    exact absurd rfl (inv.alloc_cost none (by omega)).1
  have count := inv.alloc_count taken nonnull
  have same : lacking (HasTable τ.mem root (pageAt base i)) 3 = lacking (HasTable σ.mem root (pageAt base i)) 3 :=
    lacking_congr le_rfl fun d _ deep => pmmiAllocFrame_tables inv taken deep
  obtain ⟨through, ends⟩ := mmMapPageIn_cost inv' (pageAt base i) kMMFlagsImage nonnull
    (inv'.aligned List.mem_cons_self)
  rw [same] at through ends
  rw [taken]
  dsimp only
  rw [if_neg nonnull]
  cases mapped : mmMapPageIn root (pageAt base i) f kMMFlagsImage τ with
  | mk status υ =>
      rw [mapped] at through ends
      dsimp only at *
      by_cases done : status = kErrorSuccess
      · obtain ⟨spent, added⟩ := ends done
        rw [if_neg (not_not.mpr done)]
        refine ⟨fun _ => rfl, fun _ => ⟨by dsimp only; omega, fun k a deep => ?_⟩⟩
        rw [added k a deep, pmmiAllocFrame_tables inv taken deep]
      · rw [if_pos done]
        exact ⟨fun room => absurd (through (by omega)) done, nofun⟩

theorem Spent.empty (root base : UIntPtr) (σ : PmmState) : Spent root base 0 σ σ :=
  ⟨rfl, fun k a deep => by simp⟩

theorem Spent.lacking (spent : Spent root base n start σ) :
    lacking (HasTable σ.mem root (pageAt base n)) 3 = lacking (Paved start.mem root base n) 3 :=
  lacking_congr le_rfl fun d _ deep => spent.tables d (pageAt base n) deep

theorem Spent.next {τ : PmmState} (spent : Spent root base n start σ)
    (count : τ.kPmmFree.toNat + (1 + HAL.lacking (Paved start.mem root base n) 3) = σ.kPmmFree.toNat)
    (added : PathAdded σ.mem τ.mem root (pageAt base n)) : Spent root base (n + 1) start τ := by
  have before := spent.count
  refine ⟨by rw [framesFor]; omega, fun k a deep => ?_⟩
  rw [added k a deep, spent.tables k a deep, or_assoc]
  refine or_congr_right ?_
  constructor
  · rintro (⟨j, earlier, same⟩ | same)
    · exact ⟨j, by omega, same⟩
    · exact ⟨n, by omega, same⟩
  · rintro ⟨j, below, same⟩
    rcases Nat.lt_succ_iff_lt_or_eq.mp below with earlier | rfl
    · exact .inl ⟨j, earlier, same⟩
    · exact .inr same

/-- The loops back as many pages as the free frames suffice for, and undo all of them when more were asked for. -/
theorem backFrom_exact (few : frames.length + left ≤ 2 ^ 36)
    (backed : Backed root base data frames start σ) (spent : Spent root base frames.length start σ) :
    (∃ frames' υ, frames'.length < frames.length + left ∧ Backed root base data frames' start υ ∧
      backFrom root base left frames.length σ = (false, ldrUnmapPages root base frames'.length υ) ∧
      framesFor start.mem root base frames'.length ≤ start.kPmmFree.toNat ∧
      start.kPmmFree.toNat < framesFor start.mem root base (frames'.length + 1)) ∨
    ∃ frames' υ, frames'.length = frames.length + left ∧ Backed root base data frames' start υ ∧
      backFrom root base left frames.length σ = (true, υ) ∧
      framesFor start.mem root base frames'.length ≤ start.kPmmFree.toNat := by
  have count := spent.count
  induction left generalizing frames σ with
  | zero => exact .inr ⟨frames, σ, rfl, backed, rfl, by omega⟩
  | succ left ih =>
      obtain ⟨through, ends⟩ := backPage_cost backed.inv base frames.length
      rw [spent.lacking] at through ends
      rw [backFrom]
      rcases backPage_cases backed.inv base frames.length with
        ⟨τ, failed, inv', spares, views, -⟩ | ⟨f, τ, taken, inv', spares, mapped, beside, zero, -⟩
      · rw [failed] at through
        have scarce : start.kPmmFree.toNat < framesFor start.mem root base (frames.length + 1) := by
          rw [framesFor]
          by_contra room
          exact absurd (through (by omega)) Bool.false_ne_true
        rw [failed]
        exact .inl ⟨frames, τ, by omega, backed.stays inv' spares views, if_pos rfl, by omega, scarce⟩
      · rw [taken] at ends
        obtain ⟨cost, added⟩ := ends rfl
        have next := backed.next (by omega) inv' spares mapped beside zero
        have spent' := spent.next cost added
        have rest := ih (by rw [List.length_cons]; omega) next spent' spent'.count
        rw [List.length_cons, Nat.add_assoc, Nat.add_comm 1] at rest
        rw [taken]
        dsimp only
        rwa [if_neg (by decide)]

theorem backFrom_failed (few : n ≤ 2 ^ 36) (inv : DataInv root data σ) (failed : (backFrom root base n 0 σ).1 = false) :
    RolledBack root σ (backFrom root base n 0 σ).2 ↔ Vacant root base σ n := by
  rcases @backFrom_exact root base data [] σ σ n (by simpa using few) (.empty inv base) (.empty root base σ) with
    ⟨frames, υ, some, backed, ends, suffice, scarce⟩ | ⟨frames, υ, -, -, ends, -⟩
  · rw [List.length_nil, Nat.zero_add] at some
    rw [List.length_nil] at ends
    rw [ends, vacant_iff suffice (.inr ⟨some, scarce⟩)]
    exact unmapped_rolledBack_iff (by omega) inv backed.inv (backed.spares.among (by simp)) backed.beside backed.backs
  · rw [List.length_nil] at ends
    rw [ends] at failed
    cases failed

theorem backFrom_backed (few : n ≤ 2 ^ 36) (inv : DataInv root data σ) (done : (backFrom root base n 0 σ).1 = true) :
    ∃ frames, frames.length = n ∧ Backed root base data frames σ (backFrom root base n 0 σ).2 ∧
      framesFor σ.mem root base n ≤ σ.kPmmFree.toNat := by
  rcases @backFrom_exact root base data [] σ σ n (by simpa using few) (.empty inv base) (.empty root base σ) with
    ⟨frames, υ, -, -, ends, -⟩ | ⟨frames, υ, length, backed, ends, suffice⟩
  · rw [List.length_nil] at ends
    rw [ends] at done
    cases done
  · rw [List.length_nil, Nat.zero_add] at length
    rw [List.length_nil] at ends
    rw [ends]
    exact ⟨frames, length, backed, length ▸ suffice⟩

end Backing

section Loads
variable {root base blob : UIntPtr} {m : Memory} {len : SizeT} {data : List UIntPtr} {σ τ : PmmState} {code : Int}

theorem RolledBack.refl (root : UIntPtr) (σ : PmmState) : RolledBack root σ σ := ⟨fun _ => rfl, rfl⟩

namespace PE32Loader

/-- The constructor accepts the blob, and `LoadImage` comes to map the pages of the image. -/
def Maps (m : Memory) (blob : UIntPtr) (len : SizeT) : Prop :=
  (make m blob len).val.fBad = false ∧ TableIn m blob len

theorem mapImage_rolledBack_iff (good : Accepted m blob len) (table : TableIn m blob len) (inv : DataInv root data σ)
    (tail : TailHarmless m blob root σ) (failed : (mapImage root m blob len σ).val.1 = .error code) :
    RolledBack root σ (mapImage root m blob len σ).val.2 ↔
      Vacant root (imageBase m blob) σ (imagePages m blob) := by
  have few := imagePages_le good
  rcases mapImage_val good root σ with ⟨none, -⟩ | ⟨-, maps⟩
  · exact absurd table none
  rw [maps] at failed ⊢
  by_cases scarce : (backFrom root (imageBase m blob) (imagePages m blob) 0 σ).1 = false
  · rw [if_pos scarce]
    exact backFrom_failed few inv scarce
  rw [if_neg scarce] at failed ⊢
  obtain ⟨frames, length, backed, suffice⟩ := backFrom_backed few inv (eq_true_of_ne_false scarce)
  generalize (backFrom root (imageBase m blob) (imagePages m blob) 0 σ).2 = τ at failed backed ⊢
  obtain ⟨υ, written, ⟨never, -⟩ | undone⟩ := @sections_written root blob
    (blob + BitVec.ofNat 64 152 + optionalSize m blob) m len data σ (sectionCount m blob) frames τ inv tail length
    backed
  · exact absurd failed (never code)
  · rw [undone, vacant_iff suffice (.inl rfl), ← length]
    refine unmapped_rolledBack_iff (by omega) inv written.inv ?_ ?_ (backed.backs.written backed.inv.pageInv written)
    · exact (backed.spares.among (by simp)).trans written.tables
    · exact backed.beside.trans fun a _ => written.views a

theorem loadImage_rolledBack_iff (inv : DataInv root data σ) (tail : Maps m blob len → TailHarmless m blob root σ)
    (failed : (loadImage root m (make m blob len).val σ).val.1 = .error code) :
    RolledBack root σ (loadImage root m (make m blob len).val σ).val.2.2 ↔
      (Maps m blob len → Vacant root (imageBase m blob) σ (imagePages m blob)) := by
  by_cases accepted : (make m blob len).val.fBad = false
  · obtain ⟨ending, state⟩ := loadImage_outcome accepted root σ
    have good := accepted_of_make accepted
    rw [ending] at failed
    rw [state]
    by_cases table : TableIn m blob len
    · rw [mapImage_rolledBack_iff good table inv (tail ⟨accepted, table⟩) failed]
      exact ⟨fun vacant _ => vacant, fun vacant => vacant ⟨accepted, table⟩⟩
    · rcases mapImage_val good root σ with ⟨-, same⟩ | ⟨some, -⟩
      · rw [same]
        exact iff_of_true (.refl root σ) fun maps => absurd maps.2 table
      · exact absurd some table
  · have fresh : (make m blob len).val.fImage = 0 := by
      simp only [make, Traced.val_bind, Traced.val_pure]
    have same : (loadImage root m (make m blob len).val σ).val.2.2 = σ := by
      unfold loadImage
      rw [fresh, if_neg (not_not.mpr rfl), if_pos (.inl (eq_true_of_ne_false accepted)), Traced.val_pure]
    rw [same]
    exact iff_of_true (.refl root σ) fun maps => absurd maps.1 accepted

end PE32Loader

section Symbols
variable {src : UIntPtr} {hdr : Image} {tableEnd size : Nat} {ldr : PEFLoader} {name : Option (List Byte)}
  {kind : BitVec 32}

/-- Once the pages are there, `pef_load_section` does not fail any more. -/
theorem pefLoadSection_error (source : src ≠ 0) (failed : (pefLoadSection root m hdr src σ).val.1 = .error code) :
    (backFrom root (vmAddress hdr) (vmPages hdr) 0 σ).1 = false ∧
      (pefLoadSection root m hdr src σ).val.2 = (backFrom root (vmAddress hdr) (vmPages hdr) 0 σ).2 := by
  unfold pefLoadSection at failed ⊢
  rw [if_neg source] at failed ⊢
  cases loop : backFrom root (vmAddress hdr) (vmPages hdr) 0 σ with
  | mk backed τ =>
      have begun : backFrom root (PEFCommandHeader.VMAddress.get hdr)
          (pageCount (PEFCommandHeader.VMSize.get hdr).toNat) 0 σ = (backed, τ) := loop
      simp only [begun] at failed ⊢
      cases backed with
      | false => exact ⟨rfl, by rw [if_pos rfl, Traced.val_pure]⟩
      | true =>
          rw [if_neg Bool.true_eq_false_eq_False] at failed
          split at failed
          · rw [Traced.val_bind, Traced.val_pure] at failed
            dsimp only at failed
            split at failed <;> cases failed
          · cases failed

theorem pefLoadSection_rolledBack_iff (bounds : SectionBounds size tableEnd hdr) (inv : DataInv root data σ)
    (failed : (pefLoadSection root m hdr src σ).val.1 = .error code) :
    RolledBack root σ (pefLoadSection root m hdr src σ).val.2 ↔
      (src ≠ 0 → Vacant root (vmAddress hdr) σ (vmPages hdr)) := by
  by_cases null : src = 0
  · have same : (pefLoadSection root m hdr src σ).val.2 = σ := by
      unfold pefLoadSection
      rw [if_pos null, Traced.val_pure]
    rw [same]
    exact iff_of_true (.refl root σ) fun some => absurd null some
  · obtain ⟨scarce, state⟩ := pefLoadSection_error null failed
    rw [state, backFrom_failed bounds.pages inv scarce]
    exact ⟨fun vacant _ => vacant, fun vacant => vacant null⟩

theorem findSymbol_rolledBack_iff (inv : DataInv root data σ)
    (failed : (ldr.findSymbol root m name kind σ).val.1 = .error code) :
    RolledBack root σ (ldr.findSymbol root m name kind σ).val.2 ↔
      ∀ hdr, ldr.foundHeader m name kind = some hdr → ldr.contentAt hdr ≠ 0 →
        Vacant root (vmAddress hdr) σ (vmPages hdr) := by
  rw [PEFLoader.findSymbol_val] at failed ⊢
  cases found : ldr.foundHeader m name kind with
  | none => exact iff_of_true (.refl root σ) nofun
  | some hdr =>
      obtain ⟨-, tableEnd, bounds⟩ := PEFLoader.foundHeader_some found
      rw [found] at failed
      dsimp only at failed ⊢
      rw [pefLoadSection_rolledBack_iff bounds inv failed]
      constructor
      · rintro vacant _ ⟨⟩ source
        exact vacant source
      · exact fun vacant source => vacant hdr rfl source

end Symbols

end Loads

section Booted
variable (mem : Memory) (base : UIntPtr) (sz : SizeT) (frameCalls : List FrameCall) (r : FrameRun)
  (frames : Run (Guarded FreesHeld FrameStep) (bootFrames mem base sz) frameCalls r)
  (fuel : Nat) (limit root : UIntPtr) (σ₀ : PmmState)
  (built : mmInitKernelTables fuel limit r.state = some (root, σ₀)) (nonnull : root ≠ 0)
  (calls : List SharedCall) (σ : PmmState) (run : Run (SharedStep root) σ₀ calls σ)
include frames built nonnull run

end Booted

/-- The image of one page, with a section that is longer than it. -/
def refusedBlob : Memory := write PE32Loader.imageBlob (PE32Loader.imageAt + 264) [0, 0x20]

theorem refusedBlob_maps : PE32Loader.Maps refusedBlob PE32Loader.imageAt 288 :=
  ⟨by decide +kernel, by decide +kernel, by decide +kernel⟩

theorem refusedBlob_fails {root : UIntPtr} {data : List UIntPtr} {σ : PmmState} (inv : DataInv root data σ)
    (room : 4 ≤ σ.kPmmFree.toNat) : (PE32Loader.loadImage root refusedBlob
      (PE32Loader.make refusedBlob PE32Loader.imageAt 288).val σ).val.1 = .error kErrorInvalidData := by
  obtain ⟨accepted, table⟩ := refusedBlob_maps
  have pages : PE32Loader.imagePages refusedBlob PE32Loader.imageAt = 1 := by decide +kernel
  have sections : PE32Loader.sectionCount refusedBlob PE32Loader.imageAt = 1 := by decide +kernel
  rw [(PE32Loader.loadImage_outcome accepted root σ).1]
  rcases PE32Loader.mapImage_val (PE32Loader.accepted_of_make accepted) root σ with ⟨none, -⟩ | ⟨-, maps⟩
  · exact absurd table none
  rcases backFrom_spec (by decide : 1 ≤ 2 ^ 36) inv (PE32Loader.imageBase refusedBlob PE32Loader.imageAt) with
    ⟨k, τ, -, -, -, scarce⟩ | ⟨frames, τ, done, -, -, -⟩
  · omega
  · have some : LdrSectionHeader.SizeOfRawData.on refusedBlob (PE32Loader.imageAt + BitVec.ofNat 64 152 +
        PE32Loader.optionalSize refusedBlob PE32Loader.imageAt) ≠ 0 := by decide +kernel
    have refused : (PE32Loader.checkSection 288
        (LdrOptionalHeader.SizeOfImage.on refusedBlob (PE32Loader.imageAt + BitVec.ofNat 64 152))
        (LdrSectionHeader.VirtualAddress.on refusedBlob (PE32Loader.imageAt + BitVec.ofNat 64 152 +
          PE32Loader.optionalSize refusedBlob PE32Loader.imageAt))
        (LdrSectionHeader.SizeOfRawData.on refusedBlob (PE32Loader.imageAt + BitVec.ofNat 64 152 +
          PE32Loader.optionalSize refusedBlob PE32Loader.imageAt))
        (LdrSectionHeader.PointerToRawData.on refusedBlob (PE32Loader.imageAt + BitVec.ofNat 64 152 +
          PE32Loader.optionalSize refusedBlob PE32Loader.imageAt))).val = false := by decide +kernel
    rw [maps, pages, done, if_neg (by simp), sections, PE32Loader.copySections]
    simp only [Traced.val_bind, Field.fetch_val, if_neg some, refused, if_true, Traced.val_pure]

/-- The state in which a device has been mapped where the image goes. -/
def deviceMapped : PmmState := (mmMapPageIn 0x1000 0x40000000 0x100000 kMMFlagsImage emptyTables).2

end Ne.Kernel.Ldr
