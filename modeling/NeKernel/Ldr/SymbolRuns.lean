import NeKernel.Ldr.SectionLoads

/-!
# Frames over a sequence of lookups

A section that is loaded over one that is there takes the pages from its frames, and nobody gives those back.
-/

namespace Ne.Kernel.Ldr
open ByteMem Access HAL Runs

structure FindCall where
  name : Option (List Byte)
  kind : BitVec 32

def FindStep (root : UIntPtr) (m : Memory) (ldr : PEFLoader) (call : FindCall) (σ σ' : PmmState) : Prop :=
  σ' = (ldr.findSymbol root m call.name call.kind σ).val.2

/-- The frame was handed out in the beginning, is a table, or is mapped at one of the addresses. -/
def Accounted (root : UIntPtr) (σ₀ σ : PmmState) (addresses : UIntPtr → Prop) (f : UIntPtr) : Prop :=
  HandedOut σ₀ f ∨ IsTable σ.mem root f ∨ ∃ a, addresses a ∧ Mapped σ.mem root a f

/-- No frame that was taken since `σ₀` is lost. -/
def Conserves (root : UIntPtr) (σ₀ σ : PmmState) : Prop := ∀ f, HandedOut σ f → Accounted root σ₀ σ (fun _ => True) f

/-- The pages that a lookup may take have nothing that is lost with them, one page for each frame that is free, and
what it copies lands well. -/
def Clear (root : UIntPtr) (m : Memory) (ldr : PEFLoader) (σ₀ : PmmState) (call : FindCall) (σ : PmmState) : Prop :=
  ∀ hdr, ldr.foundHeader m call.name call.kind = some hdr → ldr.contentAt hdr ≠ 0 →
    (∀ j < vmPages hdr, j < σ.kPmmFree.toNat → ∀ f, HandedOut σ f →
      Mapped σ.mem root (pageAt (vmAddress hdr) j) f → Accounted root σ₀ σ (OffSection hdr) f) ∧
    SpillsHarmless hdr root σ (contentSize hdr)

section Steps
variable {root : UIntPtr} {m : Memory} {ldr : PEFLoader} {hdr : Image} {data data' : List UIntPtr} {σ₀ σ τ : PmmState}
  {call : FindCall} {k : Nat}

/-- What stays accounted for when at most the first `k` pages of a section are taken. -/
theorem Accounted.stays (before : PageInv root σ) (after : PageInv root τ) (spares : Spares root [] σ τ)
    (beside : SameBeside root (vmAddress hdr) k σ.mem τ.mem) (le : k ≤ vmPages hdr) (afforded : k ≤ σ.kPmmFree.toNat)
    (clear : ∀ j < vmPages hdr, j < σ.kPmmFree.toNat → ∀ f, HandedOut σ f →
      Mapped σ.mem root (pageAt (vmAddress hdr) j) f → Accounted root σ₀ σ (OffSection hdr) f)
    {f : UIntPtr} (handed : HandedOut σ f) (accounted : Accounted root σ₀ σ (fun _ => True) f) :
    Accounted root σ₀ τ (fun _ => True) f := by
  have off {a : UIntPtr} (away : ∀ j < k, pageNumber a ≠ pageNumber (pageAt (vmAddress hdr) j))
      (mapped : Mapped σ.mem root a f) : Accounted root σ₀ τ (fun _ => True) f :=
    .inr (.inr ⟨a, trivial, mapped.stays before after spares (beside a away)⟩)
  rcases accounted with old | table | ⟨a, -, mapped⟩
  · exact .inl old
  · exact .inr (.inl (spares.isTable table))
  by_cases taken : ∃ j < k, pageNumber a = pageNumber (pageAt (vmAddress hdr) j)
  · obtain ⟨j, below, same⟩ := taken
    rcases clear j (by omega) (by omega) f handed (mapped.page same.symm) with old | table | ⟨b, away, elsewhere⟩
    · exact .inl old
    · exact .inr (.inl (spares.isTable table))
    · exact off (fun i inner => away i (by omega)) elsewhere
  · exact off (fun j below same => taken ⟨j, below, same⟩) mapped

theorem findStep_conserves (inv : DataInv root data σ) (conserves : Conserves root σ₀ σ)
    (clear : Clear root m ldr σ₀ call σ) (step : FindStep root m ldr call σ τ) :
    (∃ data', DataInv root data' τ) ∧ Conserves root σ₀ τ := by
  unfold FindStep at step
  rw [PEFLoader.findSymbol_val] at step
  cases found : ldr.foundHeader m call.name call.kind with
  | none =>
      rw [found] at step
      obtain rfl := step
      exact ⟨⟨data, inv⟩, conserves⟩
  | some hdr =>
      rw [found] at step
      dsimp only at step
      by_cases source : ldr.contentAt hdr = 0
      · rw [source, pefLoadSection, if_pos rfl, Traced.val_pure] at step
        obtain rfl := step
        exact ⟨⟨data, inv⟩, conserves⟩
      obtain ⟨free, harmless⟩ := clear hdr found source
      obtain ⟨-, tableEnd, bounds⟩ := PEFLoader.foundHeader_some found
      rcases pefLoadSection_cases bounds inv harmless with
        ⟨null, -⟩ | ⟨k, υ, le, failed, undone, -⟩ | ⟨frames, υ, length, backed, -, written, loaded⟩
      · exact absurd null source
      · rw [failed] at step
        obtain rfl := step
        refine ⟨⟨data, undone.inv⟩, fun f handed => ?_⟩
        rcases undone.inv.isTable_or.mp handed with table | old
        · exact .inr (.inl table)
        · have held : HandedOut σ f := inv.isTable_or.mpr (.inr old)
          exact (conserves f held).stays inv.pageInv undone.inv.pageInv (undone.spares.among (by simp)) undone.beside le
            undone.afforded free held
      · rw [loaded] at step
        dsimp only at step
        rw [← step] at written
        have backs := backed.backs.written backed.inv.pageInv written
        refine ⟨⟨frames ++ data, written.inv⟩, fun f handed => ?_⟩
        rcases written.inv.isTable_or.mp handed with table | member
        · exact .inr (.inl table)
        rcases List.mem_append.mp member with new | old
        · obtain ⟨a, mapped⟩ := backs.page new
          exact .inr (.inr ⟨a, trivial, mapped⟩)
        · have held : HandedOut σ f := inv.isTable_or.mpr (.inr old)
          have spares : Spares root [] σ τ := (backed.spares.among (by simp)).trans written.tables
          exact (conserves f held).stays inv.pageInv written.inv.pageInv spares
            (backed.beside.trans fun a _ => written.views a) length.le (backed.afforded inv) free held

end Steps

section Booted
variable (mem : Memory) (base : UIntPtr) (sz : SizeT) (frameCalls : List FrameCall) (r : FrameRun)
  (frames : Run (Guarded FreesHeld FrameStep) (bootFrames mem base sz) frameCalls r)
  (fuel : Nat) (limit root : UIntPtr) (σ₀ : PmmState)
  (built : mmInitKernelTables fuel limit r.state = some (root, σ₀)) (nonnull : root ≠ 0)
  (calls : List SharedCall) (σ : PmmState) (run : Run (SharedStep root) σ₀ calls σ)
include frames built nonnull run

/-- Any lookups on a blob lose no frame, as long as each takes pages that nothing is lost with. -/
theorem lookups_conserve_frames (narrow : σ.kPmmEnd.toNat ≤ 2 ^ 52) (m : Memory) (ldr : PEFLoader)
    (finds : List FindCall) (τ : PmmState)
    (looked : Run (Guarded (Clear root m ldr σ) (FindStep root m ldr)) σ finds τ) : Conserves root σ τ := by
  have pageInv := shared_pageInv mem base sz frameCalls r frames fuel limit root σ₀ built nonnull calls σ run
  have keeps : ∀ call τ υ, (∃ data, DataInv root data τ) ∧ Conserves root σ τ →
      Guarded (Clear root m ldr σ) (FindStep root m ldr) call τ υ →
      (∃ data, DataInv root data υ) ∧ Conserves root σ υ := by
    rintro call τ υ ⟨⟨data, inv⟩, conserves⟩ ⟨clear, step⟩
    exact findStep_conserves inv conserves clear step
  have kept := looked.invariant keeps ⟨pageInv.dataInv narrow, fun f handed => .inl handed⟩
  exact kept.2

end Booted

section Reload
variable {root src : UIntPtr} {m : Memory} {hdr : Image} {data : List UIntPtr} {σ : PmmState} {len tableEnd : Nat}

theorem spillsHarmless_of_blank {n : Nat} (blank : ∀ a, OffSection hdr a → viewOf σ.mem root a = none) :
    SpillsHarmless hdr root σ n := by
  intro i _ off view seen
  rw [blank _ off] at seen
  cases seen

/-- A section that is loaded twice where nothing was leaves its first frames behind. -/
theorem reload_loses (bounds : SectionBounds len tableEnd hdr) (inv : DataInv root data σ)
    (blank : ∀ a, viewOf σ.mem root a = none) (source : src ≠ 0) (enough : 8 * vmPages hdr ≤ σ.kPmmFree.toNat) :
    ¬ Conserves root σ (pefLoadSection root m hdr src (pefLoadSection root m hdr src σ).val.2).val.2 := by
  rcases pefLoadSection_cases bounds inv (spillsHarmless_of_blank fun a _ => blank a) with
    ⟨null, -⟩ | ⟨k, τ, -, -, -, scarce⟩ | ⟨first, τ, length, backed, spent, written, loaded⟩
  · exact absurd null source
  · omega
  rw [loaded]
  dsimp only
  generalize (copyFrom root m (contentSize hdr) src (vmAddress hdr) τ).val.2 = υ at written
  have beside : ∀ a, OffSection hdr a → viewOf υ.mem root a = none := by
    intro a off
    rw [written.views, backed.beside a fun j below => off j (length ▸ below), blank]
  have left : 4 * vmPages hdr ≤ υ.kPmmFree.toNat := by
    rw [written.free]
    omega
  rcases pefLoadSection_cases bounds written.inv (spillsHarmless_of_blank beside) with
    ⟨null, -⟩ | ⟨k, τ', -, -, -, scarce⟩ | ⟨second, τ', length', backed', -, written', loaded'⟩
  · exact absurd null source
  · omega
  rw [loaded']
  dsimp only
  generalize (copyFrom root m (contentSize hdr) src (vmAddress hdr) τ').val.2 = υ' at written'
  -- The frame of the section's first page.
  have some : 0 < vmPages hdr := by
    have positive : 1 ≤ vmSize hdr := bounds.positive
    unfold vmPages pageCount kPageSize
    split <;> omega
  obtain ⟨f, member, mapped⟩ := backed.backs.frame (length ▸ some)
  have kept : f ∈ second ++ (first ++ data) := List.mem_append_right _ (List.mem_append_left _ member)
  intro conserves
  rcases conserves f (written'.inv.isTable_or.mpr (.inr kept)) with old | table | ⟨a, -, behind⟩
  · exact (backed.fresh inv member).2 old
  · obtain ⟨total, tables, free, owners⟩ := written'.inv
    exact owners.untabled kept (owners.tree.mem_of_isTable table)
  · obtain ⟨-, view, seen, frame⟩ := (mapped_iff written'.inv.pageInv).mp behind
    by_cases page : ∃ j < vmPages hdr, pageNumber a = pageNumber (pageAt (vmAddress hdr) j)
    · obtain ⟨j, below, same⟩ := page
      obtain ⟨view', seen', new⟩ := backed'.view (length' ▸ below) same
      rw [← written'.views] at seen'
      obtain rfl := Option.some.inj (seen.symm.trans seen')
      have held : HandedOut υ view.frame := written.inv.isTable_or.mpr (.inr (List.mem_append_left _ (frame ▸ member)))
      exact (backed'.fresh written.inv new).2 held
    · have off : OffSection hdr a := fun j below same => page ⟨j, below, same⟩
      rw [written'.views, backed'.beside a fun j below => off j (length' ▸ below), beside a off] at seen
      cases seen

end Reload

/-- Empty tables in the first of sixteen frames. -/
def roomyTables : PmmState := ⟨rtSetMemory 0x1000 0 kPageSize fun _ => 0, 0x1000, 0x2000, 0x11000, 0, 15, 1⟩

theorem roomyTables_built : mmInitKernelTables 1 0 (bootFrames (fun _ => 0) 0x1000 0x10000).state =
    some (0x1000, roomyTables) := by
  have boot : bootFrames (fun _ => 0) 0x1000 0x10000 = ⟨⟨fun _ => 0, 0x1000, 0x1000, 0x11000, 0, 16, 0⟩, []⟩ := by
    unfold bootFrames pmmiInit
    rw [if_neg (by decide)]
    rfl
  rw [boot]
  simp [mmInitKernelTables, initFrom, pmmiAllocFrame, pmmiTake, roomyTables, kPageSize]

theorem roomyTables_pageInv : PageInv 0x1000 roomyTables :=
  reached_pageInv (fun _ => 0) 0x1000 0x10000 [] _ (.nil _) 1 0 0x1000 roomyTables roomyTables_built
    (by decide) [] _ (.nil _)

theorem roomyTables_blank (a : UIntPtr) : viewOf roomyTables.mem 0x1000 a = none := by
  obtain ⟨total, held, free, owned, tree⟩ := roomyTables_pageInv
  have entry : walkShape.entryOf roomyTables.mem 0x1000 0 a = _ := entryOf_of_table rfl
  refine tree.viewOf_absent entry (by omega) ?_
  have zero : ∀ x, Within (slotAt 0x1000 (walkShape.index 0 a)) 8 x → roomyTables.mem x = 0 := by
    intro x inside
    change rtSetMemory 0x1000 0 4096 (fun _ => 0) x = 0
    exact rtSetMemory_zero (by decide) (RadixShape.within_table inside)
  rw [load64_zero zero]
  decide

def findMain : FindCall := ⟨some symbolMain, kPefCode⟩

theorem lookups_conserve_frames_main : Conserves 0x1000 roomyTables
    (mainLoader.findSymbol 0x1000 mainBlob (some symbolMain) kPefCode roomyTables).val.2 := by
  have clear : Clear 0x1000 mainBlob mainLoader roomyTables findMain roomyTables := by
    refine fun hdr _ _ => ⟨fun j _ _ f _ mapped => ?_, spillsHarmless_of_blank fun a _ => roomyTables_blank a⟩
    obtain ⟨-, view, seen, -⟩ := (mapped_iff roomyTables_pageInv).mp mapped
    rw [roomyTables_blank] at seen
    cases seen
  exact lookups_conserve_frames (fun _ => 0) 0x1000 0x10000 [] _ (.nil _) 1 0 0x1000 roomyTables roomyTables_built
    (by decide) [] roomyTables (.nil _) (by decide) mainBlob mainLoader [findMain] _ (.single ⟨clear, rfl⟩)

theorem second_lookup_loses_frame : ¬ ∀ mem base sz frameCalls r,
    Run (Guarded FreesHeld FrameStep) (bootFrames mem base sz) frameCalls r →
    ∀ fuel limit root σ₀, mmInitKernelTables fuel limit r.state = some (root, σ₀) → root ≠ 0 →
    ∀ calls σ, Run (SharedStep root) σ₀ calls σ → σ.kPmmEnd.toNat ≤ 2 ^ 52 →
    ∀ m ldr finds τ, Run (FindStep root m ldr) σ finds τ → Conserves root σ τ := by
  intro claim
  have conserves := claim (fun _ => 0) 0x1000 0x10000 [] _ (.nil _) 1 0 0x1000 roomyTables roomyTables_built
    (by decide) [] roomyTables (.nil _) (by decide) mainBlob mainLoader [findMain, findMain] _
    (.cons rfl (.single rfl))
  obtain ⟨hdr, found, -, -, pages, -, source⟩ := mainHeader_found
  obtain ⟨data, inv⟩ := roomyTables_pageInv.dataInv (by decide)
  obtain ⟨-, tableEnd, bounds⟩ := PEFLoader.foundHeader_some found
  rw [PEFLoader.findSymbol_val, PEFLoader.findSymbol_val] at conserves
  dsimp only [findMain] at conserves
  rw [found] at conserves
  refine reload_loses bounds inv roomyTables_blank ?_ ?_ conserves
  · rw [source]
    decide
  · rw [pages]
    decide

end Ne.Kernel.Ldr
