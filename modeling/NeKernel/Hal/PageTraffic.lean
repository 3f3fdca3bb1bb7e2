import NeKernel.Hal.PageRuns

/-!
# Paging beside the other users of memory

Between two calls of the page manager others take frames, give theirs back, and write where neither a table nor
a link of the free list is.
-/

namespace Ne.Kernel.HAL
open ByteMem Runs

def IsTable (mem : Memory) (root t : UIntPtr) : Prop := ∃ d va, d ≤ 3 ∧ walkShape.tableOf mem root d va = some t

inductive SharedCall
  | page (call : PageCall)
  | alloc
  | free (frame : UIntPtr)
  | write (mem : Memory)

def SharedStep (root : UIntPtr) : SharedCall → PmmState → PmmState → Prop
  | .page call, σ, σ' => PageStep root call σ σ'
  | .alloc, σ, σ' => σ' = (pmmiAllocFrame σ).2
  | .free frame, σ, σ' => ¬ IsTable σ.mem root frame ∧ ¬ Listed σ frame ∧ σ' = pmmiFreeFrame frame σ
  | .write mem, σ, σ' => (∀ t, IsTable σ.mem root t → ∀ x, Within t kPageSize x → mem x = σ.mem x) ∧
      (∀ f, Listed σ f → ∀ x, Within f 8 x → mem x = σ.mem x) ∧ σ' = { σ with mem := mem }

section Steps
variable {mem mem' : Memory} {root frame : UIntPtr} {held held' : List UIntPtr} {σ σ' : PmmState} {call : SharedCall}

/-- The tables stay a tree when their bytes stay and their frames stay handed out. -/
theorem TableInv.congr (tables : TableInv mem root held) (same : walkShape.SameTables mem mem' root 3)
    (kept : ∀ t, IsTable mem root t → t ∈ held') : TableInv mem' root held' where
  separate := tables.separate.congr same
  held d va t level reached := by
    rw [RadixShape.tableOf_congr same level] at reached
    exact kept t ⟨d, va, level, reached⟩
  top va e found := by
    rw [RadixShape.entryOf_congr same (by omega)] at found
    exact tables.top va e found
  pat d va e level found leaf := by
    rw [RadixShape.entryOf_congr same (by omega)] at found
    exact tables.pat d va e level found leaf
  permissive k d va e e' below level found leaf above := by
    rw [RadixShape.entryOf_congr same level] at found
    rw [RadixShape.entryOf_congr same (by omega)] at above
    exact tables.permissive k d va e e' below level found leaf above

theorem TableInv.mem_of_isTable (tables : TableInv mem root held) {t : UIntPtr} (table : IsTable mem root t) :
    t ∈ held := by
  obtain ⟨d, va, level, reached⟩ := table
  exact tables.held d va t level reached

theorem PageInv.alloc (inv : PageInv root σ) : PageInv root (pmmiAllocFrame σ).2 := by
  obtain ⟨total, held, free, owned, tables⟩ := inv
  rcases owned.alloc with none | ⟨f, τ, free', taken, nonnull, fresh, same, zero, owned'⟩
  · rw [none]
    exact ⟨total, held, free, owned, tables⟩
  · rw [taken]
    refine ⟨total, f :: held, free', owned', tables.congr ?_ fun t table => ?_⟩
    · intro d va t level reached x inside
      have member := tables.held d va t level reached
      have alignedT := (owned.isFrame_of_held member).2.1
      have alignedF := (owned'.isFrame_of_held (List.mem_cons_self ..)).2.1
      exact same x (frames_apart alignedT alignedF (fun one => fresh (one ▸ member)) x inside)
    · exact List.mem_cons_of_mem _ (tables.mem_of_isTable table)

theorem PageInv.free (inv : PageInv root σ) (other : ¬ IsTable σ.mem root frame) (once : ¬ Listed σ frame) :
    PageInv root (pmmiFreeFrame frame σ) := by
  obtain ⟨total, held, free, owned, tables⟩ := inv
  rcases pmmiFreeFrame_cases frame σ with ⟨-, same⟩ | ⟨there, freed⟩
  · rw [same]
    exact ⟨total, held, free, owned, tables⟩
  · have member : frame ∈ held := by
      rcases List.mem_append.mp ((owned.frames frame).mpr there) with listed | member
      · exact absurd ⟨free, owned.chain, listed⟩ once
      · exact member
    have apart {t : UIntPtr} (table : IsTable σ.mem root t) : t ≠ frame := fun same => other (same ▸ table)
    rw [freed]
    refine ⟨total, held.erase frame, frame :: free, owned.push member, tables.congr ?_ fun t table => ?_⟩
    · intro d va t level reached x inside
      have alignedT := (owned.isFrame_of_held (tables.held d va t level reached)).2.1
      refine store64_outside fun inLink => ?_
      exact frames_apart alignedT there.2.1 (apart ⟨d, va, level, reached⟩) x inside (inLink.mono (by decide))
    · exact (List.mem_erase_of_ne (apart table)).mpr (tables.mem_of_isTable table)

theorem PageInv.write (inv : PageInv root σ)
    (spared : ∀ t, IsTable σ.mem root t → ∀ x, Within t kPageSize x → mem x = σ.mem x)
    (links : ∀ f, Listed σ f → ∀ x, Within f 8 x → mem x = σ.mem x) : PageInv root { σ with mem := mem } := by
  obtain ⟨total, held, free, owned, tables⟩ := inv
  refine ⟨total, held, free, owned.rewrite fun f member => links f ⟨free, owned.chain, member⟩, ?_⟩
  exact tables.congr (fun d va t level reached => spared t ⟨d, va, level, reached⟩) fun t => tables.mem_of_isTable

theorem sharedStep_inv (inv : PageInv root σ) (step : SharedStep root call σ σ') : PageInv root σ' := by
  cases call with
  | page call => exact (pageStep_framed inv step).1
  | alloc =>
      obtain rfl := step
      exact inv.alloc
  | free frame =>
      obtain ⟨other, once, rfl⟩ := step
      exact inv.free other once
  | write mem =>
      obtain ⟨spared, links, rfl⟩ := step
      exact inv.write spared links

theorem mmMapPageIn_failed {va pa : UIntPtr} {flags : BitVec 32} (inv : PageInv root σ)
    (failed : (mmMapPageIn root va pa flags σ).1 ≠ kErrorSuccess) (a : UIntPtr) :
    viewOf (mmMapPageIn root va pa flags σ).2.mem root a = viewOf σ.mem root a := by
  unfold mmMapPageIn at failed ⊢
  by_cases null : pa = 0
  · rw [if_pos null]
  rw [if_neg null] at failed ⊢
  by_cases unaligned : pa &&& (BitVec.ofNat 64 kPageSize - 1) ≠ 0
  · rw [if_pos unaligned]
  rw [if_neg unaligned] at failed ⊢
  have walked := mmWalkPage_walked inv va true
  cases walk : mmWalkPage root va true σ with
  | mk slot τ =>
      rw [walk] at failed walked
      dsimp only at failed ⊢
      by_cases none : slot = 0
      · rw [if_pos none]
        exact walked.views a
      · rw [if_neg none] at failed
        exact absurd rfl failed

end Steps

section Booted
variable (mem : Memory) (base : UIntPtr) (sz : SizeT) (frameCalls : List FrameCall) (r : FrameRun)
  (frames : Run (Guarded FreesHeld FrameStep) (bootFrames mem base sz) frameCalls r)
  (fuel : Nat) (limit root : UIntPtr) (σ₀ : PmmState)
  (built : mmInitKernelTables fuel limit r.state = some (root, σ₀)) (nonnull : root ≠ 0)
  (calls : List SharedCall) (σ : PmmState) (run : Run (SharedStep root) σ₀ calls σ)
include frames built nonnull run

theorem shared_pageInv : PageInv root σ := by
  have initial := reached_pageInv mem base sz frameCalls r frames fuel limit root σ₀ built nonnull [] σ₀ (.nil σ₀)
  exact run.invariant (fun _ _ _ inv step => sharedStep_inv inv step) initial

/-- Address and effective permissions of every page, where a mapping fails for its arguments or for want of frames. -/
theorem failed_map_unseen (va pa : UIntPtr) (flags : BitVec 32)
    (failed : (mmMapPageIn root va pa flags σ).1 ≠ kErrorSuccess) (a : UIntPtr) :
    viewOf (mmMapPageIn root va pa flags σ).2.mem root a = viewOf σ.mem root a ∧
    mmGetPageAddr root a (mmMapPageIn root va pa flags σ).2.mem = mmGetPageAddr root a σ.mem := by
  have inv := shared_pageInv mem base sz frameCalls r frames fuel limit root σ₀ built nonnull calls σ run
  have views := mmMapPageIn_failed inv failed a
  refine ⟨views, ?_⟩
  rw [(mmMapPageIn_spec inv va pa flags).1.addr, inv.addr, views]

end Booted

/-- Empty tables in the only frame that there is. -/
def scarceTables : PmmState := ⟨rtSetMemory 0x1000 0 kPageSize fun _ => 0, 0x1000, 0x2000, 0x2000, 0, 0, 1⟩

theorem scarceTables_built : mmInitKernelTables 1 0 (bootFrames (fun _ => 0) 0x1000 0x1000).state =
    some (0x1000, scarceTables) := by
  have boot : bootFrames (fun _ => 0) 0x1000 0x1000 = ⟨⟨fun _ => 0, 0x1000, 0x1000, 0x2000, 0, 1, 0⟩, []⟩ := by
    unfold bootFrames pmmiInit
    rw [if_neg (by decide)]
    rfl
  rw [boot]
  simp [mmInitKernelTables, initFrom, pmmiAllocFrame, pmmiTake, scarceTables, kPageSize]

theorem failed_map_unseen_scarceTables :
    viewOf (mmMapPageIn 0x1000 0x2000 0x5000 2 scarceTables).2.mem 0x1000 0x3000 =
      viewOf scarceTables.mem 0x1000 0x3000 ∧
    mmGetPageAddr 0x1000 0x3000 (mmMapPageIn 0x1000 0x2000 0x5000 2 scarceTables).2.mem =
      mmGetPageAddr 0x1000 0x3000 scarceTables.mem :=
  failed_map_unseen (fun _ => 0) 0x1000 0x1000 [] _ (.nil _) 1 0 0x1000 scarceTables scarceTables_built (by decide)
    [.alloc] scarceTables (.single rfl) 0x2000 0x5000 2 (by decide +kernel) 0x3000

end Ne.Kernel.HAL
