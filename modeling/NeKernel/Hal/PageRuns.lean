import NeKernel.Hal.KernelTables
import NeKernel.Hal.FrameRuns

/-!
# Runs of the page manager

The frame allocator runs from `pmmi_init` on, the kernel tables are built in one of its states, and
pages are mapped and unmapped from there.
-/

namespace Ne.Kernel.HAL
open ByteMem Runs

inductive PageCall
  | map (va pa : UIntPtr) (flags : BitVec 32)
  | unmap (va : UIntPtr)

def PageCall.page : PageCall → Nat
  | .map va _ _ => pageNumber va
  | .unmap va => pageNumber va

def PageStep (root : UIntPtr) : PageCall → PmmState → PmmState → Prop
  | .map va pa flags, σ, σ' => σ' = (mmMapPageIn root va pa flags σ).2
  | .unmap va, σ, σ' => σ' = (mmUnmapPage root va σ).2

/-- The first address of a page. -/
def pageBase (va : UIntPtr) : UIntPtr := va &&& ~~~kPageMask

section Steps
variable {root : UIntPtr} {σ σ' : PmmState} {call : PageCall} {calls : List PageCall}

theorem pageStep_framed (inv : PageInv root σ) (step : PageStep root call σ σ') :
    PageInv root σ' ∧ ∀ a, pageNumber a ≠ call.page → viewOf σ'.mem root a = viewOf σ.mem root a := by
  cases call with
  | map va pa flags =>
      obtain ⟨after, others, -⟩ := mmMapPageIn_spec inv va pa flags
      rw [step]
      exact ⟨after, others⟩
  | unmap va =>
      obtain ⟨after, others, -⟩ := mmUnmapPage_spec inv va
      rw [step]
      exact ⟨after, others⟩

theorem pageRun_inv (inv : PageInv root σ) (run : Run (PageStep root) σ calls σ') : PageInv root σ' :=
  run.invariant (fun _ _ _ inv step => (pageStep_framed inv step).1) inv

end Steps

section Addresses
variable {root va pa o : UIntPtr} {σ : PmmState}

theorem pageBase_add (small : o.toNat < kPageSize) :
    pageNumber (pageBase va + o) = pageNumber va ∧ (pageBase va + o) &&& kPageMask = o := by
  have mask : kPageMask = kPmmAlign := by decide
  have base : (pageBase va).toNat = va.toNat - va.toNat % kPageSize := by
    unfold pageBase
    rw [mask, and_not_kPmmAlign]
  have bound := va.isLt
  unfold kPageSize at *
  have sum : (pageBase va + o).toNat = va.toNat - va.toNat % 4096 + o.toNat := by bv_omega
  refine ⟨?_, ?_⟩
  · unfold pageNumber kPageSize
    omega
  · apply BitVec.eq_of_toNat_eq
    rw [mask, and_kPmmAlign, sum]
    unfold kPageSize
    omega

theorem frame_or_offset (aligned : pa &&& kPageMask = 0) (small : o.toNat < kPageSize) :
    pa ||| o = pa + o := by
  have low : o = o &&& kPageMask := by
    apply BitVec.eq_of_toNat_eq
    rw [show kPageMask = kPmmAlign by decide, and_kPmmAlign, Nat.mod_eq_of_lt small]
  rw [BitVec.add_eq_or_of_and_eq_zero]
  rw [low, BitVec.and_comm o, ← BitVec.and_assoc, aligned]
  simp

theorem PageInv.addr (inv : PageInv root σ) (a : UIntPtr) : mmGetPageAddr root a σ.mem =
    ((viewOf σ.mem root a).map fun view => view.frame ||| (a &&& kPageMask)).getD 0 := by
  have base := inv.root_facts.2
  obtain ⟨_, _, _, _, tables⟩ := inv
  exact mmGetPageAddr_eq tables base

theorem PageInv.frame_aligned {a : UIntPtr} {view : PageView} (inv : PageInv root σ)
    (seen : viewOf σ.mem root a = some view) : view.frame &&& kPageMask = 0 := by
  obtain ⟨_, _, _, _, tables⟩ := inv
  rw [tables.viewOf_eq, Option.map_eq_some_iff] at seen
  obtain ⟨⟨d, e⟩, leaf, rfl⟩ := seen
  obtain ⟨positive, le, -⟩ := leafBelow_some leaf
  apply BitVec.eq_of_getLsbD_eq
  intro j bound
  rw [BitVec.getLsbD_and, kPageMask_getLsbD]
  by_cases low : j < 12
  · have none : ¬ (39 - 9 * d ≤ j ∧ 12 ≤ j ∧ j < 52) := by omega
    have gone : ¬ (12 ≤ j ∧ j < 39 - 9 * d) := by omega
    dsimp only [leafView]
    rw [leafFrame_getLsbD ⟨positive, le⟩ bound, decide_eq_false none, decide_eq_false gone]
    simp
  · simp [low]

theorem PageInv.addr_of_view (inv : PageInv root σ) {view : PageView} (small : o.toNat < kPageSize)
    (seen : viewOf σ.mem root (pageBase va + o) = some view) :
    mmGetPageAddr root (pageBase va + o) σ.mem = view.frame + o := by
  rw [inv.addr, seen, Option.map_some, Option.getD_some, (pageBase_add small).2,
    frame_or_offset (inv.frame_aligned seen) small]

theorem PageInv.addr_of_none (inv : PageInv root σ) {a : UIntPtr} (seen : viewOf σ.mem root a = none) :
    mmGetPageAddr root a σ.mem = 0 := by
  rw [inv.addr, seen]
  rfl

theorem mmMapPageIn_aligned {flags : BitVec 32} {τ : PmmState}
    (mapped : mmMapPageIn root va pa flags σ = (kErrorSuccess, τ)) :
    pa &&& (BitVec.ofNat 64 kPageSize - 1) = 0 := by
  by_contra unaligned
  unfold mmMapPageIn at mapped
  split at mapped
  · cases mapped
  · cases mapped

theorem mmMapPageIn_addr {flags : BitVec 32} {τ : PmmState} (inv : PageInv root σ)
    (below : pa.toNat < 2 ^ 52) (present : flags &&& kMMFlagsPresent ≠ 0)
    (mapped : mmMapPageIn root va pa flags σ = (kErrorSuccess, τ)) (small : o.toNat < kPageSize) :
    mmGetPageAddr root (pageBase va + o) τ.mem = pa + o := by
  obtain ⟨after, -, here⟩ := mmMapPageIn_spec inv va pa flags
  rw [mapped] at after here
  have seen := here rfl (pageBase va + o) (pageBase_add small).1
  rw [if_pos (make_present present)] at seen
  rw [after.addr_of_view small seen]
  dsimp only [leafView]
  rw [leafFrame_last, make_frame (mmMapPageIn_aligned mapped) below]

end Addresses

section Booted
variable (mem : Memory) (base : UIntPtr) (sz : SizeT) (frameCalls : List FrameCall) (r : FrameRun)
  (frames : Run (Guarded FreesHeld FrameStep) (bootFrames mem base sz) frameCalls r)
  (fuel : Nat) (limit root : UIntPtr) (σ₀ : PmmState)
  (built : mmInitKernelTables fuel limit r.state = some (root, σ₀)) (nonnull : root ≠ 0)
  (calls : List PageCall) (σ : PmmState) (run : Run (PageStep root) σ₀ calls σ)
include frames built nonnull run

theorem reached_pageInv : PageInv root σ := by
  obtain ⟨free, owned⟩ := frames.invariant freesHeld_step ⟨[], frameInv_boot mem base sz⟩
  exact pageRun_inv (mmInitKernelTables_pageInv owned built nonnull) run

/-- Address and effective permissions of every other page stay as they are. -/
theorem permissions_framed (call : PageCall) (σ' : PmmState) (step : PageStep root call σ σ') (a : UIntPtr)
    (other : pageNumber a ≠ call.page) : viewOf σ'.mem root a = viewOf σ.mem root a := by
  have inv := reached_pageInv mem base sz frameCalls r frames fuel limit root σ₀ built nonnull calls σ run
  exact (pageStep_framed inv step).2 a other

theorem paging_refines_map :
    (∀ va pa flags τ, pa.toNat < 2 ^ 52 → flags &&& kMMFlagsPresent ≠ 0 →
      mmMapPageIn root va pa flags σ = (kErrorSuccess, τ) →
      ∀ o : UIntPtr, o.toNat < kPageSize → mmGetPageAddr root (pageBase va + o) τ.mem = pa + o) ∧
    (∀ va frame τ, mmUnmapPage root va σ = (frame, τ) →
      (frame ≠ 0 → ∀ o : UIntPtr, o.toNat < kPageSize →
        mmGetPageAddr root (pageBase va + o) σ.mem = frame + o ∧
        mmGetPageAddr root (pageBase va + o) τ.mem = 0) ∧
      (frame = 0 → mmGetPageAddr root (pageBase va + 1) σ.mem ≠ 1 →
        ∀ a, mmGetPageAddr root a τ.mem = mmGetPageAddr root a σ.mem)) ∧
    ∀ call τ, PageStep root call σ τ → ∀ a, pageNumber a ≠ call.page →
      mmGetPageAddr root a τ.mem = mmGetPageAddr root a σ.mem := by
  have inv := reached_pageInv mem base sz frameCalls r frames fuel limit root σ₀ built nonnull calls σ run
  refine ⟨fun va pa flags τ below present mapped o small => mmMapPageIn_addr inv below present mapped small,
    fun va frame τ unmapped => ?_, fun call τ step a other => ?_⟩
  · obtain ⟨after, -, outcome⟩ := mmUnmapPage_spec inv va
    rw [unmapped] at after outcome
    dsimp only at after outcome
    constructor
    · intro some o small
      obtain ⟨gone, view, seen, rfl⟩ := outcome.resolve_left (fun none => some none.1)
        (pageBase va + o) (pageBase_add small).1
      exact ⟨inv.addr_of_view small seen, after.addr_of_none gone⟩
    · intro zero unused a
      rcases outcome with ⟨-, views⟩ | page
      · rw [after.addr, inv.addr, views a]
      · have one : (1 : UIntPtr).toNat < kPageSize := by decide
        obtain ⟨-, view, seen, frame⟩ := page (pageBase va + 1) (pageBase_add one).1
        have addr := inv.addr_of_view one seen
        rw [frame, zero] at addr
        exact absurd (addr.trans (by decide)) unused
  · obtain ⟨after, others⟩ := pageStep_framed inv step
    rw [after.addr, inv.addr, others a other]

end Booted

section EmptyTables

/-- Eight frames from address `0x1000`, the first of them the root of empty tables. -/
def emptyTables : PmmState :=
  ⟨rtSetMemory 0x1000 0 kPageSize fun _ => 0, 0x1000, 0x2000, 0x9000, 0, 7, 1⟩

theorem emptyTables_built : mmInitKernelTables 1 0 (bootFrames (fun _ => 0) 0x1000 0x8000).state =
    some (0x1000, emptyTables) := by
  have boot : bootFrames (fun _ => 0) 0x1000 0x8000 =
      ⟨⟨fun _ => 0, 0x1000, 0x1000, 0x9000, 0, 8, 0⟩, []⟩ := by
    unfold bootFrames pmmiInit
    rw [if_neg (by decide)]
    rfl
  rw [boot]
  simp [mmInitKernelTables, initFrom, pmmiAllocFrame, pmmiTake, emptyTables, kPageSize]

theorem emptyTables_pageInv : PageInv 0x1000 emptyTables :=
  reached_pageInv (fun _ => 0) 0x1000 0x8000 [] _ (.nil _) 1 0 0x1000 emptyTables emptyTables_built
    (by decide) [] _ (.nil _)

end EmptyTables

theorem permissions_framed_emptyTables :
    viewOf (mmMapPageIn 0x1000 0x1000 0x5000 2 emptyTables).2.mem 0x1000 0x2000 =
      viewOf emptyTables.mem 0x1000 0x2000 :=
  permissions_framed (fun _ => 0) 0x1000 0x8000 [] _ (.nil _) 1 0 0x1000 emptyTables emptyTables_built
    (by decide) [] _ (.nil _) (.map 0x1000 0x5000 2) _ rfl 0x2000 (by decide)

theorem paging_refines_map_emptyTables :
    mmGetPageAddr 0x1000 (pageBase 0x1000 + 1) (mmMapPageIn 0x1000 0x1000 0x5000 2 emptyTables).2.mem =
      0x5000 + 1 :=
  (paging_refines_map (fun _ => 0) 0x1000 0x8000 [] _ (.nil _) 1 0 0x1000 emptyTables
    emptyTables_built (by decide) [] _ (.nil _)).1 0x1000 0x5000 2 _ (by decide) (by decide)
    (Prod.ext (mmMapPageIn_success emptyTables_pageInv 0x1000 2 (by decide) (by decide) (by decide)) rfl)
    1 (by decide)

/-- An unaligned virtual address is mapped page by page. -/
theorem unaligned_map_shifted : ¬ ∀ mem base sz frameCalls r,
    Run (Guarded FreesHeld FrameStep) (bootFrames mem base sz) frameCalls r →
    ∀ fuel limit root σ₀, mmInitKernelTables fuel limit r.state = some (root, σ₀) → root ≠ 0 →
    ∀ calls σ, Run (PageStep root) σ₀ calls σ → ∀ va pa flags τ, pa.toNat < 2 ^ 52 →
    flags &&& kMMFlagsPresent ≠ 0 → mmMapPageIn root va pa flags σ = (kErrorSuccess, τ) →
    ∀ o : UIntPtr, o.toNat < kPageSize → mmGetPageAddr root (va + o) τ.mem = pa + o := by
  intro claim
  have mapped : mmMapPageIn 0x1000 0x1001 0x5000 2 emptyTables =
      (kErrorSuccess, (mmMapPageIn 0x1000 0x1001 0x5000 2 emptyTables).2) :=
    Prod.ext (mmMapPageIn_success emptyTables_pageInv 0x1001 2 (by decide) (by decide) (by decide)) rfl
  have shifted := claim (fun _ => 0) 0x1000 0x8000 [] _ (.nil _) 1 0 0x1000 emptyTables emptyTables_built
    (by decide) [] _ (.nil _) 0x1001 0x5000 2 _ (by decide) (by decide) mapped 0 (by decide)
  have right := mmMapPageIn_addr emptyTables_pageInv (by decide) (by decide) mapped
    (by decide : (1 : UIntPtr).toNat < kPageSize)
  have address : pageBase 0x1001 + 1 = 0x1001 + (0 : UIntPtr) := by decide
  rw [address, shifted] at right
  exact absurd right (by decide)

end Ne.Kernel.HAL
