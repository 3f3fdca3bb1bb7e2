import NeKernel.Hal.PageRuns

/-!
# The identity map

`mm_init_kernel_tables` on an allocator that has the frames for its tables.
-/

namespace Ne.Kernel.HAL
open ByteMem Runs

/-- The allocator has `n` frames to hand out, one after the other. -/
def HandsOut : Nat → PmmState → Prop
  | 0, _ => True
  | n + 1, σ => (pmmiAllocFrame σ).1 ≠ 0 ∧ HandsOut n (pmmiAllocFrame σ).2

/-- The gibibytes that the loop maps. -/
def gibis (limit : UIntPtr) : Nat := (limit.toNat + (2 ^ 30 - 1)) / 2 ^ 30

/-- A root, a PDPT for each 512 GiB that is begun, and a directory for each gibibyte. -/
def tableFrames (limit : UIntPtr) : Nat := 1 + (limit.toNat + (2 ^ 39 - 1)) / 2 ^ 39 + gibis limit

/-- What the loop has done when it comes to `top`. -/
structure MappedTo (root : UIntPtr) (top : Nat) (σ : PmmState) : Prop where
  inv : InitInv root σ
  below : ∀ a, a.toNat < top → ∃ view, viewOf σ.mem root a = some view ∧ view.frame = pageBase a
  above : ∀ a, top ≤ a.toNat → a.toNat < 2 ^ 48 → viewOf σ.mem root a = none
  started : ∀ a, a.toNat < 2 ^ 48 → a.toNat / 2 ^ 39 * 2 ^ 39 < top → TopPresent σ.mem root a

section Addresses
variable {a b base : UIntPtr}

theorem same_two_iff (lowA : a.toNat < 2 ^ 48) (lowB : b.toNat < 2 ^ 48) :
    walkShape.Same 2 a b ↔ a.toNat / 2 ^ 30 = b.toNat / 2 ^ 30 := by
  have digits (k : Nat) : walkShape.index k a = walkShape.index k b ↔
      a.toNat / 2 ^ (39 - 9 * k) % 512 = b.toNat / 2 ^ (39 - 9 * k) % 512 := by
    rw [← BitVec.toNat_inj, index_toNat, index_toNat]
  constructor
  · intro same
    have h0 := (digits 0).mp (same 0 (by omega))
    have h1 := (digits 1).mp (same 1 (by omega))
    simp only [Nat.mul_zero, Nat.sub_zero, Nat.mul_one, Nat.reduceSub, Nat.reducePow] at h0 h1
    omega
  · intro same k below
    rw [digits]
    have cases : k = 0 ∨ k = 1 := by omega
    rcases cases with rfl | rfl <;>
      simp only [Nat.mul_zero, Nat.sub_zero, Nat.mul_one, Nat.reduceSub, Nat.reducePow] <;>
      omega

theorem topPresent_congr {mem : Memory} {root : UIntPtr} (same : a.toNat / 2 ^ 39 = b.toNat / 2 ^ 39) :
    TopPresent mem root a ↔ TopPresent mem root b := by
  have index : walkShape.index 0 a = walkShape.index 0 b := by
    rw [← BitVec.toNat_inj, index_toNat, index_toNat]
    exact congrArg (· % 512) same
  unfold TopPresent
  rw [index]

theorem initLeaf_frame (aligned : base.toNat % 2 ^ 30 = 0) (low : a.toNat < 2 ^ 48)
    (inside : a.toNat / 2 ^ 30 = base.toNat / 2 ^ 30) :
    leafFrame 2 ((base + walkShape.index 2 a * kLargePage) ||| kLeafPerm) a = pageBase a := by
  have sum : (base + walkShape.index 2 a * kLargePage).toNat = a.toNat / 2 ^ 21 * 2 ^ 21 := by
    have size : kLargePage.toNat = 2 ^ 21 := by decide
    rw [BitVec.toNat_add, BitVec.toNat_mul, index_toNat, size]
    simp only [Nat.reduceMul, Nat.reduceSub]
    omega
  have bit {j : Nat} (high : 21 ≤ j) : ((base + walkShape.index 2 a * kLargePage) ||| kLeafPerm).getLsbD j =
      a.getLsbD j := by
    have perm : kLeafPerm.getLsbD j = false := Nat.testBit_lt_two_pow
      (Nat.lt_of_lt_of_le (by decide : kLeafPerm.toNat < 2 ^ 21) (Nat.pow_le_pow_right (by omega) high))
    rw [BitVec.getLsbD_or, perm, Bool.or_false, BitVec.getLsbD, sum, ← Nat.shiftLeft_eq, Nat.testBit_shiftLeft,
      ← Nat.shiftRight_eq_div_pow, Nat.testBit_shiftRight, Nat.add_sub_cancel' high,
      decide_eq_true high, Bool.true_and]
    rfl
  apply BitVec.eq_of_getLsbD_eq
  intro j bound
  rw [leafFrame_getLsbD (by omega) bound, pageBase, BitVec.getLsbD_and, BitVec.getLsbD_not, kPageMask_getLsbD]
  by_cases high : 21 ≤ j
  · have far : 52 ≤ j → a.getLsbD j = false := fun beyond => Nat.testBit_lt_two_pow
      (Nat.lt_of_lt_of_le low (Nat.pow_le_pow_right (by omega) (by omega)))
    rw [bit high]
    by_cases beyond : 52 ≤ j
    · simp [far beyond]
    · simp [show 39 - 9 * 2 ≤ j ∧ 12 ≤ j ∧ j < 52 by omega, show ¬ j < 12 by omega, bound]
  · by_cases page : 12 ≤ j
    · simp [show ¬ 39 - 9 * 2 ≤ j by omega, page, show j < 39 - 9 * 2 by omega, show ¬ j < 12 by omega, bound]
    · simp [show ¬ 39 - 9 * 2 ≤ j by omega, page, show j < 12 by omega]

theorem pageBase_or (a : UIntPtr) : pageBase a ||| (a &&& kPageMask) = a := by
  have whole : ~~~kPageMask ||| kPageMask = BitVec.allOnes 64 := by decide
  rw [pageBase, ← BitVec.and_or_distrib_left, whole, BitVec.and_allOnes]

end Addresses

section Frames
variable {root base : UIntPtr} {σ : PmmState} {total n : Nat} {held free : List UIntPtr}

theorem FrameInv.handsOut (owned : FrameInv total ⟨σ, held⟩ free) (enough : HandsOut n σ) :
    n ≤ σ.kPmmFree.toNat := by
  induction n generalizing σ held free with
  | zero => exact Nat.zero_le _
  | succ n ih =>
      obtain ⟨some, rest⟩ := enough
      rcases owned.alloc with none | ⟨f, τ, free', taken, -, -, -, -, owned'⟩
      · rw [none] at some
        exact absurd rfl some
      · rw [taken] at rest
        have later := ih owned' rest
        have used := owned.used
        have used' := owned'.used
        have balance := owned.balance
        have balance' := owned'.balance
        simp only [List.length_cons] at used used' balance balance'
        omega

theorem PageInv.alloc_nonzero (inv : PageInv root σ) (room : 0 < σ.kPmmFree.toNat) :
    ∃ f τ, pmmiAllocFrame σ = (f, τ) ∧ f ≠ 0 ∧ τ.kPmmFree.toNat + 1 = σ.kPmmFree.toNat := by
  obtain ⟨total, held, free, owned, tables⟩ := inv
  have some : held ≠ [] := List.ne_nil_of_mem (tables.held 0 0 root (by omega) rfl)
  obtain ⟨nonnull, spent⟩ := owned.alloc_nonzero some room rfl
  exact ⟨_, _, rfl, nonnull, spent⟩

theorem initPdpt_done (inv : PageInv root σ) (room : ¬ TopPresent σ.mem root base → 0 < σ.kPmmFree.toNat) :
    ∃ τ, initPdpt (slotAt root (walkShape.index 0 base)) σ = (true, τ) ∧
      σ.kPmmFree.toNat = τ.kPmmFree.toNat + if TopPresent σ.mem root base then 0 else 1 := by
  unfold initPdpt
  by_cases present : TopPresent σ.mem root base
  · exact ⟨σ, if_neg present, by rw [if_pos present]; rfl⟩
  · obtain ⟨f, τ, taken, nonnull, spent⟩ := inv.alloc_nonzero (room present)
    have absent : load64 σ.mem (slotAt root (walkShape.index 0 base)) &&& 1 = 0 := not_not.mp present
    refine ⟨τ.store (slotAt root (walkShape.index 0 base)) (f ||| kInitTablePerm), ?_, ?_⟩
    · rw [if_pos absent, taken]
      dsimp only
      rw [if_neg nonnull]
    · rw [if_neg present]
      exact spent.symm

theorem initGiB_done (inv : InitInv root σ)
    (room : (if TopPresent σ.mem root base then 1 else 2) ≤ σ.kPmmFree.toNat) :
    ∃ τ, initGiB root base σ = (true, τ) ∧
      σ.kPmmFree.toNat = τ.kPmmFree.toNat + if TopPresent σ.mem root base then 1 else 2 := by
  have first : ¬ TopPresent σ.mem root base → 0 < σ.kPmmFree.toNat := by
    intro absent
    rw [if_neg absent] at room
    omega
  obtain ⟨υ, ready, cost⟩ := initPdpt_done inv.pages first
  have left : 0 < υ.kPmmFree.toNat := by
    split_ifs at cost room <;> omega
  obtain ⟨f, ω, taken, nonnull, spent⟩ := (initPdpt_ready inv base ready).inv.pages.alloc_nonzero left
  unfold initGiB
  rw [show pageIndex base 39 = walkShape.index 0 base from rfl]
  simp only [ready, taken, if_neg nonnull, Bool.true_eq_false, if_false]
  refine ⟨_, rfl, ?_⟩
  dsimp only [PmmState.store]
  split_ifs at cost ⊢ <;> omega

end Frames

section Loop
variable {root base limit : UIntPtr} {σ τ : PmmState} {top fuel : Nat}

theorem mappedTo_blank {total : Nat} {held free : List UIntPtr} (owned : FrameInv total ⟨σ, held⟩ free)
    (taken : pmmiAllocFrame σ = (root, τ)) (nonnull : root ≠ 0) : MappedTo root 0 τ := by
  have inv := initInv_blank owned taken nonnull
  refine ⟨inv, fun a none => absurd none (Nat.not_lt_zero _), fun a _ _ => ?_,
    fun a _ none => absurd none (Nat.not_lt_zero _)⟩
  obtain ⟨_, _, _, _, tables⟩ := inv.pages
  have cleared : load64 τ.mem (slotAt root (walkShape.index 0 a)) = 0 := by
    obtain ⟨-, -, zero, -⟩ := owned.alloc_taken taken nonnull
    exact load64_zero fun x inside => zero x (RadixShape.within_table inside)
  have entry : walkShape.entryOf τ.mem root 0 a = some 0 := by
    rw [← cleared]
    rfl
  exact tables.viewOf_absent entry (by omega) rfl

theorem MappedTo.turn (mapped : MappedTo root base.toNat σ) (aligned : base.toNat % 2 ^ 30 = 0)
    (low : base.toNat < 2 ^ 48) (done : initGiB root base σ = (true, τ)) : MappedTo root (base.toNat + 2 ^ 30) τ := by
  have next := initGiB_mapped mapped.inv aligned done
  refine ⟨next.inv, fun a below => ?_, fun a above lowA => ?_, fun a lowA begun => ?_⟩
  · have lowA : a.toNat < 2 ^ 48 := by omega
    by_cases here : a.toNat / 2 ^ 30 = base.toNat / 2 ^ 30
    · exact ⟨_, next.here a ((same_two_iff lowA low).mpr here), initLeaf_frame aligned lowA here⟩
    · rw [next.others a fun same => here ((same_two_iff lowA low).mp same)]
      exact mapped.below a (by omega)
  · rw [next.others a fun same => ?_]
    · exact mapped.above a (by omega) lowA
    · have here := (same_two_iff lowA low).mp same
      omega
  · by_cases older : a.toNat / 2 ^ 39 * 2 ^ 39 < base.toNat
    · exact next.kept a (mapped.started a lowA older)
    · have same : a.toNat / 2 ^ 39 = base.toNat / 2 ^ 39 := by omega
      exact (topPresent_congr same).mpr next.present

/-- The frames that the loop still takes from `base` on. -/
def framesLeft (limit base : UIntPtr) : Nat :=
  (limit.toNat + (2 ^ 39 - 1)) / 2 ^ 39 - (base.toNat + (2 ^ 39 - 1)) / 2 ^ 39 + (gibis limit - base.toNat / 2 ^ 30)

theorem initFrom_identity (mapped : MappedTo root base.toNat σ) (aligned : base.toNat % 2 ^ 30 = 0)
    (limited : limit.toNat ≤ 2 ^ 48) (reach : base.toNat / 2 ^ 30 ≤ gibis limit)
    (room : framesLeft limit base ≤ σ.kPmmFree.toNat) (fueled : gibis limit < base.toNat / 2 ^ 30 + fuel) :
    ∃ τ, initFrom limit root fuel base σ = some (root, τ) ∧ MappedTo root (gibis limit * 2 ^ 30) τ := by
  induction fuel generalizing base σ with
  | zero => omega
  | succ fuel ih =>
      rw [initFrom]
      by_cases more : base < limit
      · have below := BitVec.lt_def.mp more
        have started : ¬ TopPresent σ.mem root base → base.toNat % 2 ^ 39 = 0 := by
          intro absent
          by_contra inner
          exact absent (mapped.started base (by omega) (by omega))
        have step : (base + kGiB).toNat = base.toNat + 2 ^ 30 := by
          have size : kGiB.toNat = 2 ^ 30 := by decide
          rw [BitVec.toNat_add, size]
          omega
        have cost : (if TopPresent σ.mem root base then 1 else 2) + framesLeft limit (base + kGiB) ≤
            framesLeft limit base := by
          unfold framesLeft gibis
          rw [step]
          split
          · omega
          · have whole := started ‹_›
            omega
        have enough : (if TopPresent σ.mem root base then 1 else 2) ≤ σ.kPmmFree.toNat := by omega
        obtain ⟨υ, done, spent⟩ := initGiB_done mapped.inv enough
        have next := mapped.turn aligned (by omega) done
        rw [← step] at next
        rw [if_pos more, done]
        dsimp only
        rw [if_neg (by simp)]
        unfold gibis at reach fueled
        refine ih next (by omega) ?_ (by omega) ?_ <;> unfold gibis <;> omega
      · rw [if_neg more]
        have beyond := BitVec.le_def.mp (BitVec.not_lt.mp more)
        have last : base.toNat = gibis limit * 2 ^ 30 := by
          unfold gibis at reach ⊢
          omega
        exact ⟨σ, rfl, last ▸ mapped⟩

end Loop

section Booted
variable (mem : Memory) (base : UIntPtr) (sz : SizeT) (frameCalls : List FrameCall) (r : FrameRun)
  (frames : Run (Guarded FreesHeld FrameStep) (bootFrames mem base sz) frameCalls r)
include frames

/-- The addresses up to the limit, rounded up to a gibibyte, show themselves, and no other does. -/
theorem kernel_tables_identity (limit : UIntPtr) (limited : limit.toNat ≤ 2 ^ 48)
    (enough : HandsOut (tableFrames limit) r.state) (fuel : Nat) (fueled : gibis limit < fuel) :
    ∃ root τ, mmInitKernelTables fuel limit r.state = some (root, τ) ∧ root ≠ 0 ∧
      (∀ a, a.toNat < gibis limit * 2 ^ 30 → (viewOf τ.mem root a).isSome ∧ mmGetPageAddr root a τ.mem = a) ∧
      ∀ a, gibis limit * 2 ^ 30 ≤ a.toNat → a.toNat < 2 ^ 48 →
        viewOf τ.mem root a = none ∧ mmGetPageAddr root a τ.mem = 0 := by
  obtain ⟨free, owned⟩ := frames.invariant freesHeld_step ⟨[], frameInv_boot mem base sz⟩
  obtain ⟨n, count⟩ : ∃ n, tableFrames limit = n + 1 := by
    refine ⟨tableFrames limit - 1, ?_⟩
    unfold tableFrames
    omega
  rw [count] at enough
  obtain ⟨nonnull, rest⟩ := enough
  rcases owned.alloc with none | ⟨root, σ, free', taken, -, -, -, -, owned'⟩
  · rw [none] at nonnull
    exact absurd rfl nonnull
  rw [taken] at nonnull rest
  have left : framesLeft limit 0 ≤ σ.kPmmFree.toNat := by
    have room := owned'.handsOut rest
    rw [tableFrames] at count
    simp only [framesLeft, BitVec.ofNat_eq_ofNat, BitVec.toNat_ofNat]
    omega
  obtain ⟨τ, done, mapped⟩ := initFrom_identity (mappedTo_blank owned taken nonnull) (by decide) limited
    (Nat.zero_le _) left (by simpa using fueled)
  refine ⟨root, τ, ?_, nonnull, fun a below => ?_, fun a above low => ?_⟩
  · unfold mmInitKernelTables
    rw [taken]
    dsimp only
    rw [if_neg nonnull, done]
  · obtain ⟨view, seen, frame⟩ := mapped.below a below
    refine ⟨by rw [seen]; rfl, ?_⟩
    rw [mapped.inv.pages.addr, seen, Option.map_some, Option.getD_some, frame, pageBase_or]
  · have gone := mapped.above a above low
    exact ⟨gone, mapped.inv.pages.addr_of_none gone⟩

end Booted

/-- Three of the eight frames from address `0x1000` make the tables of the first gibibyte. -/
theorem kernel_tables_identity_gib : ∃ root τ,
    mmInitKernelTables 2 1 (bootFrames (fun _ => 0) 0x1000 0x8000).state = some (root, τ) ∧
      mmGetPageAddr root 0x3FFFFFFF τ.mem = 0x3FFFFFFF ∧ mmGetPageAddr root 0x40000000 τ.mem = 0 := by
  have enough : HandsOut (tableFrames 1) (bootFrames (fun _ => 0) 0x1000 0x8000).state :=
    ⟨by decide, by decide, by decide, trivial⟩
  obtain ⟨root, τ, done, -, below, above⟩ := kernel_tables_identity (fun _ => 0) 0x1000 0x8000 [] _ (.nil _) 1
    (by decide) enough 2 (by decide)
  exact ⟨root, τ, done, (below 0x3FFFFFFF (by decide)).2, (above 0x40000000 (by decide) (by decide)).2⟩

end Ne.Kernel.HAL
