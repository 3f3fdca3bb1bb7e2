import NeKernel.Hal.PageWalk

/-!
# What mapping, unmapping and lookup do to the pages

Pages are numbered modulo `2 ^ 36`: the walk ignores the address bits from 48 on.
-/

namespace Ne.Kernel.HAL
open ByteMem

def pageNumber (va : UIntPtr) : Nat := va.toNat / kPageSize % 2 ^ 36

section Numbers
variable {a b va e : UIntPtr} {d j : Nat}

theorem index_toNat (d : Nat) (va : UIntPtr) :
    (walkShape.index d va).toNat = va.toNat / 2 ^ (39 - 9 * d) % 512 := by
  have mask : kMask9.toNat = 2 ^ 9 - 1 := by decide
  change (pageIndex va (39 - 9 * d)).toNat = _
  unfold pageIndex
  rw [BitVec.toNat_and, mask, Nat.and_two_pow_sub_one_eq_mod, BitVec.toNat_ushiftRight,
    Nat.shiftRight_eq_div_pow]

theorem same_iff_pageNumber : walkShape.Same 4 a b ↔ pageNumber a = pageNumber b := by
  have digits (k : Nat) : walkShape.index k a = walkShape.index k b ↔
      a.toNat / 2 ^ (39 - 9 * k) % 512 = b.toNat / 2 ^ (39 - 9 * k) % 512 := by
    rw [← BitVec.toNat_inj, index_toNat, index_toNat]
  unfold pageNumber kPageSize
  constructor
  · intro same
    have h0 := (digits 0).mp (same 0 (by omega))
    have h1 := (digits 1).mp (same 1 (by omega))
    have h2 := (digits 2).mp (same 2 (by omega))
    have h3 := (digits 3).mp (same 3 (by omega))
    simp only [Nat.mul_zero, Nat.sub_zero, Nat.mul_one, Nat.reduceSub, Nat.reduceMul, Nat.reducePow]
      at h0 h1 h2 h3
    omega
  · intro same k below
    rw [digits]
    have cases : k = 0 ∨ k = 1 ∨ k = 2 ∨ k = 3 := by omega
    rcases cases with rfl | rfl | rfl | rfl <;>
      simp only [Nat.mul_zero, Nat.sub_zero, Nat.mul_one, Nat.reduceSub, Nat.reduceMul, Nat.reducePow] <;>
      omega

theorem kPageMask_getLsbD (j : Nat) : kPageMask.getLsbD j = decide (j < 12) := by
  rw [show kPageMask = 1#64 <<< 12 - 1#64 by decide, lowMask_getLsbD (by omega)]

theorem leafFrame_or (level : 0 < d ∧ d ≤ 3) : leafFrame d e va ||| (va &&& kPageMask) =
    (e &&& kAddrMask &&& ~~~(1#64 <<< (39 - 9 * d) - 1#64)) |||
      (va &&& (1#64 <<< (39 - 9 * d) - 1#64)) := by
  apply BitVec.eq_of_getLsbD_eq
  intro j bound
  simp only [BitVec.getLsbD_or, BitVec.getLsbD_and]
  rw [leafFrame_getLsbD level bound, kPageMask_getLsbD, kAddrMask_getLsbD bound,
    notMask_getLsbD (by omega) bound, lowMask_getLsbD (by omega)]
  by_cases low : j < 12
  · have below : j < 39 - 9 * d := by omega
    have above : ¬ 12 ≤ j := by omega
    simp only [low, below, above, decide_true, decide_false, false_and, and_false, Bool.false_and,
      Bool.and_false, Bool.and_true, Bool.false_or]
  · have above : 12 ≤ j := by omega
    simp only [low, above, decide_false, true_and, Bool.and_false, Bool.or_false, Bool.decide_and]
    cases e.getLsbD j <;> cases va.getLsbD j <;> simp [Bool.and_comm]

theorem leafFrame_last : leafFrame 3 e va = e &&& kAddrMask := by
  apply BitVec.eq_of_getLsbD_eq
  intro j bound
  rw [leafFrame_getLsbD (by omega) bound, BitVec.getLsbD_and, kAddrMask_getLsbD bound]
  by_cases inside : 12 ≤ j ∧ j < 52
  · simp [inside]
  · have none : ¬ (39 - 9 * 3 ≤ j ∧ 12 ≤ j ∧ j < 52) := fun h => inside h.2
    have gone : ¬ (12 ≤ j ∧ j < 39 - 9 * 3) := by omega
    rw [decide_eq_false none, decide_eq_false gone, decide_eq_false inside, Bool.and_false]
    rfl

end Numbers

section Lookup
variable {mem : Memory} {root va e table : UIntPtr} {held : List UIntPtr} {d : Nat}

theorem leafBelow_last (entry : walkShape.entryOf mem root d va = some e) (level : d ≤ 3)
    (ended : d = 3 ∨ walkShape.next e = none) :
    leafBelow mem root va 3 = if 0 < d ∧ isLeaf d e then some (d, e) else none := by
  refine leafBelow_at entry (fun k above le => ?_) level
  have cut : walkShape.tableOf mem root (d + 1) va = none := by
    rw [RadixShape.tableOf_succ_of_entryOf, entry]
    exact ended.resolve_left (by omega)
  rw [RadixShape.entryOf, RadixShape.tableOf_none_above cut above]
  rfl

theorem entryOf_of_table (reached : walkShape.tableOf mem root d va = some table) :
    walkShape.entryOf mem root d va = some (load64 mem (slotAt table (walkShape.index d va))) := by
  rw [RadixShape.entryOf, reached]
  rfl

theorem tableOf_of_branch (entry : walkShape.entryOf mem root d va = some e) (present : e &&& 1 ≠ 0)
    (branch : e &&& kPageSizeBit = 0) : walkShape.tableOf mem root (d + 1) va = some (tableBase e) := by
  rw [RadixShape.tableOf_succ_of_entryOf, entry]
  exact next_of_branch present branch

theorem TableInv.viewOf_absent (tables : TableInv mem root held)
    (entry : walkShape.entryOf mem root d va = some e) (level : d ≤ 3) (absent : e &&& 1 = 0) :
    viewOf mem root va = none := by
  rw [tables.viewOf_eq, leafBelow_last entry level (.inr (next_of_absent absent)),
    if_neg fun leaf => leaf.2.1 absent]
  rfl

theorem TableInv.viewOf_leaf (tables : TableInv mem root held)
    (entry : walkShape.entryOf mem root d va = some e) (level : 0 < d ∧ d ≤ 3) (leaf : isLeaf d e) :
    viewOf mem root va = some (leafView va d e) := by
  have ended : d = 3 ∨ walkShape.next e = none := leaf.2.imp id next_of_large
  rw [tables.viewOf_eq, leafBelow_last entry level.2 ended, if_pos ⟨level.1, leaf⟩]
  rfl

theorem mmGetPageAddr_eq (tables : TableInv mem root held) (base : tableBase root = root) :
    mmGetPageAddr root va mem =
      ((viewOf mem root va).map fun view => view.frame ||| (va &&& kPageMask)).getD 0 := by
  have leaf {d : Nat} {e : UIntPtr} (entry : walkShape.entryOf mem root d va = some e)
      (level : 0 < d ∧ d ≤ 3) (leaf : isLeaf d e) :
      ((viewOf mem root va).map fun view => view.frame ||| (va &&& kPageMask)).getD 0 =
        (e &&& kAddrMask &&& ~~~(1#64 <<< (39 - 9 * d) - 1#64)) |||
          (va &&& (1#64 <<< (39 - 9 * d) - 1#64)) := by
    rw [tables.viewOf_leaf entry level leaf]
    exact leafFrame_or level
  unfold mmGetPageAddr
  dsimp only
  rw [base]
  rw [show pageIndex va 39 = walkShape.index 0 va from rfl, show pageIndex va 30 = walkShape.index 1 va
    from rfl, show pageIndex va 21 = walkShape.index 2 va from rfl,
    show pageIndex va 12 = walkShape.index 3 va from rfl]
  have entry₀ : walkShape.entryOf mem root 0 va = _ := entryOf_of_table rfl
  generalize load64 mem (slotAt root (walkShape.index 0 va)) = e₀ at entry₀ ⊢
  by_cases absent₀ : e₀ &&& 1 = 0
  · rw [if_pos absent₀, tables.viewOf_absent entry₀ (by omega) absent₀]
    rfl
  have branch₀ : e₀ &&& kPageSizeBit = 0 := by
    by_contra large
    exact tables.top va _ entry₀ ⟨absent₀, .inr large⟩
  have entry₁ := entryOf_of_table (tableOf_of_branch entry₀ absent₀ branch₀)
  rw [if_neg absent₀]
  generalize load64 mem (slotAt (tableBase e₀) (walkShape.index (0 + 1) va)) = e₁ at entry₁ ⊢
  by_cases absent₁ : e₁ &&& 1 = 0
  · rw [if_pos absent₁, tables.viewOf_absent entry₁ (by omega) absent₁]
    rfl
  rw [if_neg absent₁]
  by_cases large₁ : e₁ &&& kPageSizeBit ≠ 0
  · rw [if_pos large₁, leaf entry₁ (by omega) ⟨absent₁, .inr large₁⟩]
  have entry₂ := entryOf_of_table (tableOf_of_branch entry₁ absent₁ (not_not.mp large₁))
  rw [if_neg large₁]
  generalize load64 mem (slotAt (tableBase e₁) (walkShape.index (0 + 1 + 1) va)) = e₂ at entry₂ ⊢
  by_cases absent₂ : e₂ &&& 1 = 0
  · rw [if_pos absent₂, tables.viewOf_absent entry₂ (by omega) absent₂]
    rfl
  rw [if_neg absent₂]
  by_cases large₂ : e₂ &&& kPageSizeBit ≠ 0
  · rw [if_pos large₂, leaf entry₂ (by omega) ⟨absent₂, .inr large₂⟩]
  have entry₃ := entryOf_of_table (tableOf_of_branch entry₂ absent₂ (not_not.mp large₂))
  rw [if_neg large₂]
  generalize load64 mem (slotAt (tableBase e₂) (walkShape.index (0 + 1 + 1 + 1) va)) = e₃ at entry₃ ⊢
  by_cases absent₃ : e₃ &&& 1 = 0
  · rw [if_pos absent₃, tables.viewOf_absent entry₃ (by omega) absent₃]
    rfl
  · rw [if_neg absent₃, tables.viewOf_leaf entry₃ (by omega) ⟨absent₃, .inl rfl⟩]
    exact congrArg (· ||| (va &&& kPageMask)) leafFrame_last.symm

end Lookup

section Fields
variable {j off width : Nat} {pte pa v : UIntPtr} {flags : BitVec 32}

theorem PTE.set_getLsbD (narrow : width < 64) (bound : j < 64) :
    (PTE.set off width v pte).getLsbD j =
      if off ≤ j ∧ j < off + width then v.getLsbD (j - off) else pte.getLsbD j := by
  unfold PTE.set
  dsimp only
  simp only [BitVec.getLsbD_or, BitVec.getLsbD_and, BitVec.getLsbD_not, BitVec.getLsbD_shiftLeft,
    lowMask_getLsbD narrow]
  by_cases below : j < off
  · have outside : ¬ (off ≤ j ∧ j < off + width) := by omega
    simp [below, outside, bound]
  · by_cases above : j < off + width
    · have inside : j - off < width := by omega
      have range : off ≤ j ∧ j < off + width := by omega
      simp [below, inside, range, bound]
    · have inside : ¬ j - off < width := by omega
      have range : ¬ (off ≤ j ∧ j < off + width) := by omega
      simp [below, inside, range, bound]

theorem make_present (set : flags &&& kMMFlagsPresent ≠ 0) : PTE.make pa flags &&& 1 ≠ 0 := by
  rw [and_one_ne_zero]
  unfold PTE.make
  dsimp only
  rw [PTE.set_getLsbD, if_neg, PTE.set_getLsbD, if_neg, PTE.set_getLsbD, if_neg, PTE.set_getLsbD, if_neg,
    PTE.set_getLsbD, if_neg, PTE.set_getLsbD, if_neg, PTE.set_getLsbD, if_pos]
  · rw [show PTE.flag flags kMMFlagsPresent = 1 from if_pos set]
    decide
  all_goals omega

theorem make_frame (aligned : pa &&& (BitVec.ofNat 64 kPageSize - 1) = 0) (below : pa.toNat < 2 ^ 52) :
    PTE.make pa flags &&& kAddrMask = pa := by
  apply BitVec.eq_of_getLsbD_eq
  intro j bound
  rw [BitVec.getLsbD_and, kAddrMask_getLsbD bound]
  by_cases inside : 12 ≤ j ∧ j < 52
  · have address : (PTE.make pa flags).getLsbD j = pa.getLsbD j := by
      unfold PTE.make
      dsimp only
      rw [PTE.set_getLsbD (by omega) bound, if_pos (by omega), BitVec.getLsbD_ushiftRight]
      congr 1
      omega
    simp [address, inside]
  · have clear : pa.getLsbD j = false := by
      by_cases low : j < 12
      · have bit := congrArg (fun word => word.getLsbD j) aligned
        have mask : BitVec.ofNat 64 kPageSize - 1 = kPageMask := by decide
        simp only [mask, BitVec.getLsbD_and, kPageMask_getLsbD, low, decide_true, Bool.and_true] at bit
        simpa using bit
      · have power : 2 ^ 52 ≤ 2 ^ j := Nat.pow_le_pow_right (by omega) (by omega)
        exact Nat.testBit_lt_two_pow (by omega)
    simp [clear, inside]

end Fields

section Operations
variable {root va pa slot frame table v : UIntPtr} {flags : BitVec 32} {σ τ : PmmState}

theorem PageInv.assign (inv : PageInv root τ) (reached : walkShape.tableOf τ.mem root 3 va = some table)
    (opened : Opened τ.mem root va 3) (v : UIntPtr) :
    PageInv root (τ.store (slotAt table (walkShape.index 3 va)) v) ∧
    (∀ a, pageNumber a ≠ pageNumber va →
      viewOf (τ.store (slotAt table (walkShape.index 3 va)) v).mem root a = viewOf τ.mem root a) ∧
    ∀ a, pageNumber a = pageNumber va →
      viewOf (τ.store (slotAt table (walkShape.index 3 va)) v).mem root a =
        if v &&& 1 ≠ 0 then some (leafView a 3 v) else none := by
  obtain ⟨total, held, free, owned, tables⟩ := inv
  obtain ⟨after, others, here⟩ := tables.assign reached (fun k e below => opened k e below) rfl
  refine ⟨⟨total, held, free, ?_, after⟩, fun a other => ?_, fun a same => ?_⟩
  · refine owned.rewrite_held fun x none => store64_outside fun inSlot => ?_
    exact none table (tables.held 3 va table le_rfl reached) (RadixShape.within_table inSlot)
  · exact others a fun same => other (same_iff_pageNumber.mp same)
  · have entry := here a (same_iff_pageNumber.mpr same)
    split
    · rename_i present
      exact after.viewOf_leaf entry (by omega) ⟨present, .inl rfl⟩
    · rename_i absent
      exact after.viewOf_absent entry le_rfl (not_not.mp absent)

theorem mmMapPageIn_spec (inv : PageInv root σ) (va pa : UIntPtr) (flags : BitVec 32) :
    PageInv root (mmMapPageIn root va pa flags σ).2 ∧
    (∀ a, pageNumber a ≠ pageNumber va →
      viewOf (mmMapPageIn root va pa flags σ).2.mem root a = viewOf σ.mem root a) ∧
    ((mmMapPageIn root va pa flags σ).1 = kErrorSuccess → ∀ a, pageNumber a = pageNumber va →
      viewOf (mmMapPageIn root va pa flags σ).2.mem root a =
        if PTE.make pa flags &&& 1 ≠ 0 then some (leafView a 3 (PTE.make pa flags)) else none) := by
  have failed : kErrorInvalidData ≠ kErrorSuccess := by decide
  unfold mmMapPageIn
  by_cases null : pa = 0
  · rw [if_pos null]
    exact ⟨inv, fun _ _ => rfl, fun success => absurd success failed⟩
  rw [if_neg null]
  by_cases unaligned : pa &&& (BitVec.ofNat 64 kPageSize - 1) ≠ 0
  · rw [if_pos unaligned]
    exact ⟨inv, fun _ _ => rfl, fun success => absurd success failed⟩
  rw [if_neg unaligned]
  obtain ⟨walkInv, views, found, progress⟩ := mmWalkPage_walked inv va true
  cases walk : mmWalkPage root va true σ with
  | mk slot τ =>
      rw [walk] at walkInv views found
      dsimp only at *
      by_cases none : slot = 0
      · rw [if_pos none]
        exact ⟨walkInv, fun a _ => views a, fun success => absurd success failed⟩
      · obtain ⟨table, reached, rfl, opened⟩ := found.resolve_left none
        obtain ⟨after, others, here⟩ := walkInv.assign reached opened (PTE.make pa flags)
        rw [if_neg none]
        exact ⟨after, fun a other => (others a other).trans (views a), fun _ => here⟩

theorem mmMapPageIn_success (inv : PageInv root σ) (va : UIntPtr) (flags : BitVec 32) (nonnull : pa ≠ 0)
    (aligned : pa &&& (BitVec.ofNat 64 kPageSize - 1) = 0) (room : 3 ≤ σ.kPmmFree.toNat) :
    (mmMapPageIn root va pa flags σ).1 = kErrorSuccess := by
  have reached := (mmWalkPage_walked inv va true).progress rfl room
  unfold mmMapPageIn
  rw [if_neg nonnull, if_neg (not_not.mpr aligned)]
  cases walk : mmWalkPage root va true σ with
  | mk slot τ =>
      rw [walk] at reached
      simp only [if_neg reached]

theorem mmUnmapPage_spec (inv : PageInv root σ) (va : UIntPtr) :
    PageInv root (mmUnmapPage root va σ).2 ∧
    (∀ a, pageNumber a ≠ pageNumber va →
      viewOf (mmUnmapPage root va σ).2.mem root a = viewOf σ.mem root a) ∧
    (((mmUnmapPage root va σ).1 = 0 ∧
        ∀ a, viewOf (mmUnmapPage root va σ).2.mem root a = viewOf σ.mem root a) ∨
      ∀ a, pageNumber a = pageNumber va → viewOf (mmUnmapPage root va σ).2.mem root a = none ∧
        ∃ view, viewOf σ.mem root a = some view ∧ view.frame = (mmUnmapPage root va σ).1) := by
  unfold mmUnmapPage
  obtain ⟨walkInv, views, found, -⟩ := mmWalkPage_walked inv va false
  cases walk : mmWalkPage root va false σ with
  | mk slot τ =>
      rw [walk] at walkInv views found
      dsimp only at *
      by_cases none : slot = 0 ∨ load64 τ.mem slot &&& 1 = 0
      · rw [if_pos none]
        exact ⟨walkInv, fun a _ => views a, .inl ⟨rfl, views⟩⟩
      · obtain ⟨table, reached, rfl, opened⟩ := found.resolve_left fun null => none (.inl null)
        have present := fun absent => none (.inr absent)
        obtain ⟨after, others, here⟩ := walkInv.assign reached opened 0
        rw [if_neg none]
        refine ⟨after, fun a other => (others a other).trans (views a), .inr fun a same => ⟨?_, ?_⟩⟩
        · rw [here a same, if_neg (by simp)]
        · obtain ⟨_, _, _, _, tables⟩ := walkInv
          have entry := entryOf_of_table reached
          rw [← RadixShape.entryOf_same (same_iff_pageNumber.mpr same)] at entry
          refine ⟨_, (views a).symm.trans (tables.viewOf_leaf entry (by omega) ⟨present, .inl rfl⟩), ?_⟩
          exact leafFrame_last

end Operations

end Ne.Kernel.HAL
