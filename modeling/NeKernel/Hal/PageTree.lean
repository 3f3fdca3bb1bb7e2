import NeKernel.Hal.PagingMgr
import NeKernel.Hal.FrameOwnership

/-!
# The page tables as a tree

What the hardware reads off the four levels, and the invariant under which each step of
`mm_walk_page` keeps it: the tables form a tree of frames that are handed out, no large leaf sets
its PAT bit, and every table above a leaf allows what the leaf allows.
-/

namespace Ne.Kernel.HAL
open ByteMem

theorem walkIndex_lt (d : Nat) (va : UIntPtr) : (pageIndex va (39 - 9 * d)).toNat < 512 := by
  have mask : kMask9.toNat = 2 ^ 9 - 1 := by decide
  unfold pageIndex
  rw [BitVec.toNat_and, mask, Nat.and_two_pow_sub_one_eq_mod]
  omega

def walkShape : RadixShape UIntPtr where
  index d va := pageIndex va (39 - 9 * d)
  next e := if e &&& 1 ≠ 0 ∧ e &&& kPageSizeBit = 0 then some (tableBase e) else none
  small := walkIndex_lt

/-- The entry that ends a walk at depth `d`. -/
def isLeaf (d : Nat) (e : UIntPtr) : Prop := e &&& 1 ≠ 0 ∧ (d = 3 ∨ e &&& kPageSizeBit ≠ 0)

instance (d : Nat) (e : UIntPtr) : Decidable (isLeaf d e) := inferInstanceAs (Decidable (_ ∧ _))

def leafBelow (mem : Memory) (root va : UIntPtr) : Nat → Option (Nat × UIntPtr)
  | 0 => none
  | d + 1 =>
      match walkShape.entryOf mem root (d + 1) va with
      | some e => if isLeaf (d + 1) e then some (d + 1, e) else none
      | none => leafBelow mem root va d

structure PageView where
  frame : UIntPtr
  user : Bool
  write : Bool
  nx : Bool
  pwt : Bool
  pcd : Bool
  pat : Bool
  deriving DecidableEq

def leafFrame (d : Nat) (e va : UIntPtr) : UIntPtr :=
  let offset := (1#64 <<< (39 - 9 * d)) - 1#64
  (e &&& kAddrMask &&& ~~~offset) ||| (va &&& offset &&& ~~~kPageMask)

/-- A right holds for a page when every entry down to its leaf grants it. -/
def granted (mem : Memory) (root va : UIntPtr) (d bit : Nat) : Bool :=
  (List.range (d + 1)).all fun k => ((walkShape.entryOf mem root k va).map (·.getLsbD bit)).getD false

def viewOf (mem : Memory) (root va : UIntPtr) : Option PageView :=
  (leafBelow mem root va 3).map fun (d, e) =>
    { frame := leafFrame d e va
      user := granted mem root va d 2
      write := granted mem root va d 1
      nx := e.getLsbD 63
      pwt := e.getLsbD 3
      pcd := e.getLsbD 4
      pat := if d = 3 then e.getLsbD 7 else e.getLsbD 12 }

structure TableInv (mem : Memory) (root : UIntPtr) (held : List UIntPtr) : Prop where
  separate : walkShape.Separate mem root 3
  held : ∀ d va t, d ≤ 3 → walkShape.tableOf mem root d va = some t → t ∈ held
  top : ∀ va e, walkShape.entryOf mem root 0 va = some e → ¬ isLeaf 0 e
  pat : ∀ d va e, d < 3 → walkShape.entryOf mem root d va = some e → isLeaf d e →
    e.getLsbD 12 = false
  permissive : ∀ k d va e e', k < d → d ≤ 3 → walkShape.entryOf mem root d va = some e →
    isLeaf d e → walkShape.entryOf mem root k va = some e' →
    (e.getLsbD 2 = true → e'.getLsbD 2 = true) ∧ (e.getLsbD 1 = true → e'.getLsbD 1 = true)

/-- The view of a page as its leaf alone gives it. -/
def leafView (va : UIntPtr) (d : Nat) (e : UIntPtr) : PageView where
  frame := leafFrame d e va
  user := e.getLsbD 2
  write := e.getLsbD 1
  nx := e.getLsbD 63
  pwt := e.getLsbD 3
  pcd := e.getLsbD 4
  pat := if d = 3 then e.getLsbD 7 else e.getLsbD 12

section Views
variable {mem mem' : Memory} {root va e : UIntPtr} {held : List UIntPtr} {d n : Nat}

theorem leafBelow_some (found : leafBelow mem root va n = some (d, e)) :
    0 < d ∧ d ≤ n ∧ walkShape.entryOf mem root d va = some e ∧ isLeaf d e := by
  induction n with
  | zero => cases found
  | succ n ih =>
      rw [leafBelow] at found
      cases entry : walkShape.entryOf mem root (n + 1) va with
      | none =>
          rw [entry] at found
          obtain ⟨positive, le, rest⟩ := ih found
          exact ⟨positive, by omega, rest⟩
      | some e' =>
          rw [entry] at found
          dsimp only at found
          split at found
          · rename_i leaf
            cases found
            exact ⟨by omega, le_rfl, entry, leaf⟩
          · cases found

theorem leafBelow_at (entry : walkShape.entryOf mem root d va = some e)
    (last : ∀ k, d < k → k ≤ n → walkShape.entryOf mem root k va = none) (le : d ≤ n) :
    leafBelow mem root va n = if 0 < d ∧ isLeaf d e then some (d, e) else none := by
  induction n with
  | zero =>
      obtain rfl : d = 0 := by omega
      simp [leafBelow]
  | succ n ih =>
      rw [leafBelow]
      rcases Nat.lt_or_eq_of_le le with less | rfl
      · rw [last (n + 1) less le_rfl]
        exact ih (fun k above bound => last k above (by omega)) (by omega)
      · simp [entry]

theorem leafBelow_congr (same : ∀ k, 0 < k → k ≤ n →
      walkShape.entryOf mem' root k va = walkShape.entryOf mem root k va ∨
      ∃ e₁ e₂, walkShape.entryOf mem root k va = some e₁ ∧ walkShape.entryOf mem' root k va = some e₂ ∧
        ¬ isLeaf k e₁ ∧ ¬ isLeaf k e₂) :
    leafBelow mem' root va n = leafBelow mem root va n := by
  induction n with
  | zero => rfl
  | succ n ih =>
      have rest := ih fun k positive le => same k positive (by omega)
      rw [leafBelow, leafBelow]
      rcases same (n + 1) (by omega) le_rfl with one | ⟨e₁, e₂, before, after, leaf, leaf'⟩
      · rw [one, rest]
      · simp only [before, after, if_neg leaf, if_neg leaf']

theorem granted_eq_leaf {bit : Nat} (entry : walkShape.entryOf mem root d va = some e)
    (allowed : ∀ k e', k < d → walkShape.entryOf mem root k va = some e' →
      e.getLsbD bit = true → e'.getLsbD bit = true) :
    granted mem root va d bit = e.getLsbD bit := by
  unfold granted
  cases right : e.getLsbD bit with
  | false =>
      rw [List.all_eq_false]
      exact ⟨d, by simp, by simp [entry, right]⟩
  | true =>
      rw [List.all_eq_true]
      intro k member
      rcases Nat.lt_succ_iff_lt_or_eq.mp (List.mem_range.mp member) with below | rfl
      · obtain ⟨t, reached, -⟩ := RadixShape.entryOf_some entry
        obtain ⟨t', above⟩ := RadixShape.tableOf_of_above reached (Nat.le_of_lt below)
        have found : walkShape.entryOf mem root k va =
            some (load64 mem (slotAt t' (walkShape.index k va))) := by
          rw [RadixShape.entryOf, above]
          rfl
        simpa [found] using allowed k _ below found right
      · simp [entry, right]

theorem TableInv.viewOf_eq (inv : TableInv mem root held) (va : UIntPtr) :
    viewOf mem root va = (leafBelow mem root va 3).map fun (d, e) => leafView va d e := by
  unfold viewOf
  cases found : leafBelow mem root va 3 with
  | none => rfl
  | some leaf =>
      obtain ⟨d, e⟩ := leaf
      obtain ⟨-, le, entry, leaf⟩ := leafBelow_some found
      have user : granted mem root va d 2 = e.getLsbD 2 := granted_eq_leaf entry
        fun k e' below found => (inv.permissive k d va e e' below le entry leaf found).1
      have write : granted mem root va d 1 = e.getLsbD 1 := granted_eq_leaf entry
        fun k e' below found => (inv.permissive k d va e e' below le entry leaf found).2
      simp only [Option.map_some, leafView, user, write]

end Views

section Entries
variable {e f x c mask : UIntPtr} {d : Nat}

theorem or_mask (apart : c &&& mask = 0) : (x ||| c) &&& mask = x &&& mask := by
  rw [BitVec.and_or_distrib_right, apart]
  simp

theorem or_present (bit : c &&& 1 = 1) : (x ||| c) &&& 1 ≠ 0 := by
  rw [BitVec.and_or_distrib_right, bit]
  intro zero
  have low := congrArg (fun word => word.getLsbD 0) zero
  simp at low

theorem tableBase_aligned (aligned : f.toNat % kPageSize = 0) (low : c &&& ~~~kPageMask = 0) :
    tableBase (f ||| c) = f := by
  unfold tableBase
  rw [or_mask low]
  apply BitVec.eq_of_toNat_eq
  rw [show kPageMask = kPmmAlign by decide, and_not_kPmmAlign, aligned, Nat.sub_zero]

theorem aligned_page_bit (aligned : f.toNat % kPageSize = 0) : f &&& kPageSizeBit = 0 := by
  have mask : kPageSizeBit = kPageSizeBit &&& kPmmAlign := by decide
  have low : f &&& kPmmAlign = 0 := by
    apply BitVec.eq_of_toNat_eq
    rw [and_kPmmAlign, aligned]
    rfl
  rw [mask, ← BitVec.and_assoc, BitVec.and_comm f, BitVec.and_assoc, low]
  simp

theorem next_of_branch (present : e &&& 1 ≠ 0) (branch : e &&& kPageSizeBit = 0) :
    walkShape.next e = some (tableBase e) := if_pos ⟨present, branch⟩

theorem next_of_absent (absent : e &&& 1 = 0) : walkShape.next e = none :=
  if_neg fun branch => branch.1 absent

theorem next_of_large (large : e &&& kPageSizeBit ≠ 0) : walkShape.next e = none :=
  if_neg fun branch => large branch.2

theorem not_leaf_of_next {t : UIntPtr} (next : walkShape.next e = some t) (inner : d < 3) :
    ¬ isLeaf d e := by
  rintro ⟨-, last⟩
  simp only [walkShape] at next
  split at next
  · rename_i branch
    rcases last with rfl | large
    · omega
    · exact large branch.2
  · cases next

theorem next_link (aligned : f.toNat % kPageSize = 0) (present : c &&& 1 = 1)
    (small : c &&& kPageSizeBit = 0) (low : c &&& ~~~kPageMask = 0) :
    walkShape.next (f ||| c) = some f := by
  rw [next_of_branch (or_present present) (by rw [or_mask small, aligned_page_bit aligned]),
    tableBase_aligned aligned low]

end Entries

section Steps
variable {mem mem' : Memory} {root va table e f v : UIntPtr} {held : List UIntPtr} {d : Nat}

theorem updates_store (level : d ≤ 3) (reached : walkShape.tableOf mem root d va = some table) :
    walkShape.Updates mem (store64 mem (slotAt table (walkShape.index d va)) v) root 3 d va table 0 0 where
  level := level
  reached := reached
  outside _ outside _ := store64_outside outside
  spare _ _ _ _ _ _ _ none := absurd none (Nat.not_lt_zero _)

theorem TableInv.widen (inv : TableInv mem root held) (level : d < 3)
    (reached : walkShape.tableOf mem root d va = some table)
    (entry : e = load64 mem (slotAt table (walkShape.index d va)))
    (present : e &&& 1 ≠ 0) (branch : e &&& kPageSizeBit = 0)
    (written : mem' = store64 mem (slotAt table (walkShape.index d va)) (e ||| kTablePerm)) :
    TableInv mem' root held ∧ (∀ a, viewOf mem' root a = viewOf mem root a) ∧
      walkShape.next (e ||| kTablePerm) = walkShape.next e := by
  have up := updates_store (v := e ||| kTablePerm) (Nat.le_of_lt level) reached
  rw [← written] at up
  have now : load64 mem' (slotAt table (walkShape.index d va)) = e ||| kTablePerm := by
    rw [written, load64_store64_same]
  have nextNew : walkShape.next (e ||| kTablePerm) = some (tableBase e) := by
    rw [next_of_branch (or_present (by decide)) (by rw [or_mask (by decide), branch])]
    unfold tableBase
    rw [or_mask (by decide)]
  have nextOld := next_of_branch present branch
  have keeps : d < 3 → walkShape.next (load64 mem' (slotAt table (walkShape.index d va))) =
      walkShape.next (load64 mem (slotAt table (walkShape.index d va))) := by
    rw [now, ← entry, nextNew, nextOld]
    exact fun _ => rfl
  have tables := fun k a hk => RadixShape.tableOf_relabel inv.separate up keeps (d := k) (a := a) hk
  have notLeaf := not_leaf_of_next nextNew level
  have after : TableInv mem' root held := by
    refine ⟨inv.separate.relabel up keeps, ?_, ?_, ?_, ?_⟩
    · intro k a t hk found
      rw [tables k a hk] at found
      exact inv.held k a t hk found
    · intro a e' found
      rcases RadixShape.entryOf_relabel_cases inv.separate up keeps (by omega) found with
        ⟨old, -⟩ | ⟨rfl, -, rfl⟩
      · exact inv.top a e' old
      · rw [now]
        exact notLeaf
    · intro k a e' hk found leaf
      rcases RadixShape.entryOf_relabel_cases inv.separate up keeps (by omega) found with
        ⟨old, -⟩ | ⟨rfl, -, rfl⟩
      · exact inv.pat k a e' hk old leaf
      · exact absurd (now ▸ leaf) notLeaf
    · intro j k a e₁ e₂ below hk found leaf above
      rcases RadixShape.entryOf_relabel_cases inv.separate up keeps hk found with
        ⟨old, -⟩ | ⟨rfl, -, rfl⟩
      · rcases RadixShape.entryOf_relabel_cases inv.separate up keeps (by omega) above with
          ⟨old', -⟩ | ⟨rfl, -, rfl⟩
        · exact inv.permissive j k a e₁ e₂ below hk old leaf old'
        · rw [now]
          constructor <;> intro _ <;> simp [kTablePerm]
      · exact absurd (now ▸ leaf) notLeaf
  refine ⟨after, fun a => ?_, nextNew.trans nextOld.symm⟩
  rw [after.viewOf_eq, inv.viewOf_eq, leafBelow_congr fun k _ hk => ?_]
  by_cases here : k = d ∧ walkShape.Same (d + 1) a va
  · obtain ⟨rfl, same⟩ := here
    refine .inr ⟨e, e ||| kTablePerm, ?_, ?_, not_leaf_of_next nextOld level, notLeaf⟩
    · rw [RadixShape.entryOf_same same, RadixShape.entryOf, reached, entry]
      rfl
    · rw [RadixShape.entryOf_updated inv.separate up same, now]
  · exact .inl (RadixShape.entryOf_relabel inv.separate up keeps hk here)

theorem TableInv.assign (inv : TableInv mem root held)
    (reached : walkShape.tableOf mem root 3 va = some table)
    (opened : ∀ k e', k < 3 → walkShape.entryOf mem root k va = some e' →
      e'.getLsbD 2 = true ∧ e'.getLsbD 1 = true)
    (written : mem' = store64 mem (slotAt table (walkShape.index 3 va)) v) :
    TableInv mem' root held ∧
    (∀ a, ¬ walkShape.Same 4 a va → viewOf mem' root a = viewOf mem root a) ∧
    ∀ a, walkShape.Same 4 a va → walkShape.entryOf mem' root 3 a = some v := by
  have up := updates_store (v := v) le_rfl reached
  rw [← written] at up
  have now : load64 mem' (slotAt table (walkShape.index 3 va)) = v := by
    rw [written, load64_store64_same]
  have keeps : 3 < 3 → walkShape.next (load64 mem' (slotAt table (walkShape.index 3 va))) =
      walkShape.next (load64 mem (slotAt table (walkShape.index 3 va))) :=
    fun less => absurd less (Nat.lt_irrefl 3)
  have after : TableInv mem' root held := by
    refine ⟨inv.separate.relabel up keeps, ?_, ?_, ?_, ?_⟩
    · intro k a t hk found
      rw [RadixShape.tableOf_relabel inv.separate up keeps hk] at found
      exact inv.held k a t hk found
    · intro a e' found
      rw [RadixShape.entryOf_relabel inv.separate up keeps (by omega) (by omega)] at found
      exact inv.top a e' found
    · intro k a e' hk found leaf
      rw [RadixShape.entryOf_relabel inv.separate up keeps (by omega) (by omega)] at found
      exact inv.pat k a e' hk found leaf
    · intro j k a e₁ e₂ below hk found leaf above
      rw [RadixShape.entryOf_relabel inv.separate up keeps (by omega) (by omega)] at above
      rcases RadixShape.entryOf_relabel_cases inv.separate up keeps hk found with
        ⟨old, -⟩ | ⟨rfl, same, -⟩
      · exact inv.permissive j k a e₁ e₂ below hk old leaf above
      · rw [RadixShape.entryOf_same (same.mono (by omega))] at above
        obtain ⟨user, write⟩ := opened j e₂ below above
        exact ⟨fun _ => user, fun _ => write⟩
  refine ⟨after, fun a other => ?_, fun a same => ?_⟩
  · rw [after.viewOf_eq, inv.viewOf_eq, leafBelow_congr fun k _ hk => .inl ?_]
    exact RadixShape.entryOf_relabel inv.separate up keeps hk fun ⟨_, same⟩ => other same
  · rw [RadixShape.entryOf_updated inv.separate up same, now]

end Steps

section Graft
variable {mem mem' : Memory} {root va table f link : UIntPtr} {held : List UIntPtr} {d : Nat}
  {value : UIntPtr → UIntPtr}

/-- Hanging a fresh page of entries `value` below the entry `va` selects at depth `d`. -/
structure Grafted (mem mem' : Memory) (root va table f link : UIntPtr) (d : Nat)
    (value : UIntPtr → UIntPtr) : Prop where
  updates : walkShape.Updates mem mem' root 3 d va table f 4096
  inner : d < 3
  entry : load64 mem' (slotAt table (walkShape.index d va)) = link
  linked : walkShape.next link = some f
  filled : ∀ a, load64 mem' (slotAt f (walkShape.index (d + 1) a)) = value (walkShape.index (d + 1) a)
  ends : d + 1 < 3 → ∀ a, walkShape.next (value (walkShape.index (d + 1) a)) = none
  pat : d + 1 < 3 → ∀ a, isLeaf (d + 1) (value (walkShape.index (d + 1) a)) →
    (value (walkShape.index (d + 1) a)).getLsbD 12 = false
  rights : ∀ a, isLeaf (d + 1) (value (walkShape.index (d + 1) a)) → ∀ bit ∈ [2, 1],
    (value (walkShape.index (d + 1) a)).getLsbD bit = true → link.getLsbD bit = true ∧
    ∀ k e, k < d → walkShape.entryOf mem root k va = some e → e.getLsbD bit = true

section
variable (inv : TableInv mem root held) (grafted : Grafted mem mem' root va table f link d value)

include grafted

theorem Grafted.leads : walkShape.next (load64 mem' (slotAt table (walkShape.index d va))) = some f := by
  rw [grafted.entry, grafted.linked]

theorem Grafted.leaves : d + 1 < 3 → ∀ a,
    walkShape.next (load64 mem' (slotAt f (walkShape.index (d + 1) a))) = none := by
  intro less a
  rw [grafted.filled, grafted.ends less a]

include inv

theorem Grafted.entryOf_cases {k : Nat} {a e : UIntPtr} (level : k ≤ 3)
    (found : walkShape.entryOf mem' root k a = some e) :
    (walkShape.entryOf mem root k a = some e ∧ ¬ (d ≤ k ∧ walkShape.Same (d + 1) a va)) ∨
    (k = d ∧ walkShape.Same (d + 1) a va ∧ e = link) ∨
    (k = d + 1 ∧ walkShape.Same (d + 1) a va ∧ e = value (walkShape.index (d + 1) a)) := by
  have cases := RadixShape.entryOf_graft_cases inv.separate grafted.updates (grafted.leads)
    (grafted.leaves) level found
  rwa [grafted.entry, grafted.filled] at cases

theorem TableInv.graft : TableInv mem' root (f :: held) := by
  have sep := inv.separate
  have notLeaf : ¬ isLeaf d link := not_leaf_of_next grafted.linked grafted.inner
  refine ⟨sep.graft grafted.updates (grafted.leads) (grafted.leaves), ?_, ?_, ?_, ?_⟩
  · intro k a t hk found
    rcases RadixShape.tableOf_graft_cases sep grafted.updates (grafted.leads) (grafted.leaves) hk
      found with ⟨old, -⟩ | ⟨-, -, rfl⟩
    · exact List.mem_cons_of_mem _ (inv.held k a t hk old)
    · exact List.mem_cons_self ..
  · intro a e found
    rcases grafted.entryOf_cases inv (by omega) found with ⟨old, -⟩ | ⟨rfl, -, rfl⟩ | ⟨impossible, -, -⟩
    · exact inv.top a e old
    · exact notLeaf
    · omega
  · intro k a e hk found leaf
    rcases grafted.entryOf_cases inv (by omega) found with ⟨old, -⟩ | ⟨rfl, -, rfl⟩ | ⟨rfl, -, rfl⟩
    · exact inv.pat k a e hk old leaf
    · exact absurd leaf notLeaf
    · exact grafted.pat hk a leaf
  · intro j k a e₁ e₂ below hk found leaf above
    rcases grafted.entryOf_cases inv hk found with ⟨old, off⟩ | ⟨rfl, -, rfl⟩ | ⟨rfl, same, rfl⟩
    · rcases grafted.entryOf_cases inv (by omega) above with ⟨old', -⟩ | ⟨rfl, same, -⟩ | ⟨rfl, same, -⟩
      · exact inv.permissive j k a e₁ e₂ below hk old leaf old'
      · exact absurd ⟨by omega, same⟩ off
      · exact absurd ⟨by omega, same⟩ off
    · exact absurd leaf notLeaf
    · have right (bit : Nat) (member : bit ∈ [2, 1])
          (set : (value (walkShape.index (d + 1) a)).getLsbD bit = true) : e₂.getLsbD bit = true := by
        obtain ⟨here, ancestors⟩ := grafted.rights a leaf bit member set
        rcases grafted.entryOf_cases inv (by omega) above with ⟨old, off⟩ | ⟨-, -, rfl⟩ | ⟨rfl, -, -⟩
        · have strictly : j < d := by
            by_contra reach
            exact off ⟨by omega, same⟩
          rw [RadixShape.entryOf_same (same.mono (by omega))] at old
          exact ancestors j e₂ strictly old
        · exact here
        · omega
      exact ⟨right 2 (by simp), right 1 (by simp)⟩

/-- The leaf of a page below the grafted table, in terms of the entries before and after. -/
theorem Grafted.leafBelow_same {a : UIntPtr} (same : walkShape.Same (d + 1) a va) :
    leafBelow mem' root a 3 = if isLeaf (d + 1) (value (walkShape.index (d + 1) a))
      then some (d + 1, value (walkShape.index (d + 1) a)) else none := by
  have entry := RadixShape.entryOf_graft inv.separate grafted.updates (grafted.leads) same
  rw [grafted.filled] at entry
  have inner := grafted.inner
  rw [leafBelow_at entry (fun k above le => ?_) (by omega)]
  · simp
  · rw [RadixShape.entryOf, RadixShape.tableOf_graft_below inv.separate grafted.updates (grafted.leads)
      (grafted.leaves) same above le]
    rfl

theorem Grafted.viewOf_other {a : UIntPtr} (off : ¬ walkShape.Same (d + 1) a va) :
    viewOf mem' root a = viewOf mem root a := by
  rw [(inv.graft grafted).viewOf_eq, inv.viewOf_eq, leafBelow_congr fun k _ hk => .inl ?_]
  exact RadixShape.entryOf_off_path inv.separate grafted.updates hk fun ⟨_, same⟩ => off same

/-- A graft in place of an entry that led nowhere keeps what the pages below it see, when the new
leaves show what the old entry showed. -/
theorem Grafted.viewOf_same {a e : UIntPtr}
    (before : load64 mem (slotAt table (walkShape.index d va)) = e) (ended : walkShape.next e = none)
    (shows : (if 0 < d ∧ isLeaf d e then some (leafView a d e) else none) =
      if isLeaf (d + 1) (value (walkShape.index (d + 1) a))
        then some (leafView a (d + 1) (value (walkShape.index (d + 1) a))) else none)
    (same : walkShape.Same (d + 1) a va) : viewOf mem' root a = viewOf mem root a := by
  have inner := grafted.inner
  have entry : walkShape.entryOf mem root d a = some e := by
    rw [RadixShape.entryOf_same same, RadixShape.entryOf, grafted.updates.reached, ← before]
    rfl
  have cut : walkShape.tableOf mem root (d + 1) a = none := by
    rw [RadixShape.tableOf_succ_of_entryOf, entry]
    exact ended
  have old : leafBelow mem root a 3 = if 0 < d ∧ isLeaf d e then some (d, e) else none := by
    refine leafBelow_at entry (fun k above _ => ?_) (by omega)
    rw [RadixShape.entryOf, RadixShape.tableOf_none_above cut above]
    rfl
  rw [(inv.graft grafted).viewOf_eq, inv.viewOf_eq, grafted.leafBelow_same inv same, old]
  split <;> split at shows <;> simp_all

end
end Graft

end Ne.Kernel.HAL
