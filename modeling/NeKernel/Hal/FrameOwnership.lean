import NeKernel.Hal.PhysicalMemory
import NeKernel.Lib.IntrusiveList
import NeKernel.Lib.Runs
import Mathlib.Data.List.Perm.Basic
import Mathlib.Data.List.Nodup

/-!
# Ownership of physical frames over a run

A run records the frames handed out and not given back. The invariant splits the frames below the
cursor into those and the chain of freed frames.
-/

namespace Ne.Kernel.HAL
open ByteMem Runs

structure FrameRun where
  state : PmmState
  held : List UIntPtr

inductive FrameCall
  | alloc
  | free (frame : UIntPtr)
  | write (mem : Memory)

/-- Nobody but the allocator writes to the frames of the region that are not handed out. -/
def SparesFreeFrames (r : FrameRun) (mem : Memory) : Prop :=
  ∀ x : UIntPtr, r.state.kPmmBase ≤ x → x < r.state.kPmmEnd →
    (∀ f ∈ r.held, ¬ Within f kPageSize x) → mem x = r.state.mem x

def FrameStep : FrameCall → FrameRun → FrameRun → Prop
  | .alloc, r, r' => r' = ⟨(pmmiAllocFrame r.state).2,
      if (pmmiAllocFrame r.state).1 = 0 then r.held else (pmmiAllocFrame r.state).1 :: r.held⟩
  | .free frame, r, r' => r' = ⟨pmmiFreeFrame frame r.state, r.held.erase frame⟩
  | .write mem, r, r' => SparesFreeFrames r mem ∧ r' = ⟨{ r.state with mem := mem }, r.held⟩

def bootFrames (mem : Memory) (base : UIntPtr) (sz : SizeT) : FrameRun :=
  ⟨pmmiInit base sz (pmmBoot mem), []⟩

/-- A page-aligned address the cursor has passed. -/
def IsFrame (σ : PmmState) (f : UIntPtr) : Prop :=
  f ≠ 0 ∧ f.toNat % kPageSize = 0 ∧ σ.kPmmBase.toNat ≤ f.toNat ∧ f.toNat < σ.kPmmCursor.toNat

structure FrameInv (total : Nat) (r : FrameRun) (free : List UIntPtr) : Prop where
  chain : Chain r.state.mem r.state.kPmmFreeHead free
  owned : (free ++ r.held).Nodup
  frames : ∀ f, f ∈ free ++ r.held ↔ IsFrame r.state f
  baseAligned : r.state.kPmmBase.toNat % kPageSize = 0
  cursorAligned : r.state.kPmmCursor.toNat % kPageSize = 0
  endAligned : r.state.kPmmEnd.toNat % kPageSize = 0
  started : r.state.kPmmBase.toNat ≤ r.state.kPmmCursor.toNat
  bounded : r.state.kPmmCursor.toNat ≤ r.state.kPmmEnd.toNat
  left : r.state.kPmmFree.toNat =
    free.length + (r.state.kPmmEnd.toNat - r.state.kPmmCursor.toNat) / kPageSize
  used : r.state.kPmmUsed.toNat = r.held.length
  balance : r.state.kPmmFree.toNat + r.state.kPmmUsed.toNat = total
  small : total < 2 ^ 64

section Calls
variable {σ : PmmState} {frame x : UIntPtr}

theorem and_kPmmAlign (a : UIntPtr) : (a &&& kPmmAlign).toNat = a.toNat % kPageSize := by
  have mask : kPmmAlign.toNat = 2 ^ 12 - 1 := by decide
  rw [BitVec.toNat_and, mask, Nat.and_two_pow_sub_one_eq_mod]
  rfl

theorem and_not_kPmmAlign (a : UIntPtr) :
    (a &&& ~~~kPmmAlign).toNat = a.toNat - a.toNat % kPageSize := by
  have parts : a = (a &&& ~~~kPmmAlign) + (a &&& kPmmAlign) := by
    have whole : ~~~kPmmAlign ||| kPmmAlign = BitVec.allOnes 64 := by decide
    have none : kPmmAlign &&& ~~~kPmmAlign = 0 := by decide
    have apart : (a &&& ~~~kPmmAlign) &&& (a &&& kPmmAlign) = 0 := by
      rw [BitVec.and_assoc, BitVec.and_comm (~~~kPmmAlign), BitVec.and_assoc a, none]
      simp
    rw [BitVec.add_eq_or_of_and_eq_zero _ _ apart, ← BitVec.and_or_distrib_left, whole,
      BitVec.and_allOnes]
  have low := and_kPmmAlign a
  have lowLe : a.toNat % kPageSize ≤ a.toNat := Nat.mod_le _ _
  have highLe : (a &&& ~~~kPmmAlign).toNat ≤ a.toNat := by
    rw [BitVec.toNat_and]
    exact Nat.and_le_left
  have sum := congrArg BitVec.toNat parts
  have ha := a.isLt
  rw [BitVec.toNat_add, low] at sum
  omega

theorem pmmiAllocFrame_cases (σ : PmmState) :
    (σ.kPmmFreeHead ≠ 0 ∧ pmmiAllocFrame σ = (σ.kPmmFreeHead, { σ with
      mem := rtSetMemory σ.kPmmFreeHead 0 kPageSize σ.mem
      kPmmFreeHead := load64 σ.mem σ.kPmmFreeHead
      kPmmFree := σ.kPmmFree - 1
      kPmmUsed := σ.kPmmUsed + 1 })) ∨
    (σ.kPmmFreeHead = 0 ∧ σ.kPmmCursor ≠ 0 ∧ σ.kPmmCursor < σ.kPmmEnd ∧
      pmmiAllocFrame σ = (σ.kPmmCursor, { σ with
        mem := rtSetMemory σ.kPmmCursor 0 kPageSize σ.mem
        kPmmCursor := σ.kPmmCursor + BitVec.ofNat 64 kPageSize
        kPmmFree := σ.kPmmFree - 1
        kPmmUsed := σ.kPmmUsed + 1 })) ∨
    (σ.kPmmFreeHead = 0 ∧ pmmiAllocFrame σ = (0, σ)) := by
  unfold pmmiAllocFrame pmmiTake
  by_cases listed : σ.kPmmFreeHead ≠ 0
  · exact .inl ⟨listed, by simp only [if_pos listed, if_neg listed]⟩
  · by_cases room : σ.kPmmCursor ≠ 0 ∧ σ.kPmmCursor < σ.kPmmEnd
    · exact .inr (.inl ⟨not_not.mp listed, room.1, room.2, by
        simp only [if_neg listed, if_pos room, if_neg room.1]⟩)
    · exact .inr (.inr ⟨not_not.mp listed, by simp only [if_neg listed, if_neg room, if_true]⟩)

theorem pmmiFreeFrame_cases (frame : UIntPtr) (σ : PmmState) :
    (¬ IsFrame σ frame ∧ pmmiFreeFrame frame σ = σ) ∨
    (IsFrame σ frame ∧ pmmiFreeFrame frame σ = { σ with
      mem := store64 σ.mem frame σ.kPmmFreeHead
      kPmmFreeHead := frame
      kPmmFree := σ.kPmmFree + 1
      kPmmUsed := σ.kPmmUsed - 1 }) := by
  have aligned : frame &&& kPmmAlign ≠ 0 ↔ frame.toNat % kPageSize ≠ 0 := by
    rw [← and_kPmmAlign, ne_eq, ← BitVec.toNat_inj]
    rfl
  unfold pmmiFreeFrame IsFrame
  by_cases bad : frame = 0 ∨ frame &&& kPmmAlign ≠ 0
  · exact .inl ⟨by rw [aligned] at bad; tauto, if_pos bad⟩
  · rw [if_neg bad]
    rw [aligned, not_or, not_not] at bad
    by_cases outside : frame < σ.kPmmBase ∨ frame ≥ σ.kPmmCursor
    · exact .inl ⟨by bv_omega, if_pos outside⟩
    · exact .inr ⟨⟨bad.1, bad.2, by bv_omega, by bv_omega⟩, if_neg outside⟩

theorem rtSetMemory_zero {mem : Memory} {n : Nat} (nonnull : frame ≠ 0) (inside : Within frame n x) :
    rtSetMemory frame 0 n mem x = 0 := by
  unfold rtSetMemory
  rw [if_neg nonnull, write, List.getD_replicate _ inside]
  rfl

theorem rtSetMemory_outside {mem : Memory} {value : BitVec 32} {n : Nat}
    (outside : ¬ Within frame n x) : rtSetMemory frame value n mem x = mem x := by
  unfold rtSetMemory
  split
  · rfl
  · exact write_outside (by simpa using outside)

theorem frames_apart {f g : UIntPtr} (hf : f.toNat % kPageSize = 0) (hg : g.toNat % kPageSize = 0)
    (distinct : f ≠ g) : Apart f kPageSize g kPageSize := by
  have apart : f.toNat ≠ g.toNat := fun same => distinct (BitVec.eq_of_toNat_eq same)
  unfold kPageSize at *
  have fitsF : f.toNat + 4096 ≤ 2 ^ 64 := by have := f.isLt; omega
  have fitsG : g.toNat + 4096 ≤ 2 ^ 64 := by have := g.isLt; omega
  rcases Nat.lt_or_gt_of_ne apart with before | after
  · exact Apart.of_le fitsG (by omega)
  · exact (Apart.of_le fitsF (by omega)).symm

end Calls

section Steps
variable {total : Nat} {r r' : FrameRun} {free : List UIntPtr} {frame : UIntPtr}

theorem FrameInv.isFrame_of_free (inv : FrameInv total r free) (member : frame ∈ free) :
    IsFrame r.state frame :=
  (inv.frames frame).mp (List.mem_append_left _ member)

theorem FrameInv.isFrame_of_held (inv : FrameInv total r free) (member : frame ∈ r.held) :
    IsFrame r.state frame :=
  (inv.frames frame).mp (List.mem_append_right _ member)

theorem FrameInv.not_held_of_free (inv : FrameInv total r free) (member : frame ∈ free) :
    frame ∉ r.held :=
  fun held => (List.nodup_append.mp inv.owned).2.2 frame member frame held rfl

theorem FrameInv.rewrite {mem : Memory} (inv : FrameInv total r free)
    (links : ∀ f ∈ free, ∀ x, Within f 8 x → mem x = r.state.mem x) :
    FrameInv total ⟨{ r.state with mem := mem }, r.held⟩ free where
  chain := inv.chain.frame links
  owned := inv.owned
  frames := inv.frames
  baseAligned := inv.baseAligned
  cursorAligned := inv.cursorAligned
  endAligned := inv.endAligned
  started := inv.started
  bounded := inv.bounded
  left := inv.left
  used := inv.used
  balance := inv.balance
  small := inv.small

theorem FrameInv.write {mem : Memory} (inv : FrameInv total r free) (spares : SparesFreeFrames r mem) :
    FrameInv total ⟨{ r.state with mem := mem }, r.held⟩ free := by
  refine inv.rewrite fun f member x inside => spares x ?_ ?_ ?_
  · obtain ⟨-, aligned, low, high⟩ := inv.isFrame_of_free member
    have fits : f.toNat + 8 ≤ 2 ^ 64 := by
      have := f.isLt
      unfold kPageSize at aligned
      omega
    have bounds := (within_iff fits).mp inside
    exact BitVec.le_def.mpr (by omega)
  · obtain ⟨-, aligned, low, high⟩ := inv.isFrame_of_free member
    have endAligned := inv.endAligned
    have bounded := inv.bounded
    have fits : f.toNat + 8 ≤ 2 ^ 64 := by
      have := f.isLt
      unfold kPageSize at aligned
      omega
    have bounds := (within_iff fits).mp inside
    unfold kPageSize at aligned endAligned
    exact BitVec.lt_def.mpr (by omega)
  · intro g held inG
    have distinct : f ≠ g := fun same => inv.not_held_of_free member (same ▸ held)
    obtain ⟨-, alignedF, -⟩ := inv.isFrame_of_free member
    obtain ⟨-, alignedG, -⟩ := inv.isFrame_of_held held
    exact frames_apart alignedF alignedG distinct x (inside.mono (by decide)) inG

theorem counters_alloc {spare len : Nat} {free used : SizeT} (left : free.toNat = spare + 1)
    (taken : used.toNat = len) (balance : free.toNat + used.toNat = total) (small : total < 2 ^ 64) :
    (free - 1).toNat = spare ∧ (used + 1).toNat = len + 1 ∧
      (free - 1).toNat + (used + 1).toNat = total := by
  bv_omega

theorem counters_free {spare len : Nat} {free used : SizeT} (left : free.toNat = spare)
    (taken : used.toNat = len + 1) (balance : free.toNat + used.toNat = total)
    (small : total < 2 ^ 64) : (free + 1).toNat = spare + 1 ∧ (used - 1).toNat = len ∧
      (free + 1).toNat + (used - 1).toNat = total := by
  bv_omega

theorem FrameInv.head (inv : FrameInv total r free) (listed : r.state.kPmmFreeHead ≠ 0) :
    ∃ rest, free = r.state.kPmmFreeHead :: rest ∧
      Chain r.state.mem (load64 r.state.mem r.state.kPmmFreeHead) rest := by
  have chain := inv.chain
  generalize r.state.kPmmFreeHead = head at chain listed ⊢
  cases chain with
  | nil => exact absurd rfl listed
  | cons _ rest => exact ⟨_, rfl, rest⟩

theorem FrameInv.pop {head : UIntPtr} {rest : List UIntPtr}
    (inv : FrameInv total r (head :: rest)) (chain : Chain r.state.mem (load64 r.state.mem head) rest) :
    FrameInv total ⟨{ r.state with
      mem := rtSetMemory head 0 kPageSize r.state.mem
      kPmmFreeHead := load64 r.state.mem head
      kPmmFree := r.state.kPmmFree - 1
      kPmmUsed := r.state.kPmmUsed + 1 }, head :: r.held⟩ rest := by
  have moved : (rest ++ head :: r.held).Perm (head :: rest ++ r.held) := List.perm_middle
  have aligned := (inv.isFrame_of_free (List.mem_cons_self ..)).2.1
  have left := inv.left
  rw [List.length_cons, Nat.add_right_comm] at left
  obtain ⟨left, used, balance⟩ := counters_alloc left inv.used inv.balance inv.small
  exact {
    chain := chain.frame fun f member x inside => by
      have distinct : f ≠ head := fun same =>
        (List.nodup_cons.mp inv.owned).1 (List.mem_append_left _ (same ▸ member))
      have alignedF := (inv.isFrame_of_free (List.mem_cons_of_mem _ member)).2.1
      exact rtSetMemory_outside fun inHead =>
        frames_apart alignedF aligned distinct x (inside.mono (by decide)) inHead
    owned := moved.nodup_iff.mpr inv.owned
    frames := fun f => moved.mem_iff.trans (inv.frames f)
    baseAligned := inv.baseAligned
    cursorAligned := inv.cursorAligned
    endAligned := inv.endAligned
    started := inv.started
    bounded := inv.bounded
    left := left
    used := used
    balance := balance
    small := inv.small }

theorem FrameInv.bump (inv : FrameInv total r free) (empty : r.state.kPmmFreeHead = 0)
    (nonnull : r.state.kPmmCursor ≠ 0) (room : r.state.kPmmCursor < r.state.kPmmEnd) :
    free = [] ∧ r.state.kPmmCursor ∉ r.held ∧ FrameInv total ⟨{ r.state with
      mem := rtSetMemory r.state.kPmmCursor 0 kPageSize r.state.mem
      kPmmCursor := r.state.kPmmCursor + BitVec.ofNat 64 kPageSize
      kPmmFree := r.state.kPmmFree - 1
      kPmmUsed := r.state.kPmmUsed + 1 }, r.state.kPmmCursor :: r.held⟩ [] := by
  have none : free = [] := by
    have chain := inv.chain
    rw [empty] at chain
    exact chain.unique .nil
  subst none
  have started := inv.started
  have cursorAligned := inv.cursorAligned
  have endAligned := inv.endAligned
  have left := inv.left
  have room' := BitVec.lt_def.mp room
  have fresh : r.state.kPmmCursor ∉ r.held := fun held =>
    absurd (inv.isFrame_of_held held).2.2.2 (Nat.lt_irrefl _)
  have stepped : (r.state.kPmmCursor + BitVec.ofNat 64 kPageSize).toNat =
      r.state.kPmmCursor.toNat + 4096 := by
    unfold kPageSize at *
    bv_omega
  have spare : (r.state.kPmmEnd.toNat - r.state.kPmmCursor.toNat) / kPageSize =
      (r.state.kPmmEnd.toNat - (r.state.kPmmCursor.toNat + 4096)) / kPageSize + 1 := by
    unfold kPageSize at *
    omega
  rw [List.length_nil, Nat.zero_add, spare] at left
  obtain ⟨left, used, balance⟩ := counters_alloc left inv.used inv.balance inv.small
  refine ⟨rfl, fresh, {
    chain := by rw [empty]; exact .nil
    owned := by simpa using ⟨fresh, by simpa using inv.owned⟩
    frames := fun f => ?_
    baseAligned := inv.baseAligned
    cursorAligned := by dsimp only; rw [stepped]; unfold kPageSize at *; omega
    endAligned := inv.endAligned
    started := by dsimp only; omega
    bounded := by dsimp only; unfold kPageSize at *; omega
    left := by dsimp only; rw [left, stepped]; simp
    used := used
    balance := balance
    small := inv.small }⟩
  have older := inv.frames f
  unfold IsFrame at older ⊢
  dsimp only
  rw [List.nil_append] at older ⊢
  rw [List.mem_cons, older, stepped]
  constructor
  · rintro (rfl | ⟨h₁, h₂, h₃, h₄⟩)
    · exact ⟨nonnull, cursorAligned, started, by omega⟩
    · exact ⟨h₁, h₂, h₃, by omega⟩
  · rintro ⟨h₁, h₂, h₃, h₄⟩
    by_cases last : f.toNat = r.state.kPmmCursor.toNat
    · exact .inl (BitVec.eq_of_toNat_eq last)
    · refine .inr ⟨h₁, h₂, h₃, ?_⟩
      unfold kPageSize at *
      omega

theorem FrameInv.alloc {σ : PmmState} {held : List UIntPtr} (inv : FrameInv total ⟨σ, held⟩ free) :
    pmmiAllocFrame σ = (0, σ) ∨
    ∃ f τ free', pmmiAllocFrame σ = (f, τ) ∧ f ≠ 0 ∧ f ∉ held ∧
      SameOutside f kPageSize σ.mem τ.mem ∧ (∀ x, Within f kPageSize x → τ.mem x = 0) ∧
      FrameInv total ⟨τ, f :: held⟩ free' := by
  rcases pmmiAllocFrame_cases σ with ⟨listed, taken⟩ | ⟨empty, nonnull, room, taken⟩ | ⟨-, taken⟩
  · obtain ⟨rest, rfl, chain⟩ := inv.head listed
    exact .inr ⟨_, _, rest, taken, listed, inv.not_held_of_free (List.mem_cons_self ..),
      fun x outside => rtSetMemory_outside outside, fun x inside => rtSetMemory_zero listed inside,
      inv.pop chain⟩
  · obtain ⟨-, fresh, next⟩ := inv.bump empty nonnull room
    exact .inr ⟨_, _, [], taken, nonnull, fresh, fun x outside => rtSetMemory_outside outside,
      fun x inside => rtSetMemory_zero nonnull inside, next⟩
  · exact .inl taken

/-- A frame that was handed out was in nobody's hands, and comes cleared. -/
theorem FrameInv.alloc_taken {σ τ : PmmState} {held : List UIntPtr} {f : UIntPtr}
    (inv : FrameInv total ⟨σ, held⟩ free) (taken : pmmiAllocFrame σ = (f, τ)) (nonnull : f ≠ 0) :
    f ∉ held ∧ SameOutside f kPageSize σ.mem τ.mem ∧ (∀ x, Within f kPageSize x → τ.mem x = 0) ∧
      ∃ free', FrameInv total ⟨τ, f :: held⟩ free' := by
  rcases inv.alloc with none | ⟨g, υ, free', taken', -, fresh, same, zero, inv'⟩
  · rw [taken] at none
    exact absurd (Prod.ext_iff.mp none).1 nonnull
  · rw [taken] at taken'
    obtain ⟨rfl, rfl⟩ := Prod.ext_iff.mp taken'
    exact ⟨fresh, same, zero, free', inv'⟩

/-- An allocation that fails changes nothing. -/
theorem FrameInv.alloc_null {σ τ : PmmState} {held : List UIntPtr} (inv : FrameInv total ⟨σ, held⟩ free)
    (taken : pmmiAllocFrame σ = (0, τ)) : τ = σ := by
  rcases inv.alloc with none | ⟨f, υ, free', taken', nonnull, -⟩
  · rw [taken] at none
    exact (Prod.ext_iff.mp none).2
  · rw [taken] at taken'
    exact absurd (Prod.ext_iff.mp taken').1.symm nonnull

/-- While frames are left, and the region does not start at address zero, an allocation gets one. -/
theorem FrameInv.alloc_nonzero {σ : PmmState} {held : List UIntPtr} {f : UIntPtr} {τ : PmmState}
    (inv : FrameInv total ⟨σ, held⟩ free) (some : held ≠ []) (room : 0 < σ.kPmmFree.toNat)
    (taken : pmmiAllocFrame σ = (f, τ)) : f ≠ 0 ∧ τ.kPmmFree.toNat + 1 = σ.kPmmFree.toNat := by
  have spent : (σ.kPmmFree - 1).toNat + 1 = σ.kPmmFree.toNat := by bv_omega
  rcases pmmiAllocFrame_cases σ with ⟨listed, same⟩ | ⟨-, nonnull, -, same⟩ | ⟨empty, same⟩
  · rw [taken] at same
    cases same
    exact ⟨listed, spent⟩
  · rw [taken] at same
    cases same
    exact ⟨nonnull, spent⟩
  · exfalso
    obtain ⟨g, member⟩ := List.exists_mem_of_ne_nil held some
    have above := (inv.isFrame_of_held member).2.2.2
    have none : free = [] := by
      have chain := inv.chain
      rw [empty] at chain
      exact chain.unique .nil
    have left := inv.left
    rw [none] at left
    dsimp only [List.length_nil] at left above
    have more : σ.kPmmCursor.toNat < σ.kPmmEnd.toNat := by
      unfold kPageSize at left
      omega
    have cursor : σ.kPmmCursor ≠ 0 := by
      intro zero
      rw [zero] at above
      exact absurd above (Nat.not_lt_zero _)
    have bump : (pmmiAllocFrame σ).1 = σ.kPmmCursor := by
      unfold pmmiAllocFrame pmmiTake
      rw [if_neg (not_not.mpr empty), if_pos ⟨cursor, BitVec.lt_def.mpr more⟩]
      simp only [if_neg cursor]
    rw [same] at bump
    exact cursor bump.symm

theorem FrameInv.push (inv : FrameInv total r free) (held : frame ∈ r.held) :
    FrameInv total ⟨{ r.state with
      mem := store64 r.state.mem frame r.state.kPmmFreeHead
      kPmmFreeHead := frame
      kPmmFree := r.state.kPmmFree + 1
      kPmmUsed := r.state.kPmmUsed - 1 }, r.held.erase frame⟩ (frame :: free) := by
  have moved : (frame :: free ++ r.held.erase frame).Perm (free ++ r.held) :=
    List.perm_middle.symm.trans ((List.perm_cons_erase held).symm.append_left free)
  obtain ⟨nonnull, aligned, -⟩ := inv.isFrame_of_held held
  have shrunk : r.held.length = (r.held.erase frame).length + 1 := by
    rw [List.length_erase_of_mem held]
    have := List.length_pos_of_mem held
    omega
  obtain ⟨left, used, balance⟩ :=
    counters_free inv.left (inv.used.trans shrunk) inv.balance inv.small
  exact {
    chain := inv.chain.push nonnull fun f member => by
      have distinct : f ≠ frame := fun same => inv.not_held_of_free member (same ▸ held)
      have alignedF := (inv.isFrame_of_free member).2.1
      exact (frames_apart alignedF aligned distinct).mono (by decide) (by decide)
    owned := moved.nodup_iff.mpr inv.owned
    frames := fun f => moved.mem_iff.trans (inv.frames f)
    baseAligned := inv.baseAligned
    cursorAligned := inv.cursorAligned
    endAligned := inv.endAligned
    started := inv.started
    bounded := inv.bounded
    left := by rw [List.length_cons, Nat.add_right_comm]; exact left
    used := used
    balance := balance
    small := inv.small }

end Steps

end Ne.Kernel.HAL
