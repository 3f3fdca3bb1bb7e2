import NeKernel.Ldr.PageLoads
import NeKernel.Hal.DataFrames

/-!
# What backing an image with frames does

The loops of the loaders take one frame a page. When one of them fails, what was mapped is unmapped again.
-/

namespace Ne.Kernel.Ldr
open ByteMem Access HAL

section Numbers
variable {base a b : UIntPtr} {i j : Nat}

theorem pageNumber_pageAt (base : UIntPtr) (i : Nat) :
    pageNumber (pageAt base i) = (base.toNat / kPageSize + i) % 2 ^ 36 := by
  unfold pageNumber pageAt kPageSize
  rw [BitVec.toNat_add, BitVec.toNat_ofNat]
  have bound := base.isLt
  omega

theorem pageAt_apart (below : i < 2 ^ 36) (below' : j < 2 ^ 36) (differ : i ≠ j) :
    pageNumber (pageAt base i) ≠ pageNumber (pageAt base j) := by
  rw [pageNumber_pageAt, pageNumber_pageAt]
  omega

end Numbers

/-- Page after page from `base` on is mapped to the frames, the last one first. -/
def Backs (mem : Memory) (root base : UIntPtr) : List UIntPtr → Prop
  | [] => True
  | f :: rest => Mapped mem root (pageAt base rest.length) f ∧ Backs mem root base rest

/-- The views of all pages but the first `n` from `base` on are the same. -/
def SameBeside (root base : UIntPtr) (n : Nat) (mem mem' : Memory) : Prop :=
  ∀ a, (∀ i < n, pageNumber a ≠ pageNumber (pageAt base i)) → viewOf mem' root a = viewOf mem root a

/-- The pages from `base` on have new frames that are all zeroes. -/
structure Backed (root base : UIntPtr) (data frames : List UIntPtr) (σ τ : PmmState) : Prop where
  inv : DataInv root (frames ++ data) τ
  spares : Spares root data σ τ
  backs : Backs τ.mem root base frames
  beside : SameBeside root base frames.length σ.mem τ.mem
  zeroed : ∀ f ∈ frames, ∀ x, Within f kPageSize x → τ.mem x = 0

/-- The frames that were taken, one for each of the first `n` pages, are given back. -/
structure Undone (root base : UIntPtr) (data : List UIntPtr) (n : Nat) (σ τ : PmmState) : Prop where
  inv : DataInv root data τ
  spares : Spares root data σ τ
  beside : SameBeside root base n σ.mem τ.mem
  afforded : n ≤ σ.kPmmFree.toNat

section Backing
variable {root base f : UIntPtr} {data frames : List UIntPtr} {σ τ start : PmmState}
  {mem mem' mem'' : Memory} {i n left : Nat}

theorem SameBeside.trans (first : SameBeside root base n mem mem') (second : SameBeside root base n mem' mem'') :
    SameBeside root base n mem mem'' :=
  fun a off => (second a off).trans (first a off)

theorem Backs.stays (before : PageInv root σ) (after : PageInv root τ) (spares : Spares root data σ τ)
    (same : ∀ i < frames.length, viewOf τ.mem root (pageAt base i) = viewOf σ.mem root (pageAt base i))
    (backs : Backs σ.mem root base frames) : Backs τ.mem root base frames := by
  induction frames with
  | nil => trivial
  | cons f rest ih =>
      obtain ⟨mapped, others⟩ := backs
      refine ⟨mapped.stays before after spares (same _ (by simp)), ih (fun i below => same i ?_) others⟩
      rw [List.length_cons]
      omega

theorem SameBeside.mono (same : SameBeside root base n mem mem') {m : Nat} (more : n ≤ m) :
    SameBeside root base m mem mem' :=
  fun a off => same a fun i below => off i (by omega)

theorem ldrUnmapPages_spec (few : frames.length ≤ 2 ^ 36) (inv : DataInv root (frames ++ data) σ)
    (backs : Backs σ.mem root base frames) :
    DataInv root data (ldrUnmapPages root base frames.length σ) ∧
      Spares root data σ (ldrUnmapPages root base frames.length σ) ∧
      SameBeside root base frames.length σ.mem (ldrUnmapPages root base frames.length σ).mem ∧
      ∀ i < frames.length, viewOf (ldrUnmapPages root base frames.length σ).mem root (pageAt base i) = none := by
  induction frames generalizing σ with
  | nil => exact ⟨inv, .refl, fun _ _ => rfl, fun i below => absurd below (Nat.not_lt_zero i)⟩
  | cons f rest ih =>
      rw [List.length_cons] at few ⊢
      rw [ldrUnmapPages]
      obtain ⟨mapped, others⟩ := backs
      obtain ⟨⟨t, deep⟩, view, seen, frame⟩ := (mapped_iff inv.pageInv).mp mapped
      obtain ⟨inv', spares, taken, gone⟩ := mmUnmapPage_dataInv inv deep seen
      have beside := (mmUnmapPage_spec inv.pageInv (pageAt base rest.length)).2.1
      cases unmapped : mmUnmapPage root (pageAt base rest.length) σ with
      | mk g τ =>
          rw [unmapped] at inv' spares taken gone beside
          dsimp only at *
          obtain rfl : g = f := taken.trans frame
          obtain ⟨freed, freedSpares, views⟩ := inv'.release
          have kept : Spares root (rest ++ data) σ (pmmiFreeFrame g τ) :=
            (spares.among fun h => List.mem_cons_of_mem g).trans freedSpares
          have same : ∀ i < rest.length, viewOf (pmmiFreeFrame g τ).mem root (pageAt base i) =
              viewOf σ.mem root (pageAt base i) := by
            intro i below
            rw [views, beside _ (pageAt_apart (by omega) (by omega) (Nat.ne_of_lt below))]
          obtain ⟨inv'', spares', beside', none⟩ :=
            ih (by omega) freed (others.stays inv.pageInv freed.pageInv kept same)
          refine ⟨inv'', (kept.among fun h => List.mem_append_right rest).trans spares', fun a off => ?_,
            fun i below => ?_⟩
          · rw [beside' a fun i below => off i (by omega), views, beside a (off _ (by omega))]
          · rcases Nat.lt_succ_iff_lt_or_eq.mp below with inner | rfl
            · exact none i inner
            · rw [beside' _ fun j earlier => pageAt_apart (by omega) (by omega) (Nat.ne_of_gt earlier), views]
              exact gone _ rfl

theorem backPage_cases (inv : DataInv root data σ) (base : UIntPtr) (i : Nat) :
    (∃ τ, backPage root base i σ = (false, τ) ∧ DataInv root data τ ∧ Spares root data σ τ ∧
      (∀ a, viewOf τ.mem root a = viewOf σ.mem root a) ∧ σ.kPmmFree.toNat < 4) ∨
    ∃ f τ, backPage root base i σ = (true, τ) ∧ DataInv root (f :: data) τ ∧
      Spares root data σ τ ∧ Mapped τ.mem root (pageAt base i) f ∧
      (∀ a, pageNumber a ≠ pageNumber (pageAt base i) → viewOf τ.mem root a = viewOf σ.mem root a) ∧
      (∀ x, Within f kPageSize x → τ.mem x = 0) ∧ σ.kPmmFree.toNat ≤ τ.kPmmFree.toNat + 4 := by
  unfold backPage
  rcases inv.alloc with none | ⟨f, τ, taken, nonnull, fresh, inv', spares, views, zero⟩
  · have empty : σ.kPmmFree.toNat = 0 := by
      by_contra room
      exact (inv.alloc_cost none (by omega)).1 rfl
    rw [none]
    exact .inl ⟨σ, rfl, inv, .refl, fun _ => rfl, by omega⟩
  have cost : σ.kPmmFree.toNat ≤ τ.kPmmFree.toNat + 1 := by
    by_cases room : 0 < σ.kPmmFree.toNat
    · exact (inv.alloc_cost taken room).2.ge
    · omega
  obtain ⟨mapInv, mapSpares, reached, mapCost⟩ := mmMapPageIn_dataInv inv' (pageAt base i) f kMMFlagsImage
  obtain ⟨-, others, here⟩ := mmMapPageIn_spec inv'.pageInv (pageAt base i) f kMMFlagsImage
  have failed := @mmMapPageIn_failed root τ (pageAt base i) f kMMFlagsImage inv'.pageInv
  have aligned := inv'.aligned List.mem_cons_self
  have success := mmMapPageIn_success inv'.pageInv (pageAt base i) kMMFlagsImage nonnull aligned
  rw [taken]
  dsimp only
  rw [if_neg nonnull]
  cases mapped : mmMapPageIn root (pageAt base i) f kMMFlagsImage τ with
  | mk status υ =>
      rw [mapped] at mapInv mapSpares reached mapCost others here failed success
      dsimp only at *
      by_cases done : status = kErrorSuccess
      · refine .inr ⟨f, υ, by rw [if_neg (not_not.mpr done)], mapInv,
          spares.trans (mapSpares.among fun g => List.mem_cons_of_mem f), ?_,
          fun a other => (others a other).trans (views a), fun x inside => ?_, by omega⟩
        · have shown := here done (pageAt base i) rfl
          rw [if_pos (make_present (by decide))] at shown
          refine (mapped_iff mapInv.pageInv).mpr ⟨reached done, _, shown, ?_⟩
          exact leafFrame_last.trans (make_frame aligned (inv'.below List.mem_cons_self))
        · rw [mapSpares.bytes f List.mem_cons_self x inside]
          exact zero x inside
      · obtain ⟨freeInv, freeSpares, freeViews⟩ := mapInv.release
        refine .inl ⟨pmmiFreeFrame f υ, by rw [if_pos done], freeInv, ?_, fun a => ?_, ?_⟩
        · exact (spares.trans (mapSpares.among fun g => List.mem_cons_of_mem f)).trans freeSpares
        · rw [freeViews, failed done, views]
        · by_contra room
          exact done (success (by omega))

theorem Backed.empty (inv : DataInv root data σ) (base : UIntPtr) : Backed root base data [] σ σ :=
  ⟨inv, .refl, trivial, fun _ _ => rfl, by simp⟩

theorem Backed.afforded (backed : Backed root base data frames start τ) (inv : DataInv root data start) :
    frames.length ≤ start.kPmmFree.toNat := by
  have spent := (backed.spares.among fun f none => absurd none (List.not_mem_nil)).free_le inv backed.inv
  rw [List.length_append] at spent
  omega

theorem Backed.undo (few : frames.length ≤ 2 ^ 36) (inv : DataInv root data start)
    (backed : Backed root base data frames start τ) :
    Undone root base data frames.length start (ldrUnmapPages root base frames.length τ) := by
  obtain ⟨inv', spares, beside, -⟩ := ldrUnmapPages_spec few backed.inv backed.backs
  exact ⟨inv', backed.spares.trans spares, backed.beside.trans beside, backed.afforded inv⟩

theorem Backed.stays (backed : Backed root base data frames start σ) (inv' : DataInv root (frames ++ data) τ)
    (spares : Spares root (frames ++ data) σ τ) (views : ∀ a, viewOf τ.mem root a = viewOf σ.mem root a) :
    Backed root base data frames start τ := by
  refine ⟨inv', backed.spares.trans (spares.among fun f => List.mem_append_right frames),
    backed.backs.stays backed.inv.pageInv inv'.pageInv spares fun i _ => views _,
    backed.beside.trans fun a _ => views a, fun f member x inside => ?_⟩
  rw [spares.bytes f (List.mem_append_left _ member) x inside]
  exact backed.zeroed f member x inside

theorem Backed.next (few : frames.length < 2 ^ 36) (backed : Backed root base data frames start σ)
    (inv' : DataInv root (f :: (frames ++ data)) τ) (spares : Spares root (frames ++ data) σ τ)
    (mapped : Mapped τ.mem root (pageAt base frames.length) f)
    (beside : ∀ a, pageNumber a ≠ pageNumber (pageAt base frames.length) →
      viewOf τ.mem root a = viewOf σ.mem root a)
    (zero : ∀ x, Within f kPageSize x → τ.mem x = 0) : Backed root base data (f :: frames) start τ := by
  refine ⟨inv', backed.spares.trans (spares.among fun f => List.mem_append_right frames),
    ⟨mapped, backed.backs.stays backed.inv.pageInv inv'.pageInv spares fun i below => ?_⟩,
    (backed.beside.mono (Nat.le_succ _)).trans fun a off => ?_, fun g member x inside => ?_⟩
  · exact beside _ (pageAt_apart (by omega) few (Nat.ne_of_lt below))
  · exact beside a (off frames.length (by simp))
  · rcases List.mem_cons.mp member with rfl | member
    · exact zero x inside
    · rw [spares.bytes g (List.mem_append_left _ member) x inside]
      exact backed.zeroed g member x inside

theorem backFrom_cases (few : frames.length + left ≤ 2 ^ 36) (inv : DataInv root data start)
    (backed : Backed root base data frames start σ) :
    (∃ n τ, n ≤ frames.length + left ∧ backFrom root base left frames.length σ = (false, τ) ∧
      Undone root base data n start τ ∧ σ.kPmmFree.toNat < 4 * left) ∨
    ∃ frames' τ, backFrom root base left frames.length σ = (true, τ) ∧ frames'.length = frames.length + left ∧
      Backed root base data frames' start τ ∧ σ.kPmmFree.toNat ≤ τ.kPmmFree.toNat + 4 * left := by
  induction left generalizing frames σ with
  | zero => exact .inr ⟨frames, σ, rfl, rfl, backed, le_rfl⟩
  | succ left ih =>
      rw [backFrom]
      rcases backPage_cases backed.inv base frames.length with
        ⟨τ, failed, inv', spares, views, scarce⟩ | ⟨f, τ, taken, inv', spares, mapped, beside, zero, cost⟩
      · have same := backed.stays inv' spares views
        rw [failed]
        exact .inl ⟨frames.length, _, by omega, if_pos rfl, same.undo (by omega) inv, by omega⟩
      · have next := backed.next (by omega) inv' spares mapped beside zero
        have rest := ih (by rw [List.length_cons]; omega) next
        rw [List.length_cons, Nat.add_assoc, Nat.add_comm 1] at rest
        rw [taken]
        dsimp only
        rw [if_neg (by decide)]
        rcases rest with ⟨n, υ, few', failed, undone, scarce⟩ | ⟨frames', υ, done, length, backed', spent⟩
        · exact .inl ⟨n, υ, few', failed, undone, by omega⟩
        · exact .inr ⟨frames', υ, done, length, backed', by omega⟩

theorem backFrom_spec (few : n ≤ 2 ^ 36) (inv : DataInv root data σ) (base : UIntPtr) :
    (∃ k τ, k ≤ n ∧ backFrom root base n 0 σ = (false, τ) ∧ Undone root base data k σ τ ∧
      σ.kPmmFree.toNat < 4 * n) ∨
    ∃ frames τ, backFrom root base n 0 σ = (true, τ) ∧ frames.length = n ∧ Backed root base data frames σ τ ∧
      σ.kPmmFree.toNat ≤ τ.kPmmFree.toNat + 4 * n := by
  have outcome := @backFrom_cases root base data [] σ σ n (by simpa using few) inv (.empty inv base)
  rwa [List.length_nil, Nat.zero_add] at outcome

end Backing

end Ne.Kernel.Ldr
