import NeKernel.Ldr.ImagePages

/-!
# What copying to the pages of an image writes
-/

namespace Ne.Kernel.Ldr
open ByteMem Access HAL

/-- No table and no frame that is still to be handed out is behind the address. -/
def Harmless (root : UIntPtr) (σ : PmmState) (a : UIntPtr) : Prop :=
  ∀ view, viewOf σ.mem root a = some view → InRegion σ view.frame →
    HandedOut σ view.frame ∧ ¬ IsTable σ.mem root view.frame

/-- The address shows something else than a frame that is still to be handed out. -/
def Occupied (root : UIntPtr) (σ : PmmState) (a : UIntPtr) : Prop :=
  ∃ view, viewOf σ.mem root a = some view ∧ (InRegion σ view.frame → HandedOut σ view.frame)

/-- The frame behind the address, if it is one, carries data. -/
def Lands (root : UIntPtr) (data : List UIntPtr) (σ : PmmState) (a : UIntPtr) : Prop :=
  ∀ view, viewOf σ.mem root a = some view → InRegion σ view.frame → view.frame ∈ data

/-- At most the `n` bytes behind the addresses from `dst` on are written. -/
structure Written (root : UIntPtr) (data : List UIntPtr) (dst : UIntPtr) (n : Nat) (σ τ : PmmState) : Prop where
  inv : DataInv root data τ
  tables : Spares root [] σ τ
  views : ∀ a, viewOf τ.mem root a = viewOf σ.mem root a
  free : τ.kPmmFree = σ.kPmmFree
  bytes : ∀ x, (∀ i < n, physOf σ.mem root (dst + BitVec.ofNat 64 i) ≠ some x) → τ.mem x = σ.mem x

section Bytes
variable {root a x src dst : UIntPtr} {data : List UIntPtr} {m : Memory} {σ τ υ : PmmState} {view : PageView}
  {n k : Nat} {b : Byte}

theorem Harmless.lands (harmless : Harmless root σ a) (inv : DataInv root data σ) : Lands root data σ a := by
  intro view seen there
  obtain ⟨handed, untabled⟩ := harmless view seen there
  exact (inv.isTable_or.mp handed).resolve_left untabled

theorem offset_small (a : UIntPtr) : (a &&& kPageMask).toNat < kPageSize := by
  rw [show kPageMask = kPmmAlign by decide, and_kPmmAlign]
  exact Nat.mod_lt _ (by decide)

theorem within_frame (f a : UIntPtr) : Within f kPageSize (f + (a &&& kPageMask)) := by
  unfold Within
  rw [BitVec.add_comm, BitVec.add_sub_cancel]
  exact offset_small a

theorem physOf_of_view (seen : viewOf σ.mem root a = some view) :
    physOf σ.mem root a = some (view.frame ||| (a &&& kPageMask)) := by
  unfold physOf
  rw [seen]
  rfl

theorem physOf_within (inv : PageInv root σ) (behind : physOf σ.mem root a = some x) :
    ∃ view, viewOf σ.mem root a = some view ∧ view.frame &&& kPageMask = 0 ∧ Within view.frame kPageSize x := by
  unfold physOf at behind
  obtain ⟨view, seen, rfl⟩ := Option.map_eq_some_iff.mp behind
  have aligned := inv.frame_aligned seen
  rw [frame_or_offset aligned (offset_small a)]
  exact ⟨view, seen, aligned, within_frame view.frame a⟩

theorem Written.refl (inv : DataInv root data σ) (dst : UIntPtr) (n : Nat) : Written root data dst n σ σ :=
  ⟨inv, .refl, fun _ => rfl, rfl, fun _ _ => rfl⟩

theorem Written.widen {off : Nat} (written : Written root data (dst + BitVec.ofNat 64 off) n σ τ)
    (more : off + n ≤ k) : Written root data dst k σ τ := by
  refine ⟨written.inv, written.tables, written.views, written.free, fun x away => written.bytes x fun i below => ?_⟩
  rw [BitVec.add_assoc, ← BitVec.ofNat_add]
  exact away (off + i) (by omega)

theorem Written.physOf (written : Written root data dst n σ τ) (a : UIntPtr) :
    physOf τ.mem root a = physOf σ.mem root a := by
  unfold Ldr.physOf
  rw [written.views]

theorem Written.trans (first : Written root data dst n σ τ) (second : Written root data dst n τ υ) :
    Written root data dst n σ υ := by
  refine ⟨second.inv, first.tables.trans second.tables, fun a => (second.views a).trans (first.views a),
    second.free.trans first.free, fun x off => ?_⟩
  rw [second.bytes x fun i below => ?_, first.bytes x off]
  rw [first.physOf]
  exact off i below

theorem Written.lands (written : Written root data dst n σ τ) (lands : Lands root data σ a) : Lands root data τ a := by
  intro view seen there
  rw [written.views] at seen
  exact lands view seen ((written.tables.inRegion _).mp there)

theorem Written.cons (first : Written root data dst 1 σ τ) (rest : Written root data (dst + 1) n τ υ) :
    Written root data dst (n + 1) σ υ := by
  refine ⟨rest.inv, first.tables.trans rest.tables, fun a => (rest.views a).trans (first.views a),
    rest.free.trans first.free, fun x off => ?_⟩
  rw [rest.bytes x fun i below => ?_, first.bytes x fun i below => off i (by omega)]
  rw [first.physOf, next_byte]
  exact off (i + 1) (by omega)

theorem put_written (inv : DataInv root data σ) (lands : Lands root data σ a) (behind : physOf σ.mem root a = some x)
    (b : Byte) : Written root data a 1 σ { σ with mem := write σ.mem x [b] } := by
  have other {y : UIntPtr} (differ : y ≠ x) : write σ.mem x [b] y = σ.mem y := by
    refine write_outside fun inside => differ ?_
    unfold Within at inside
    rw [List.length_singleton] at inside
    bv_omega
  obtain ⟨view, seen, aligned, inFrame⟩ := physOf_within inv.pageInv behind
  have outside : ∀ y, InRegion σ y → (∀ f ∈ data, ¬ Within f kPageSize y) → write σ.mem x [b] y = σ.mem y := by
    intro y there none
    refine other fun same => ?_
    subst same
    exact none view.frame (lands view seen (inv.inRegion_frame aligned inFrame there)) inFrame
  obtain ⟨inv', tables, views⟩ := inv.write outside
  refine ⟨inv', tables, views, rfl, fun y off => other fun same => ?_⟩
  exact off 0 (by omega) (by simpa [same] using behind)

theorem copyFrom_written (inv : DataInv root data σ) (lands : ∀ i < n, Lands root data σ (dst + BitVec.ofNat 64 i)) :
    Written root data dst n σ (copyFrom root m n src dst σ).val.2 := by
  induction n generalizing src dst σ with
  | zero => simpa [copyFrom] using Written.refl inv dst 0
  | succ n ih =>
      rw [copyFrom]
      simp only [Traced.val_bind, Traced.val_emit, fetchByte_val]
      cases behind : physOf σ.mem root dst with
      | none => simpa using Written.refl inv dst (n + 1)
      | some x =>
          have first := put_written inv (by simpa using lands 0 (by omega)) behind (m src)
          refine first.cons (ih first.inv fun i below => first.lands ?_)
          rw [next_byte]
          exact lands (i + 1) (by omega)

theorem clearFrom_written (inv : DataInv root data σ) (lands : ∀ i < n, Lands root data σ (dst + BitVec.ofNat 64 i)) :
    Written root data dst n σ (clearFrom root n dst σ).val.2 := by
  induction n generalizing dst σ with
  | zero => simpa [clearFrom] using Written.refl inv dst 0
  | succ n ih =>
      rw [clearFrom]
      simp only [Traced.val_bind, Traced.val_emit]
      cases behind : physOf σ.mem root dst with
      | none => simpa using Written.refl inv dst (n + 1)
      | some x =>
          have first := put_written inv (by simpa using lands 0 (by omega)) behind 0
          refine first.cons (ih first.inv fun i below => first.lands ?_)
          rw [next_byte]
          exact lands (i + 1) (by omega)

theorem rtCopyMemorySafe_copies {len dstSize : SizeT} (source : src ≠ 0) (target : dst ≠ 0)
    (fits : len.toNat ≤ dstSize.toNat) :
    rtCopyMemorySafe root m src dst len dstSize σ = copyFrom root m len.toNat src dst σ := by
  unfold rtCopyMemorySafe
  rw [if_neg]
  rintro (none | none | beyond)
  · exact source none
  · exact target none
  · exact absurd (BitVec.lt_def.mp beyond) (by omega)

theorem rtCopyMemorySafe_written {len dstSize : SizeT} (inv : DataInv root data σ)
    (lands : ∀ i < dstSize.toNat, Lands root data σ (dst + BitVec.ofNat 64 i)) :
    Written root data dst dstSize.toNat σ (rtCopyMemorySafe root m src dst len dstSize σ).val.2 := by
  unfold rtCopyMemorySafe
  split
  · split
    · exact Written.refl inv dst _
    · exact clearFrom_written inv lands
  · rename_i fits
    have room : len.toNat ≤ dstSize.toNat := by
      by_contra beyond
      exact fits (.inr (.inr (BitVec.lt_def.mpr (by omega))))
    have written := @copyFrom_written root src dst data m σ len.toNat inv fun i below => lands i (by omega)
    exact Written.widen (by rwa [BitVec.add_zero]) (by omega)

theorem copyFrom_bytes (inv : DataInv root data σ) (lands : ∀ i < n, Lands root data σ (dst + BitVec.ofNat 64 i))
    (mapped : ∀ i < n, ∃ x, physOf σ.mem root (dst + BitVec.ofNat 64 i) = some x)
    (apart : ∀ i < n, ∀ j < n, physOf σ.mem root (dst + BitVec.ofNat 64 i) =
      physOf σ.mem root (dst + BitVec.ofNat 64 j) → i = j) :
    (copyFrom root m n src dst σ).val.1 = true ∧ ∀ i < n, ∀ x,
      physOf σ.mem root (dst + BitVec.ofNat 64 i) = some x →
      (copyFrom root m n src dst σ).val.2.mem x = m (src + BitVec.ofNat 64 i) := by
  induction n generalizing src dst σ with
  | zero => exact ⟨by simp [copyFrom], fun i below => absurd below (Nat.not_lt_zero i)⟩
  | succ n ih =>
      rw [copyFrom]
      simp only [Traced.val_bind, Traced.val_emit, fetchByte_val]
      obtain ⟨x₀, behind⟩ := mapped 0 (by omega)
      have here : physOf σ.mem root dst = some x₀ := by simpa using behind
      have first := put_written inv (by simpa using lands 0 (by omega)) here (m src)
      have stays : ∀ i < n, Lands root data { σ with mem := write σ.mem x₀ [m src] } (dst + 1 + BitVec.ofNat 64 i) := by
        intro i below
        rw [next_byte]
        exact first.lands (lands (i + 1) (by omega))
      have shift (i : Nat) : physOf (write σ.mem x₀ [m src]) root (dst + 1 + BitVec.ofNat 64 i) =
          physOf σ.mem root (dst + BitVec.ofNat 64 (i + 1)) := by
        rw [next_byte]
        exact first.physOf _
      have rest := @copyFrom_written root (src + 1) (dst + 1) data m _ n first.inv stays
      obtain ⟨through, bytes⟩ := @ih (src + 1) (dst + 1) _ first.inv stays
        (fun i below => by simpa only [shift] using mapped (i + 1) (by omega)) fun i below j below' same => by
          have next := apart (i + 1) (by omega) (j + 1) (by omega) (by simpa only [shift] using same)
          omega
      rw [here]
      refine ⟨through, fun i below x found => ?_⟩
      cases i with
      | zero =>
          obtain rfl : x₀ = x := Option.some.inj (behind.symm.trans found)
          have kept := rest.bytes x₀ fun i below same => by
            rw [shift] at same
            exact absurd (apart (i + 1) (by omega) 0 (by omega) (same.trans behind.symm)) (by omega)
          have written : write σ.mem x₀ [m src] (x₀ + BitVec.ofNat 64 0) = m src := write_inside 0 (by omega) (by simp)
          rw [kept, BitVec.add_zero]
          simpa using written
      | succ i =>
          rw [bytes i (by omega) x ((shift i).trans found), next_byte]

end Bytes

section Pages
variable {root base a : UIntPtr} {data frames : List UIntPtr} {σ τ : PmmState} {mem : Memory} {i : Nat}

theorem Backs.frame (backs : Backs mem root base frames) (below : i < frames.length) :
    ∃ f ∈ frames, Mapped mem root (pageAt base i) f := by
  induction frames with
  | nil => exact absurd below (Nat.not_lt_zero i)
  | cons f rest ih =>
      obtain ⟨mapped, others⟩ := backs
      rcases Nat.lt_succ_iff_lt_or_eq.mp below with inner | rfl
      · obtain ⟨g, member, found⟩ := ih others inner
        exact ⟨g, List.mem_cons_of_mem f member, found⟩
      · exact ⟨f, List.mem_cons_self, mapped⟩

theorem Backs.page {f : UIntPtr} (backs : Backs mem root base frames) (member : f ∈ frames) :
    ∃ a, Mapped mem root a f := by
  induction frames with
  | nil => cases member
  | cons g rest ih =>
      obtain ⟨mapped, others⟩ := backs
      rcases List.mem_cons.mp member with rfl | later
      · exact ⟨_, mapped⟩
      · exact ih others later

theorem Backs.index_inj {f : UIntPtr} {j : Nat} (backs : Backs mem root base frames) (distinct : frames.Nodup)
    (below : i < frames.length) (below' : j < frames.length) (first : Mapped mem root (pageAt base i) f)
    (second : Mapped mem root (pageAt base j) f) : i = j := by
  induction frames with
  | nil => exact absurd below (Nat.not_lt_zero i)
  | cons g rest ih =>
      obtain ⟨mapped, others⟩ := backs
      obtain ⟨fresh, distinct'⟩ := List.nodup_cons.mp distinct
      have once {k : Nat} (inner : k < rest.length) (found : Mapped mem root (pageAt base k) g) : False := by
        obtain ⟨h, member, behind⟩ := others.frame inner
        exact fresh (behind.unique found ▸ member)
      rcases Nat.lt_succ_iff_lt_or_eq.mp below with inner | rfl
      · rcases Nat.lt_succ_iff_lt_or_eq.mp below' with inner' | rfl
        · exact ih others distinct' inner inner'
        · obtain rfl := second.unique mapped
          exact absurd first fun found => once inner found
      · rcases Nat.lt_succ_iff_lt_or_eq.mp below' with inner' | rfl
        · obtain rfl := first.unique mapped
          exact absurd second fun found => once inner' found
        · rfl

theorem Backed.view (backed : Backed root base data frames σ τ) (below : i < frames.length)
    (page : pageNumber a = pageNumber (pageAt base i)) :
    ∃ view, viewOf τ.mem root a = some view ∧ view.frame ∈ frames := by
  obtain ⟨f, member, mapped⟩ := backed.backs.frame below
  obtain ⟨-, view, seen, rfl⟩ := (mapped_iff backed.inv.pageInv).mp (mapped.page page)
  exact ⟨view, seen, member⟩

theorem byte_page (base : UIntPtr) (k : Nat) : pageNumber (base + BitVec.ofNat 64 k) =
    pageNumber (pageAt base ((base.toNat % kPageSize + k) / kPageSize)) := by
  rw [pageNumber_pageAt]
  unfold pageNumber kPageSize
  rw [BitVec.toNat_add, BitVec.toNat_ofNat]
  omega

theorem byte_offset (base : UIntPtr) (k : Nat) :
    ((base + BitVec.ofNat 64 k) &&& kPageMask).toNat = (base.toNat % kPageSize + k) % kPageSize := by
  rw [show kPageMask = kPmmAlign by decide, and_kPmmAlign, BitVec.toNat_add, BitVec.toNat_ofNat]
  unfold kPageSize
  omega

theorem Backed.byte {k : Nat} (backed : Backed root base data frames σ τ)
    (below : (base.toNat % kPageSize + k) / kPageSize < frames.length) :
    ∃ f ∈ frames, Mapped τ.mem root (pageAt base ((base.toNat % kPageSize + k) / kPageSize)) f ∧
      physOf τ.mem root (base + BitVec.ofNat 64 k) = some (f + ((base + BitVec.ofNat 64 k) &&& kPageMask)) := by
  obtain ⟨f, member, mapped⟩ := backed.backs.frame below
  obtain ⟨-, view, seen, rfl⟩ := (mapped_iff backed.inv.pageInv).mp (mapped.page (byte_page base k))
  refine ⟨view.frame, member, mapped, ?_⟩
  rw [physOf_of_view seen, frame_or_offset (backed.inv.pageInv.frame_aligned seen) (offset_small _)]

theorem Backed.byte_inj {j k : Nat} (backed : Backed root base data frames σ τ)
    (belowJ : (base.toNat % kPageSize + j) / kPageSize < frames.length)
    (belowK : (base.toNat % kPageSize + k) / kPageSize < frames.length)
    (same : physOf τ.mem root (base + BitVec.ofNat 64 j) = physOf τ.mem root (base + BitVec.ofNat 64 k)) : j = k := by
  obtain ⟨f, memberF, mappedF, atF⟩ := backed.byte belowJ
  obtain ⟨g, memberG, mappedG, atG⟩ := backed.byte belowK
  have address := Option.some.inj (atF.symm.trans (same.trans atG))
  obtain ⟨total, tables, free, owners⟩ := backed.inv
  have frameF := owners.isFrame (List.mem_append_left data memberF)
  have frameG := owners.isFrame (List.mem_append_left data memberG)
  obtain rfl : f = g := by
    by_contra differ
    exact frames_apart frameF.2.1 frameG.2.1 differ _ (within_frame f _) (address ▸ within_frame g _)
  have distinct : frames.Nodup := (List.nodup_append.mp owners.nodup).1
  have page := backed.backs.index_inj distinct belowJ belowK mappedF mappedG
  have offset := congrArg BitVec.toNat ((BitVec.add_right_inj f).mp address)
  rw [byte_offset, byte_offset] at offset
  unfold kPageSize at page offset
  omega

/-- An address on a page of the image lands in its frames, the others where they did. -/
theorem Backed.lands (backed : Backed root base data frames σ τ)
    (before : (∀ i < frames.length, pageNumber a ≠ pageNumber (pageAt base i)) → Lands root data σ a) :
    Lands root (frames ++ data) τ a := by
  intro view seen there
  by_cases page : ∃ i < frames.length, pageNumber a = pageNumber (pageAt base i)
  · obtain ⟨i, below, same⟩ := page
    obtain ⟨view', seen', member⟩ := backed.view below same
    obtain rfl := Option.some.inj (seen.symm.trans seen')
    exact List.mem_append_left _ member
  · have off : ∀ i < frames.length, pageNumber a ≠ pageNumber (pageAt base i) :=
      fun i below same => page ⟨i, below, same⟩
    rw [backed.beside a off] at seen
    exact List.mem_append_right _ (before off view seen ((backed.spares.inRegion _).mp there))

theorem Backs.written {dst : UIntPtr} {n : Nat} (backs : Backs σ.mem root base frames) (before : PageInv root σ)
    (written : Written root data dst n σ τ) : Backs τ.mem root base frames :=
  backs.stays before written.inv.pageInv written.tables fun _ _ => written.views _

theorem Backed.fresh (backed : Backed root base data frames σ τ) (inv : DataInv root data σ) {f : UIntPtr}
    (member : f ∈ frames) : InRegion σ f ∧ ¬ HandedOut σ f := by
  obtain ⟨total, tables, free, owners⟩ := backed.inv
  have held : f ∈ frames ++ data := List.mem_append_left _ member
  constructor
  · have inside : Within f kPageSize f := within_self (by decide)
    exact (backed.spares.inRegion f).mp (owners.owned.inRegion (owners.isFrame held) inside)
  · intro handed
    rcases inv.isTable_or.mp handed with table | old
    · exact owners.untabled held (owners.tree.mem_of_isTable (backed.spares.isTable table))
    · exact List.disjoint_of_nodup_append owners.nodup member old

theorem Backed.changes (backed : Backed root base data frames σ τ) (inv : DataInv root data σ)
    (below : i < frames.length) (occupied : Occupied root σ (pageAt base i)) :
    viewOf τ.mem root (pageAt base i) ≠ viewOf σ.mem root (pageAt base i) := by
  intro same
  obtain ⟨view, before, handed⟩ := occupied
  obtain ⟨view', after, member⟩ := backed.view below rfl
  obtain rfl := Option.some.inj (after.symm.trans (same.trans before))
  obtain ⟨there, vacant⟩ := backed.fresh inv member
  exact vacant (handed there)

end Pages

end Ne.Kernel.Ldr
