import NeKernel.Ldr.ImageCopies
import NeKernel.Ldr.PEFLoader

/-!
# What loading a section leaves

The section of a symbol gets new frames, as many as its size fills from the start of a page on, and its content is
copied to its address.
-/

namespace Ne.Kernel.Ldr
open ByteMem Access HAL Runs

section Headers
variable (hdr : Image)

def vmAddress : UIntPtr := PEFCommandHeader.VMAddress.get hdr
def vmSize : Nat := (PEFCommandHeader.VMSize.get hdr).toNat
def vmPages : Nat := pageCount (vmSize hdr)
def contentSize : Nat := (PEFCommandHeader.OffsetSize.get hdr).toNat

def sectionByte (i : Nat) : UIntPtr := vmAddress hdr + BitVec.ofNat 64 i

/-- An address that is on none of the section's pages. -/
def OffSection (a : UIntPtr) : Prop := ∀ j < vmPages hdr, pageNumber a ≠ pageNumber (pageAt (vmAddress hdr) j)

/-- Bytes of the section that lie behind its pages do no harm, those below `n`. -/
def SpillsHarmless (root : UIntPtr) (σ : PmmState) (n : Nat) : Prop :=
  ∀ i < n, OffSection hdr (sectionByte hdr i) → Harmless root σ (sectionByte hdr i)

/-- The size counts from the start of a page, the bytes from the address. -/
def FitsPages : Prop := (vmAddress hdr).toNat % kPageSize + vmSize hdr ≤ vmPages hdr * kPageSize

end Headers

namespace PEFLoader

/-- The header that a lookup finds. -/
def foundHeader (ldr : PEFLoader) (m : Memory) (name : Option (List Byte)) (kind : BitVec 32) : Option Image :=
  match name with
  | none => none
  | some name =>
      if ldr.fCachedBlob = 0 ∨ ldr.fBad = true then none
      else if ldr.fCachedBlobSz = 0 then none
      else match pefMakeName kind name with
        | none => none
        | some sectName => (pefFindSection m ldr.fCachedBlob ldr.fCachedBlobSz (some sectName) kind).val

/-- Where its content lies in the blob. -/
def contentAt (ldr : PEFLoader) (hdr : Image) : UIntPtr :=
  if PEFCommandHeader.OffsetSize.get hdr > 0 then ldr.fCachedBlob + PEFCommandHeader.Offset.get hdr else 0

variable {ldr : PEFLoader} {m : Memory} {name : Option (List Byte)} {kind : BitVec 32} {root : UIntPtr} {σ : PmmState}
  {hdr : Image}

theorem findSymbol_val : (ldr.findSymbol root m name kind σ).val =
    match ldr.foundHeader m name kind with
    | none => (.error kErrorInvalidData, σ)
    | some hdr => (pefLoadSection root m hdr (ldr.contentAt hdr) σ).val := by
  unfold findSymbol foundHeader
  cases name with
  | none => rfl
  | some name =>
      dsimp only
      by_cases closed : ldr.fCachedBlob = 0 ∨ ldr.fBad = true
      · rw [if_pos closed, if_pos closed]
        rfl
      rw [if_neg closed, if_neg closed]
      by_cases empty : ldr.fCachedBlobSz = 0
      · rw [if_pos empty, if_pos empty]
        rfl
      rw [if_neg empty, if_neg empty]
      cases pefMakeName kind name with
      | none => rfl
      | some sectName =>
          dsimp only
          rw [Traced.val_bind]
          cases (pefFindSection m ldr.fCachedBlob ldr.fCachedBlobSz (some sectName) kind).val <;> rfl

theorem foundHeader_some (found : ldr.foundHeader m name kind = some hdr) : ldr.fCachedBlob ≠ 0 ∧
    ∃ tableEnd, SectionBounds ldr.fCachedBlobSz.toNat tableEnd hdr := by
  unfold foundHeader at found
  cases name with
  | none => cases found
  | some name =>
      dsimp only at found
      split at found
      · cases found
      rename_i good
      split at found
      · cases found
      split at found
      · cases found
      exact ⟨fun null => good (.inl null), _, pefFindSection_some found⟩

end PEFLoader

section Loading
variable {root src : UIntPtr} {m : Memory} {hdr : Image} {data : List UIntPtr} {σ : PmmState} {len tableEnd : Nat}

theorem SectionBounds.pages (bounds : SectionBounds len tableEnd hdr) : vmPages hdr ≤ 2 ^ 36 := by
  have window := bounds.window
  have small : vmSize hdr ≤ 0x44000000 := Nat.le_of_add_left_le window
  unfold vmPages pageCount kPageSize
  split <;> omega

theorem pefLoadSection_cases (bounds : SectionBounds len tableEnd hdr) (inv : DataInv root data σ)
    (harmless : SpillsHarmless hdr root σ (contentSize hdr)) :
    (src = 0 ∧ (pefLoadSection root m hdr src σ).val = (.error kErrorInvalidData, σ)) ∨
    (∃ k τ, k ≤ vmPages hdr ∧ (pefLoadSection root m hdr src σ).val = (.error kErrorHeapOutOfMemory, τ) ∧
      Undone root (vmAddress hdr) data k σ τ ∧ σ.kPmmFree.toNat < 4 * vmPages hdr) ∨
    ∃ frames τ, frames.length = vmPages hdr ∧ Backed root (vmAddress hdr) data frames σ τ ∧
      σ.kPmmFree.toNat ≤ τ.kPmmFree.toNat + 4 * vmPages hdr ∧
      Written root (frames ++ data) (vmAddress hdr) (contentSize hdr) τ
        (copyFrom root m (contentSize hdr) src (vmAddress hdr) τ).val.2 ∧
      (pefLoadSection root m hdr src σ).val =
        (if (copyFrom root m (contentSize hdr) src (vmAddress hdr) τ).val.1 then .value (vmAddress hdr) else .fault,
          (copyFrom root m (contentSize hdr) src (vmAddress hdr) τ).val.2) := by
  unfold pefLoadSection
  by_cases null : src = 0
  · exact .inl ⟨null, by rw [if_pos null, Traced.val_pure]⟩
  refine .inr ?_
  rw [if_neg null]
  rcases backFrom_spec bounds.pages inv (vmAddress hdr) with
    ⟨k, τ, le, failed, undone, scarce⟩ | ⟨frames, τ, done, length, backed, spent⟩
  · refine .inl ⟨k, τ, le, ?_, undone, scarce⟩
    have begun : backFrom root (PEFCommandHeader.VMAddress.get hdr) (pageCount (PEFCommandHeader.VMSize.get hdr).toNat)
        0 σ = (false, τ) := failed
    simp only [begun, if_true, Traced.val_pure]
  · have begun : backFrom root (PEFCommandHeader.VMAddress.get hdr) (pageCount (PEFCommandHeader.VMSize.get hdr).toNat)
        0 σ = (true, τ) := done
    have lands : ∀ i < contentSize hdr, Lands root (frames ++ data) τ (vmAddress hdr + BitVec.ofNat 64 i) := by
      intro i below
      refine backed.lands fun off => (harmless i below ?_).lands inv
      unfold OffSection
      rwa [← length]
    refine .inr ⟨frames, τ, length, backed, spent, copyFrom_written backed.inv lands, ?_⟩
    simp only [begun, Bool.true_eq_false, if_false]
    by_cases content : PEFCommandHeader.OffsetSize.get hdr > 0
    · have placed : vmAddress hdr ≠ 0 := by
        intro zero
        have origin : 0x40000000 ≤ (vmAddress hdr).toNat := bounds.origin
        rw [zero] at origin
        exact absurd origin (by decide)
      have copies : rtCopyMemorySafe root m src (vmAddress hdr) (PEFCommandHeader.OffsetSize.get hdr)
          (PEFCommandHeader.VMSize.get hdr) τ = _ := rtCopyMemorySafe_copies null placed bounds.content
      rw [if_pos content, Traced.val_bind, show PEFCommandHeader.VMAddress.get hdr = vmAddress hdr from rfl, copies]
      rfl
    · have none : contentSize hdr = 0 := by simpa [contentSize, BitVec.lt_def] using content
      rw [if_neg content, none, copyFrom, Traced.val_pure, Traced.val_pure]
      rfl

theorem FitsPages.below (fits : FitsPages hdr) {i : Nat} (inside : i < vmSize hdr) :
    ((vmAddress hdr).toNat % kPageSize + i) / kPageSize < vmPages hdr := by
  unfold FitsPages at fits
  exact Nat.div_lt_of_lt_mul (by rw [Nat.mul_comm]; omega)

/-- Every byte of the section has a frame that was not handed out before, with the content or with zeroes. -/
structure Instantiates (root : UIntPtr) (m : Memory) (hdr : Image) (src : UIntPtr) (σ : PmmState)
    (outcome : Ending × PmmState) : Prop where
  returned : outcome.1 = .value (vmAddress hdr)
  backed : ∀ i < vmSize hdr, ∃ view, viewOf outcome.2.mem root (sectionByte hdr i) = some view ∧
    HandedOut outcome.2 view.frame ∧ ¬ HandedOut σ view.frame
  content : ∀ i < vmSize hdr, (physOf outcome.2.mem root (sectionByte hdr i)).map outcome.2.mem =
    some (if i < contentSize hdr then m (src + BitVec.ofNat 64 i) else 0)

theorem pefLoadSection_instantiates (bounds : SectionBounds len tableEnd hdr) (inv : DataInv root data σ)
    (source : src ≠ 0) (fits : FitsPages hdr) (enough : 4 * vmPages hdr ≤ σ.kPmmFree.toNat) :
    Instantiates root m hdr src σ (pefLoadSection root m hdr src σ).val := by
  have inside {i : Nat} (below : i < contentSize hdr) : i < vmSize hdr := Nat.lt_of_lt_of_le below bounds.content
  have harmless : SpillsHarmless hdr root σ (contentSize hdr) := by
    intro i below off
    exact absurd (byte_page (vmAddress hdr) i) (off _ (fits.below (inside below)))
  rcases pefLoadSection_cases bounds inv harmless with
    ⟨null, -⟩ | ⟨k, τ, -, -, -, scarce⟩ | ⟨frames, τ, length, backed, -, written, loaded⟩
  · exact absurd null source
  · omega
  have onPage {i : Nat} (below : i < vmSize hdr) :
      ((vmAddress hdr).toNat % kPageSize + i) / kPageSize < frames.length := length ▸ fits.below below
  have lands : ∀ i < contentSize hdr, Lands root (frames ++ data) τ (vmAddress hdr + BitVec.ofNat 64 i) :=
    fun i below => backed.lands fun off => absurd (byte_page (vmAddress hdr) i) (off _ (onPage (inside below)))
  obtain ⟨through, bytes⟩ := @copyFrom_bytes root src (vmAddress hdr) (frames ++ data) m τ (contentSize hdr)
    backed.inv lands (fun i below => ⟨_, (backed.byte (onPage (inside below))).choose_spec.2.2⟩)
    fun i below j below' same => backed.byte_inj (onPage (inside below)) (onPage (inside below')) same
  rw [loaded, through, if_pos rfl]
  refine ⟨rfl, fun i below => ?_, fun i below => ?_⟩
  · obtain ⟨f, member, mapped, -⟩ := backed.byte (onPage below)
    obtain ⟨-, view, seen, rfl⟩ := (mapped_iff backed.inv.pageInv).mp (mapped.page (byte_page (vmAddress hdr) i))
    refine ⟨view, (written.views _).trans seen, ?_, (backed.fresh inv member).2⟩
    exact written.inv.isTable_or.mpr (.inr (List.mem_append_left _ member))
  · obtain ⟨f, member, -, behind⟩ := backed.byte (onPage below)
    have shown : physOf _ root (sectionByte hdr i) = _ := (written.physOf _).trans behind
    rw [shown, Option.map_some]
    refine congrArg some ?_
    by_cases content : i < contentSize hdr
    · rw [if_pos content]
      exact bytes i content _ behind
    · rw [if_neg content, written.bytes _ fun j below' same => ?_]
      · exact backed.zeroed f member _ (within_frame f _)
      · have one := backed.byte_inj (onPage (inside below')) (onPage below) (same.trans behind.symm)
        omega

theorem offSection_last (bounds : SectionBounds len tableEnd hdr) (beyond : ¬ FitsPages hdr) :
    OffSection hdr (sectionByte hdr (vmSize hdr - 1)) := by
  have few := bounds.pages
  have window : (vmAddress hdr).toNat + vmSize hdr ≤ 0x44000000 := bounds.window
  have positive : 1 ≤ vmSize hdr := bounds.positive
  unfold FitsPages at beyond
  intro j below
  have page := byte_page (vmAddress hdr) (vmSize hdr - 1)
  have behind : vmPages hdr ≤ ((vmAddress hdr).toNat % kPageSize + (vmSize hdr - 1)) / kPageSize := by
    unfold kPageSize at *
    omega
  have small : ((vmAddress hdr).toNat % kPageSize + (vmSize hdr - 1)) / kPageSize < 2 ^ 36 := by
    unfold kPageSize
    omega
  exact fun same => pageAt_apart small (by omega) (by omega) (page.symm.trans same)

theorem fitsPages_of_instantiates {src' : UIntPtr} (bounds : SectionBounds len tableEnd hdr) (inv : DataInv root data σ)
    (harmless : SpillsHarmless hdr root σ (vmSize hdr))
    (whole : Instantiates root m hdr src' σ (pefLoadSection root m hdr src σ).val) : FitsPages hdr := by
  have positive : 1 ≤ vmSize hdr := bounds.positive
  have returned := whole.returned
  by_contra beyond
  have off := offSection_last bounds beyond
  obtain ⟨view, seen, handed, fresh⟩ := whole.backed (vmSize hdr - 1) (by omega)
  rcases pefLoadSection_cases bounds inv fun i below => harmless i (Nat.lt_of_lt_of_le below bounds.content) with
    ⟨-, failed⟩ | ⟨k, τ, -, failed, -⟩ | ⟨frames, τ, length, backed, -, written, loaded⟩
  · rw [failed] at returned
    cases returned
  · rw [failed] at returned
    cases returned
  · rw [loaded] at seen handed
    dsimp only at seen handed
    rw [written.views, backed.beside _ fun j below => off j (length ▸ below)] at seen
    obtain ⟨total, tables, free, owners⟩ := written.inv
    have there := owners.owned.inRegion handed.1 (within_self (by decide))
    have region := (backed.spares.inRegion _).mp ((written.tables.inRegion _).mp there)
    exact fresh (harmless _ (by omega) off view seen region).1

end Loading

section Booted
variable (mem : Memory) (base : UIntPtr) (sz : SizeT) (frameCalls : List FrameCall) (r : FrameRun)
  (frames : Run (Guarded FreesHeld FrameStep) (bootFrames mem base sz) frameCalls r)
  (fuel : Nat) (limit root : UIntPtr) (σ₀ : PmmState)
  (built : mmInitKernelTables fuel limit r.state = some (root, σ₀)) (nonnull : root ≠ 0)
  (calls : List SharedCall) (σ : PmmState) (run : Run (SharedStep root) σ₀ calls σ)
include frames built nonnull run

/-- A symbol's section is instantiated when it has content and does not spill over its pages, and only then if the
addresses behind its pages show neither tables nor free frames. -/
theorem section_instantiated_iff (narrow : σ.kPmmEnd.toNat ≤ 2 ^ 52) (ldr : PEFLoader) (m : Memory)
    (lies : ldr.fCachedBlob.toNat + ldr.fCachedBlobSz.toNat ≤ 2 ^ 64) (name : Option (List Byte)) (kind : BitVec 32)
    (hdr : Image) (found : ldr.foundHeader m name kind = some hdr)
    (enough : 4 * vmPages hdr ≤ σ.kPmmFree.toNat) :
    (0 < contentSize hdr ∧ FitsPages hdr → Instantiates root m hdr (ldr.fCachedBlob + PEFCommandHeader.Offset.get hdr) σ
      (ldr.findSymbol root m name kind σ).val) ∧
    (SpillsHarmless hdr root σ (vmSize hdr) → Instantiates root m hdr
      (ldr.fCachedBlob + PEFCommandHeader.Offset.get hdr) σ (ldr.findSymbol root m name kind σ).val →
      0 < contentSize hdr ∧ FitsPages hdr) := by
  have pageInv := shared_pageInv mem base sz frameCalls r frames fuel limit root σ₀ built nonnull calls σ run
  obtain ⟨data, inv⟩ := pageInv.dataInv narrow
  obtain ⟨blob, tableEnd, bounds⟩ := PEFLoader.foundHeader_some found
  rw [PEFLoader.findSymbol_val, found]
  dsimp only
  unfold PEFLoader.contentAt
  by_cases content : PEFCommandHeader.OffsetSize.get hdr > 0
  · have some : 0 < contentSize hdr := BitVec.lt_def.mp content
    rw [if_pos content]
    refine ⟨fun ⟨_, fits⟩ => pefLoadSection_instantiates bounds inv ?_ fits enough, fun harmless whole => ⟨some, ?_⟩⟩
    · obtain ⟨-, inside⟩ := bounds.inside some
      have start : 0 < ldr.fCachedBlob.toNat := Nat.pos_of_ne_zero fun zero => blob (BitVec.eq_of_toNat_eq zero)
      intro null
      have address := congrArg BitVec.toNat null
      rw [BitVec.toNat_add, Nat.mod_eq_of_lt (by unfold contentSize at some; omega)] at address
      have zero : (0 : UIntPtr).toNat = 0 := rfl
      omega
    · exact fitsPages_of_instantiates bounds inv harmless whole
  · have none : ¬ 0 < contentSize hdr := fun some => content (BitVec.lt_def.mpr some)
    rw [if_neg content]
    refine ⟨fun fits => absurd fits.1 none, fun _ whole => ?_⟩
    have returned := whole.returned
    unfold pefLoadSection at returned
    rw [if_pos rfl, Traced.val_pure] at returned
    cases returned

end Booted

def symbolMain : List Byte := [0x6D, 0x61, 0x69, 0x6E]

def mainLoader : PEFLoader := ⟨mainAt, 978, false, false⟩

theorem mainHeader_found : ∃ hdr, mainLoader.foundHeader mainBlob (some symbolMain) kPefCode = some hdr ∧
    contentSize hdr = 2 ∧ vmSize hdr = 8 ∧ vmPages hdr = 1 ∧ vmAddress hdr = 0x40000000 ∧
      mainLoader.contentAt hdr = 0x13D0 := by
  have header : (mainLoader.foundHeader mainBlob (some symbolMain) kPefCode).map (fun hdr =>
      (contentSize hdr, vmSize hdr, vmPages hdr, vmAddress hdr, mainLoader.contentAt hdr)) =
      some (2, 8, 1, 0x40000000, 0x13D0) := by decide +kernel
  obtain ⟨hdr, found, same⟩ := Option.map_eq_some_iff.mp header
  simp only [Prod.mk.injEq] at same
  exact ⟨hdr, found, same⟩

theorem section_instantiated_iff_main :
    ∃ hdr, mainLoader.foundHeader mainBlob (some symbolMain) kPefCode = some hdr ∧
      Instantiates 0x1000 mainBlob hdr (mainAt + PEFCommandHeader.Offset.get hdr) emptyTables
        (mainLoader.findSymbol 0x1000 mainBlob (some symbolMain) kPefCode emptyTables).val := by
  obtain ⟨hdr, found, content, size, pages, address, -⟩ := mainHeader_found
  refine ⟨hdr, found, (section_instantiated_iff (fun _ => 0) 0x1000 0x8000 [] _ (.nil _) 1 0 0x1000 emptyTables
    emptyTables_built (by decide) [] emptyTables (.nil _) (by decide) mainLoader mainBlob (by decide)
    (some symbolMain) kPefCode hdr found ?_).1 ⟨?_, ?_⟩⟩
  · rw [pages]
    decide
  · rw [content]
    decide
  · unfold FitsPages
    rw [size, pages, address]
    decide

/-- The same section with no content. -/
def bssBlob : Memory := containerAt mainAt 0x40000000 8 []

theorem no_content_refused : ¬ ∀ mem base sz frameCalls r,
    Run (Guarded FreesHeld FrameStep) (bootFrames mem base sz) frameCalls r →
    ∀ fuel limit root σ₀, mmInitKernelTables fuel limit r.state = some (root, σ₀) → root ≠ 0 →
    ∀ calls σ, Run (SharedStep root) σ₀ calls σ → σ.kPmmEnd.toNat ≤ 2 ^ 52 →
    ∀ (ldr : PEFLoader) m, ldr.fCachedBlob.toNat + ldr.fCachedBlobSz.toNat ≤ 2 ^ 64 →
    ∀ name kind hdr, ldr.foundHeader m name kind = some hdr → 4 * vmPages hdr ≤ σ.kPmmFree.toNat →
    Instantiates root m hdr (ldr.fCachedBlob + PEFCommandHeader.Offset.get hdr) σ
      (ldr.findSymbol root m name kind σ).val := by
  intro claim
  have header : (mainLoader.foundHeader bssBlob (some symbolMain) kPefCode).map (fun hdr =>
      (vmPages hdr, mainLoader.contentAt hdr)) = some (1, 0) := by decide +kernel
  obtain ⟨hdr, found, same⟩ := Option.map_eq_some_iff.mp header
  obtain ⟨pages, source⟩ := Prod.ext_iff.mp same
  have whole := claim (fun _ => 0) 0x1000 0x8000 [] _ (.nil _) 1 0 0x1000 emptyTables emptyTables_built (by decide) []
    emptyTables (.nil _) (by decide) mainLoader bssBlob (by decide) (some symbolMain) kPefCode hdr found
    (by rw [show vmPages hdr = 1 from pages]; decide)
  have returned := whole.returned
  rw [PEFLoader.findSymbol_val, found] at returned
  dsimp only at returned
  rw [show mainLoader.contentAt hdr = 0 from source, pefLoadSection, if_pos rfl, Traced.val_pure] at returned
  cases returned

end Ne.Kernel.Ldr
