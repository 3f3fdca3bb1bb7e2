import NeKernel.FS.NeAccounting

/-!
# Where a volume's structures lie

The parser adds numbers of sectors to addresses the drivers take as bytes, so that the catalogs behind
the partition block and the data behind a fork share its sector.
-/

namespace Ne.Kernel.FS
open ByteMem Loops Runs

/-! ## Structures and their sectors -/

inductive Piece
  | block
  | catalog (slot : Lba)
  | fork (lba : Lba)
  | data (lba : Lba) (i : Nat)
  deriving DecidableEq

namespace Piece

/-- The address of the packet the structure is written with. -/
def address (drive : NeDrive) : Piece → Lba
  | block => drive.fLbaStart
  | catalog slot => slot
  | fork lba => lba
  | data lba i => lba + 1 + BitVec.ofNat 64 i

def bytes : Piece → Nat
  | block => NefsRootPartitionBlock.size
  | catalog _ => NefsCatalogStruct.size
  | fork _ => NefsForkStruct.size
  | data _ _ => kNeFSSectorSz

def first (drive : NeDrive) (p : Piece) : Nat := drive.sectorOf (p.address drive)

def sectors (p : Piece) : Nat := (p.bytes + kNeFSSectorSz - 1) / kNeFSSectorSz

def Holds (drive : NeDrive) (p : Piece) (s : Nat) : Prop :=
  p.first drive ≤ s ∧ s < p.first drive + p.sectors

/-- One of the two ends before the other. -/
def Apart (drive : NeDrive) (p q : Piece) : Prop :=
  p.first drive + p.sectors ≤ q.first drive ∨ q.first drive + q.sectors ≤ p.first drive

instance (drive : NeDrive) (p q : Piece) : Decidable (p.Apart drive q) :=
  inferInstanceAs (Decidable (_ ∨ _))

variable {drive : NeDrive} {p q : Piece}

theorem sectors_pos (p : Piece) : 0 < p.sectors := by
  cases p with
  | block => exact (by decide : 0 < (512 + 512 - 1) / 512)
  | catalog => exact (by decide : 0 < (535 + 512 - 1) / 512)
  | fork => exact (by decide : 0 < (512 + 512 - 1) / 512)
  | data => exact (by decide : 0 < (512 + 512 - 1) / 512)

theorem Apart.symm (apart : p.Apart drive q) : q.Apart drive p := Or.symm apart

theorem apart_iff : p.Apart drive q ↔ ∀ s, p.Holds drive s → ¬ q.Holds drive s := by
  have hp := p.sectors_pos
  have hq := q.sectors_pos
  constructor
  · rintro apart s ⟨low, high⟩ ⟨low', high'⟩
    rcases apart with before | behind <;> omega
  · intro none
    by_contra meet
    have meets : ¬ (p.first drive + p.sectors ≤ q.first drive) ∧
      ¬ (q.first drive + q.sectors ≤ p.first drive) := not_or.mp meet
    exact none (max (p.first drive) (q.first drive)) ⟨by omega, by omega⟩ ⟨by omega, by omega⟩

end Piece

/-- No sector holds two of the structures. -/
def Separate (drive : NeDrive) (held : List Piece) : Prop :=
  ∀ p ∈ held, ∀ q ∈ held, p ≠ q → ∀ s, p.Holds drive s → ¬ q.Holds drive s

/-- The structure lies apart from the others. -/
def Fresh (drive : NeDrive) (p : Piece) (held : List Piece) : Prop :=
  ∀ q ∈ held, q ≠ p → p.Apart drive q

section Lists
variable {drive : NeDrive} {p : Piece} {held added : List Piece}

theorem Separate.mono (separate : Separate drive held) (fewer : added ⊆ held) : Separate drive added :=
  fun p inP q inQ => separate p (fewer inP) q (fewer inQ)

theorem separate_insert : Separate drive (held.insert p) ↔ Separate drive held ∧ Fresh drive p held := by
  constructor
  · intro separate
    refine ⟨separate.mono fun q => List.mem_insert_of_mem, fun q member other => ?_⟩
    exact Piece.apart_iff.mpr
      (separate p List.mem_insert_self q (List.mem_insert_of_mem member) other.symm)
  · rintro ⟨separate, fresh⟩ q memberQ r memberR other
    rcases List.mem_insert_iff.mp memberQ with isQ | inQ
    · subst isQ
      rcases List.mem_insert_iff.mp memberR with isR | inR
      · exact absurd isR.symm other
      · exact Piece.apart_iff.mp (fresh r inR other.symm)
    · rcases List.mem_insert_iff.mp memberR with isR | inR
      · subst isR
        exact Piece.apart_iff.mp (fresh q inQ other).symm
      · exact separate q inQ r inR other

theorem separate_append : Separate drive (added ++ held) ↔
    Separate drive added ∧ Separate drive held ∧ ∀ p ∈ added, Fresh drive p held := by
  constructor
  · intro separate
    refine ⟨separate.mono (List.subset_append_left _ _), separate.mono (List.subset_append_right _ _),
      fun p inP q inQ other => ?_⟩
    exact Piece.apart_iff.mpr
      (separate p (List.mem_append_left _ inP) q (List.mem_append_right _ inQ) other.symm)
  · rintro ⟨left, right, fresh⟩ p inP q inQ other
    rcases List.mem_append.mp inP with inP | inP <;> rcases List.mem_append.mp inQ with inQ | inQ
    · exact left p inP q inQ other
    · exact Piece.apart_iff.mp (fresh p inP q inQ other.symm)
    · exact Piece.apart_iff.mp (fresh q inQ p inP other).symm
    · exact right p inP q inQ other

end Lists

/-! ## A fork and its data -/

section Forks
variable {drive : NeDrive} {lba : Lba}

theorem sectorOf_next (drive : NeDrive) (lba : Lba) : drive.sectorOf (lba + 1) ≠ drive.sectorOf lba ↔
    lba.toNat % kNeFSSectorSz = kNeFSSectorSz - 1 := by
  have bound := lba.isLt
  have sector : kNeFSSectorSz = 512 := rfl
  have next : (lba + 1).toNat = (lba.toNat + 1) % 2 ^ 64 := by simp
  rw [NeDrive.sectorOf, NeDrive.sectorOf, NeDrive.lbaBits, next, sector]
  cases drive.ahci
  · simp only [Bool.false_eq_true, if_false]
    omega
  · simp only [if_true]
    omega

/-- The structures of a fork whose data takes `count` packets. -/
def forkPieces (lba : Lba) (count : Nat) : List Piece :=
  .fork lba :: (List.range count).map (.data lba)

theorem apart_of_first {p q : Piece} (oneP : p.sectors = 1) (oneQ : q.sectors = 1) :
    p.Apart drive q ↔ q.first drive ≠ p.first drive := by
  rw [Piece.Apart, oneP, oneQ]
  omega

theorem fork_sectors : (Piece.fork lba).sectors = 1 := (by decide : (512 + 512 - 1) / 512 = 1)

theorem data_sectors {i : Nat} : (Piece.data lba i).sectors = 1 := (by decide : (512 + 512 - 1) / 512 = 1)

theorem forkPieces_separate {count : Nat} : Separate drive (forkPieces lba count) ↔
    count = 0 ∨ count = 1 ∧ lba.toNat % kNeFSSectorSz = kNeFSSectorSz - 1 := by
  have fork_data : (Piece.fork lba).Apart drive (.data lba 0) ↔
      lba.toNat % kNeFSSectorSz = kNeFSSectorSz - 1 := by
    rw [apart_of_first fork_sectors data_sectors, ← sectorOf_next drive, Piece.first, Piece.first]
    simp [Piece.address]
  constructor
  · intro separate
    rcases Nat.lt_or_ge count 1 with zero | positive
    · exact .inl (by omega)
    have inFork : Piece.fork lba ∈ forkPieces lba count := List.mem_cons_self
    have inData (i : Nat) (bound : i < count) : Piece.data lba i ∈ forkPieces lba count :=
      List.mem_cons_of_mem _ (List.mem_map_of_mem (List.mem_range.mpr bound))
    have last := fork_data.mp (Piece.apart_iff.mpr (separate _ inFork _ (inData 0 positive) (by simp)))
    rcases Nat.lt_or_ge count 2 with one | several
    · exact .inr ⟨by omega, last⟩
    have apart : (Piece.data lba 0).Apart drive (.data lba 1) :=
      Piece.apart_iff.mpr (separate _ (inData 0 positive) _ (inData 1 several) (by simp))
    rw [apart_of_first data_sectors data_sectors] at apart
    have next : (lba + 1).toNat % kNeFSSectorSz = kNeFSSectorSz - 1 := by
      rw [← sectorOf_next drive]
      simpa [Piece.first, Piece.address] using apart
    have sum : (lba + 1).toNat = (lba.toNat + 1) % 2 ^ 64 := by simp
    have sector : kNeFSSectorSz = 512 := rfl
    rw [sum, sector] at next
    rw [sector] at last
    omega
  · rintro (rfl | ⟨rfl, last⟩) p inP q inQ other
    · rw [forkPieces, List.range_zero, List.map_nil, List.mem_singleton] at inP inQ
      exact absurd (inP.trans inQ.symm) other
    · have both : p = .fork lba ∧ q = .data lba 0 ∨ p = .data lba 0 ∧ q = .fork lba := by
        simp only [forkPieces, List.range_one, List.map_cons, List.map_nil, List.mem_cons,
          List.not_mem_nil, or_false] at inP inQ
        rcases inP with rfl | rfl <;> rcases inQ with rfl | rfl
        · exact absurd rfl other
        · exact .inl ⟨rfl, rfl⟩
        · exact .inr ⟨rfl, rfl⟩
        · exact absurd rfl other
      have apart := fork_data.mpr last
      rcases both with ⟨rfl, rfl⟩ | ⟨rfl, rfl⟩
      · exact Piece.apart_iff.mp apart
      · exact Piece.apart_iff.mp apart.symm

end Forks

/-! ## Histories -/

inductive LayoutCall
  | format (partName : List Byte)
  | create (beside : Beside) (name : CString) (flags kind : BitVec 32)
  | fork (beside : Beside) (fork : Image) (before : Nat → Byte)

/-- A volume, the structures that were written to it, and whether the partition block was read from the
address that every call but `Format` takes it from. -/
structure LayoutHistory where
  volume : NeVolume
  held : List Piece
  read : Bool

def Piece.ofFork (lba : Lba) : Piece → Bool
  | fork lba' => lba' = lba
  | data lba' _ => lba' = lba
  | _ => false

/-- A fork that is created again is the same fork. -/
def others (lba : Lba) (held : List Piece) : List Piece := held.filter fun p => ¬ p.ofFork lba

/-- Whether a call gets as far as reading the partition block. -/
def LayoutCall.reads : LayoutCall → Bool
  | .format _ => false
  | .create _ name _ kind => name.text ≠ [] ∧ endFits name.text kind
  | .fork _ theFork _ => forkFits theFork

inductive LayoutStep (drive : NeDrive) : LayoutCall → LayoutHistory → LayoutHistory → Prop
  | format {partName : List Byte} {h : LayoutHistory} :
      LayoutStep drive (.format partName) h ⟨(format drive partName h.volume).2,
        if (format drive partName h.volume).1 then h.held.insert .block else h.held, h.read⟩
  | create {beside : Beside} {name : CString} {flags kind : BitVec 32} {h : LayoutHistory} {fuel : Nat}
      {allocation : Option Allocation} :
      findSlot drive fuel beside name kind h.volume = some allocation →
      LayoutStep drive (.create beside name flags kind) h
        ⟨(useSlot drive name.text flags kind h.volume allocation).2,
          match allocation with
          | some ⟨_, .free slot _⟩ => h.held.insert (.catalog slot)
          | _ => h.held,
          h.read || (LayoutCall.create beside name flags kind).reads⟩
  | fork {beside : Beside} {fork : Image} {before : Nat → Byte} {h : LayoutHistory} {fuel : Nat}
      {slot : Option ForkSlot} :
      findForkSlot drive fuel beside fork before h.volume = some slot →
      LayoutStep drive (.fork beside fork before) h
        ⟨(useForkSlot drive fork h.volume slot).2.2,
          match slot with
          | some slot =>
            forkPieces slot.cursor.lba (forkSectors fork).toNat ++ others slot.cursor.lba h.held
          | none => h.held,
          h.read || (LayoutCall.fork beside fork before).reads⟩

/-- No two structures share a sector, and the partition block is read from where it was written. -/
structure LaidOut (drive : NeDrive) (h : LayoutHistory) : Prop where
  separate : Separate drive h.held
  placed : .block ∈ h.held → h.read = true →
    drive.sectorOf drive.fLbaStart = drive.sectorOf kNeFSRootCatalogStartAddress

/-- A block, a slot or a fork with its data that lie apart from all structures so far, and a block that
lies where it is read. -/
def Apportioned (drive : NeDrive) (call : LayoutCall) (h : LayoutHistory) : Prop :=
  match call with
  | .format partName => (format drive partName h.volume).1 = true → Fresh drive .block h.held ∧
      (h.read = true → drive.sectorOf drive.fLbaStart = drive.sectorOf kNeFSRootCatalogStartAddress)
  | .create beside name _ kind =>
      (call.reads = true → .block ∈ h.held →
        drive.sectorOf drive.fLbaStart = drive.sectorOf kNeFSRootCatalogStartAddress) ∧
      ∀ fuel outLba slot old,
        findSlot drive fuel beside name kind h.volume = some (some ⟨outLba, .free slot old⟩) →
          Fresh drive (.catalog slot) h.held
  | .fork beside fork before =>
      (call.reads = true → .block ∈ h.held →
        drive.sectorOf drive.fLbaStart = drive.sectorOf kNeFSRootCatalogStartAddress) ∧
      ∀ fuel slot, findForkSlot drive fuel beside fork before h.volume = some (some slot) →
        ((forkSectors fork).toNat = 0 ∨ (forkSectors fork).toNat = 1 ∧
          slot.cursor.lba.toNat % kNeFSSectorSz = kNeFSSectorSz - 1) ∧
        ∀ p ∈ forkPieces slot.cursor.lba (forkSectors fork).toNat,
          Fresh drive p (others slot.cursor.lba h.held)

section Steps
variable {drive : NeDrive} {call : LayoutCall} {h h₁ h₂ : LayoutHistory}

theorem layout_functional (first : LayoutStep drive call h h₁) (second : LayoutStep drive call h h₂) :
    h₁ = h₂ := by
  cases first with
  | format =>
      cases second with
      | format => rfl
  | create found =>
      cases second with
      | create found' => rw [findSlot_steady.unique found found']
  | fork found =>
      cases second with
      | fork found' => rw [findForkSlot_steady.unique found found']

theorem block_insert {held : List Piece} {slot : Lba} :
    Piece.block ∈ held.insert (.catalog slot) ↔ Piece.block ∈ held := by
  simp [List.mem_insert_iff]

theorem block_fork {held : List Piece} {lba : Lba} {count : Nat} :
    Piece.block ∈ forkPieces lba count ++ others lba held ↔ Piece.block ∈ held := by
  simp [forkPieces, others, Piece.ofFork]

theorem placed_iff {P Q : Prop} {read reads : Bool} (before : P → read = true → Q) :
    (P → (read || reads) = true → Q) ↔ (reads = true → P → Q) := by
  cases read with
  | true => exact ⟨fun all _ p => all p rfl, fun _ p _ => before p rfl⟩
  | false => exact ⟨fun all yes p => all p (by simpa using yes), fun all p yes => all (by simpa using yes) p⟩

theorem laidOut_iff {v : NeVolume} {held : List Piece} {reads : Bool} (laid : LaidOut drive h)
    (block : .block ∈ held ↔ .block ∈ h.held) : LaidOut drive ⟨v, held, h.read || reads⟩ ↔
      Separate drive held ∧ (reads = true → .block ∈ h.held →
        drive.sectorOf drive.fLbaStart = drive.sectorOf kNeFSRootCatalogStartAddress) := by
  rw [← placed_iff laid.placed, ← block]
  exact ⟨fun after => ⟨after.separate, after.placed⟩, fun after => ⟨after.1, after.2⟩⟩

theorem step_laidOut (laid : LaidOut drive h) (taken : LayoutStep drive call h h₁) :
    LaidOut drive h₁ ↔ Apportioned drive call h := by
  cases taken with
  | @format partName _ =>
      rw [Apportioned]
      cases made : (format drive partName h.volume).1 with
      | false => exact ⟨fun _ => nofun, fun _ => ⟨laid.separate, laid.placed⟩⟩
      | true =>
          constructor
          · rintro ⟨separate, placed⟩ _
            exact ⟨(separate_insert.mp separate).2, placed List.mem_insert_self⟩
          · intro apportioned
            obtain ⟨fresh, placed⟩ := apportioned rfl
            exact ⟨separate_insert.mpr ⟨laid.separate, fresh⟩, fun _ => placed⟩
  | @create beside name flags kind _ fuel allocation found =>
      have kept (unchanged : ∀ outLba slot old, allocation ≠ some ⟨outLba, .free slot old⟩) :
          (∀ fuel outLba slot old,
            findSlot drive fuel beside name kind h.volume = some (some ⟨outLba, .free slot old⟩) →
              Fresh drive (.catalog slot) h.held) := by
        intro fuel' outLba slot old found'
        exact absurd (findSlot_steady.unique found found') (unchanged outLba slot old)
      rcases allocation with _ | ⟨outLba, slot⟩
      · rw [laidOut_iff laid Iff.rfl, Apportioned]
        exact ⟨fun after => ⟨after.2, kept nofun⟩, fun before => ⟨laid.separate, before.1⟩⟩
      cases slot with
      | present catalog =>
          rw [laidOut_iff laid Iff.rfl, Apportioned]
          refine ⟨fun after => ⟨after.2, kept ?_⟩, fun before => ⟨laid.separate, before.1⟩⟩
          intro outLba' slot old same
          cases same
      | free slot old =>
          rw [laidOut_iff laid block_insert, Apportioned]
          constructor
          · rintro ⟨separate, placed⟩
            refine ⟨placed, fun fuel' outLba' slot' old' found' => ?_⟩
            cases findSlot_steady.unique found found'
            exact (separate_insert.mp separate).2
          · rintro ⟨placed, fresh⟩
            exact ⟨separate_insert.mpr ⟨laid.separate, fresh _ _ _ _ found⟩, placed⟩
  | @fork beside fork before _ fuel slot found =>
      cases slot with
      | none =>
          rw [laidOut_iff laid Iff.rfl, Apportioned]
          refine ⟨fun after => ⟨after.2, fun fuel' slot' found' => ?_⟩, fun before => ⟨laid.separate, before.1⟩⟩
          cases findForkSlot_steady.unique found found'
      | some slot =>
          rw [laidOut_iff laid block_fork, separate_append, forkPieces_separate, Apportioned]
          constructor
          · rintro ⟨⟨own, -, fresh⟩, placed⟩
            refine ⟨placed, fun fuel' slot' found' => ?_⟩
            cases findForkSlot_steady.unique found found'
            exact ⟨own, fresh⟩
          · rintro ⟨placed, apart⟩
            obtain ⟨own, fresh⟩ := apart _ _ found
            exact ⟨⟨own, laid.separate.mono fun p => List.mem_of_mem_filter, fresh⟩, placed⟩

end Steps

/-! ## A file on a blank drive -/

def blankHistory : LayoutHistory := ⟨⟨fun _ => zeroed, true⟩, [], false⟩

theorem blankHistory_laidOut (drive : NeDrive) : LaidOut drive blankHistory :=
  ⟨fun _ member => absurd member List.not_mem_nil, fun member => absurd member List.not_mem_nil⟩

/-- A drive that starts at the last address of its sector. -/
def edgeDrive : NeDrive := { preparedDrive with fLbaStart := 1535 }

def formatAndCreate : List LayoutCall :=
  [.format (utf8 ['N']), .create cleared pathA 0 kNeFSCatalogKindFile]

theorem formatAndCreate_run (drive : NeDrive) (slot : Lba)
    (free : (findSlot drive 2 cleared pathA kNeFSCatalogKindFile
        (format drive (utf8 ['N']) blankHistory.volume).2).map
      (·.map fun allocation => match allocation.slot with
        | .free slot _ => some slot
        | .present _ => none) = some (some (some slot)))
    (made : (format drive (utf8 ['N']) blankHistory.volume).1 = true) :
    ∃ v, Run (LayoutStep drive) blankHistory formatAndCreate ⟨v, [.catalog slot, .block], true⟩ := by
  obtain ⟨allocation, ends, shape⟩ := Option.map_eq_some_iff.mp free
  obtain ⟨⟨outLba, slot'⟩, rfl, shape⟩ := Option.map_eq_some_iff.mp shape
  cases slot' with
  | present catalog => cases shape
  | free slot' old =>
      cases shape
      have formatted : LayoutStep drive (.format (utf8 ['N'])) blankHistory
          ⟨(format drive (utf8 ['N']) blankHistory.volume).2,
            if (format drive (utf8 ['N']) blankHistory.volume).1 then blankHistory.held.insert .block
            else blankHistory.held, blankHistory.read⟩ := .format
      have created : LayoutStep drive (.create cleared pathA 0 kNeFSCatalogKindFile)
          ⟨(format drive (utf8 ['N']) blankHistory.volume).2, [.block], false⟩
          ⟨(useSlot drive pathA.text 0 kNeFSCatalogKindFile (format drive (utf8 ['N']) blankHistory.volume).2
              (some ⟨outLba, .free slot old⟩)).2, List.insert (.catalog slot) [.block],
            false || (LayoutCall.create cleared pathA 0 kNeFSCatalogKindFile).reads⟩ := .create ends
      have reads : (LayoutCall.create cleared pathA 0 kNeFSCatalogKindFile).reads = true := by decide
      rw [made, if_pos rfl] at formatted
      rw [reads] at created
      exact ⟨_, .cons formatted (.single created)⟩

end Ne.Kernel.FS
