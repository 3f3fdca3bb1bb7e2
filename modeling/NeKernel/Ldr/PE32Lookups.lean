import NeKernel.Ldr.PE32Loader
import NeKernel.Lib.Terminated

/-!
# Lookups in a PE32+ blob

`FindSectionByName` and `FindSymbol`. Neither looks at the length of the blob, so each reads inside it
exactly when the tables and strings it goes through lie there.
-/

namespace Ne.Kernel.Ldr
open ByteMem Access

def kPETypeText : BitVec 32 := 100
def kPETypeData : BitVec 32 := 101
def kPETypeBSS : BitVec 32 := 102

namespace LdrDataDirectory
def VirtualAddress : Field := { off := 0, size := 4 }
def Size : Field := { off := 4, size := 4 }
end LdrDataDirectory

namespace LdrExportDirectory
def NumberOfNames : Field := { off := 24, size := 4 }
def AddressOfFunctions : Field := { off := 28, size := 4 }
def AddressOfNames : Field := { off := 32, size := 4 }
def AddressOfNameOrdinal : Field := { off := 36, size := 4 }
end LdrExportDirectory

def pointerEntry : Field := { off := 0, size := 8 }
def wordEntry : Field := { off := 0, size := 4 }
def halfEntry : Field := { off := 0, size := 2 }

/-- The entry of a table at `table`, by its index. -/
def entryAt (f : Field) (table : UIntPtr) (i : Nat) : UIntPtr := table + BitVec.ofNat 64 (i * f.size)

/-- The characters of a string that a caller passes. -/
def textOf (name : List Byte) : List Byte := name.takeWhile (· ≠ 0)

namespace PE32Loader

def sectionAt (secs : UIntPtr) (i : Nat) : UIntPtr := secs + BitVec.ofNat 64 (i * LdrSectionHeader.size)

/-- The loop over the sections. -/
def findSection (m : Memory) (secs : UIntPtr) (text : List Byte) (count : Nat) : Traced Access (Option UIntPtr) :=
  Traced.search (fun i => do
    let same ← equalsAt m (sectionAt secs i) text
    pure (if same then some (sectionAt secs i) else none)) count 0

/-- `FindSectionByName`, null when it returns an error. -/
def findSectionByName (m : Memory) (ldr : PE32Loader) : Option (List Byte) → Traced Access UIntPtr
  | none => pure 0
  | some name =>
      if ldr.fCachedBlob = 0 ∨ ldr.fBad = true then pure 0
      else do
        let header ← ldrFindExecHeader m ldr.fCachedBlob
        let opt ← ldrFindOptExecHeader m ldr.fCachedBlob
        if header = 0 ∨ opt = 0 then pure 0
        else do
          let machine ← LdrExecHeader.Machine.fetch m header
          if machine ≠ kPeMachineAMD64 then pure 0
          else do
            let signature ← LdrExecHeader.Signature.fetch m header
            if signature ≠ kPeSignature then pure 0
            else do
              let sections ← LdrExecHeader.NumberOfSections.fetch m header
              if sections < 1 then pure 0
              else do
                let subsystem ← LdrOptionalHeader.Subsystem.fetch m opt
                if subsystem ≠ kNeKernelPESubsystem then pure 0
                else do
                  let optSize ← LdrExecHeader.SizeOfOptionalHeader.fetch m header
                  let found ← findSection m (opt + optSize) (textOf name) sections.toNat
                  pure (found.getD 0)

def sectionName (kind : BitVec 32) : Option (List Byte) :=
  if kind = kPETypeData then some [0x2E, 0x64, 0x61, 0x74, 0x61]
  else if kind = kPETypeBSS then some [0x2E, 0x62, 0x73, 0x73]
  else if kind = kPETypeText then some [0x2E, 0x74, 0x65, 0x78, 0x74]
  else none

/-- The tables of an export directory. -/
structure Exports where
  names : UIntPtr
  ordinals : UIntPtr
  functions : UIntPtr

/-- One turn of the loop over the exported names. -/
def tryExport (m : Memory) (blob : UIntPtr) (tables : Exports) (text : List Byte) (i : Nat) :
    Traced Access (Option UIntPtr) := do
  let rva ← wordEntry.fetch m (entryAt wordEntry tables.names i)
  let same ← equalsAt m (blob + rva) text
  if same = false then pure none
  else do
    let ordinal ← halfEntry.fetch m (entryAt halfEntry tables.ordinals i)
    let symbol ← wordEntry.fetch m (entryAt wordEntry tables.functions ordinal.toNat)
    pure (some (blob + symbol))

/-- The export directory whose entry follows the optional header. -/
def findExport (m : Memory) (blob opt : UIntPtr) (text : List Byte) : Traced Access (Option UIntPtr) := do
  let dirs := opt + BitVec.ofNat 64 LdrOptionalHeader.size
  let va ← LdrDataDirectory.VirtualAddress.fetch m dirs
  if va = 0 then pure none
  else do
    let size ← LdrDataDirectory.Size.fetch m dirs
    if size = 0 then pure none
    else do
      let dir := blob + va
      let names ← LdrExportDirectory.AddressOfNames.fetch m dir
      let ordinals ← LdrExportDirectory.AddressOfNameOrdinal.fetch m dir
      let functions ← LdrExportDirectory.AddressOfFunctions.fetch m dir
      let count ← LdrExportDirectory.NumberOfNames.fetch m dir
      Traced.search (tryExport m blob ⟨blob + names, blob + ordinals, blob + functions⟩ text) count.toNat 0

/-- `FindSymbol`. The section that `kind` asks for has to be there, and its first eight bytes are taken
for a pointer that must not be null. -/
def findSymbol (m : Memory) (ldr : PE32Loader) (kind : BitVec 32) :
    Option (List Byte) → Traced Access (Option UIntPtr)
  | none => pure none
  | some name =>
      if ldr.fCachedBlob = 0 ∨ ldr.fBad = true then pure none
      else match sectionName kind with
        | none => pure none
        | some sectName => do
            let sec ← findSectionByName m ldr (some sectName)
            if sec = 0 then pure none
            else do
              let pointed ← pointerEntry.fetch m sec
              if pointed = 0 then pure none
              else do
                let opt ← ldrFindOptExecHeader m ldr.fCachedBlob
                if opt = 0 then pure none else findExport m ldr.fCachedBlob opt (textOf name)

/-! ## What the lookups need of the blob -/

section Conditions
variable (m : Memory) (blob : UIntPtr) (len : Nat)

def signature : BitVec 64 := LdrExecHeader.Signature.on m (blob + BitVec.ofNat 64 128)

def sectionCount : Nat := (LdrExecHeader.NumberOfSections.on m (blob + BitVec.ofNat 64 128)).toNat

def optionalSize : BitVec 64 := LdrExecHeader.SizeOfOptionalHeader.on m (blob + BitVec.ofNat 64 128)

def sectionOf (k : Nat) : UIntPtr := sectionAt (blob + BitVec.ofNat 64 152 + optionalSize m blob) k

/-- The first section named `text` is not among the first `k`. -/
def Passed (text : List Byte) (k : Nat) : Prop := ∀ j < k, textAt m (sectionOf m blob j) ≠ text

/-- The names up to the first `text` end in the blob. -/
def SectionNamesIn (text : List Byte) : Prop :=
  signature m blob = kPeSignature → ∀ k < sectionCount m blob, Passed m blob text k →
    StringIn m blob len (sectionOf m blob k)

def exportEntry (f : Field) : BitVec 64 := f.on m (blob + BitVec.ofNat 64 248)

/-- A member of the export directory. -/
def exportMember (f : Field) : BitVec 64 := f.on m (blob + exportEntry m blob LdrDataDirectory.VirtualAddress)

def exportName (k : Nat) : UIntPtr :=
  blob + wordEntry.on m (entryAt wordEntry (blob + exportMember m blob LdrExportDirectory.AddressOfNames) k)

def exportOrdinal (k : Nat) : BitVec 64 :=
  halfEntry.on m (entryAt halfEntry (blob + exportMember m blob LdrExportDirectory.AddressOfNameOrdinal) k)

/-- The directory, the names up to the first `text` and what belongs to that lie in the blob. -/
structure ExportsIn (text : List Byte) : Prop where
  directory : (exportEntry m blob LdrDataDirectory.VirtualAddress).toNat + 40 ≤ len
  entries : ∀ k < (exportMember m blob LdrExportDirectory.NumberOfNames).toNat,
    (∀ j < k, textAt m (exportName m blob j) ≠ text) →
    (exportMember m blob LdrExportDirectory.AddressOfNames).toNat + k * 4 + 4 ≤ len ∧
    StringIn m blob len (exportName m blob k) ∧
    (textAt m (exportName m blob k) = text →
      (exportMember m blob LdrExportDirectory.AddressOfNameOrdinal).toNat + k * 2 + 2 ≤ len ∧
      (exportMember m blob LdrExportDirectory.AddressOfFunctions).toNat +
        (exportOrdinal m blob k).toNat * 4 + 4 ≤ len)

def DirectoryIn (text : List Byte) : Prop :=
  252 ≤ len ∧ (exportEntry m blob LdrDataDirectory.VirtualAddress ≠ 0 →
    256 ≤ len ∧ (exportEntry m blob LdrDataDirectory.Size ≠ 0 → ExportsIn m blob len text))

/-- What `FindSymbol` needs: the names of the sections, and eight bytes of the one it finds. -/
def SymbolIn (kind : BitVec 32) (text : List Byte) : Prop :=
  ∀ sectName, sectionName kind = some sectName →
    SectionNamesIn m blob len (textOf sectName) ∧
    (signature m blob = kPeSignature → ∀ k < sectionCount m blob, Passed m blob (textOf sectName) k →
      textAt m (sectionOf m blob k) = textOf sectName → sectionOf m blob k ≠ 0 →
      152 + (optionalSize m blob).toNat + k * 40 + 8 ≤ len ∧
      (pointerEntry.on m (sectionOf m blob k) ≠ 0 → DirectoryIn m blob len text))

end Conditions

section Reads
variable {m : Memory} {blob : UIntPtr} {len : SizeT} {text : List Byte} {tables : Exports} {k : Nat}

theorem tryExport_none : (tryExport m blob tables text k).val = none ↔
    textAt m (blob + wordEntry.on m (entryAt wordEntry tables.names k)) ≠ text := by
  simp only [tryExport, Traced.val_bind, Traced.val_ite, Traced.val_pure, Field.fetch_val, equalsAt_val,
    decide_eq_false_iff_not]
  split <;> simp_all

theorem tryExport_reads : Traced.Only (ReadsIn blob len.toNat) (tryExport m blob tables text k) ↔
    Covers blob len.toNat (entryAt wordEntry tables.names k) 4 ∧
    StringIn m blob len.toNat (blob + wordEntry.on m (entryAt wordEntry tables.names k)) ∧
    (textAt m (blob + wordEntry.on m (entryAt wordEntry tables.names k)) = text →
      Covers blob len.toNat (entryAt halfEntry tables.ordinals k) 2 ∧
      Covers blob len.toNat (entryAt wordEntry tables.functions
        (halfEntry.on m (entryAt halfEntry tables.ordinals k)).toNat) 4) := by
  have member (f : Field) (start : f.off = 0) (a : UIntPtr) : a + BitVec.ofNat 64 f.off = a := by
    rw [start]
    simp
  unfold tryExport
  simp only [Traced.only_bind, Traced.only_ite, Traced.only_pure, Field.only_fetch, Field.fetch_val, readsIn_read,
    equalsAt_reads len.isLt, equalsAt_val, member wordEntry rfl, member halfEntry rfl, implies_true, true_and,
    and_true, decide_eq_false_iff_not, not_not]
  rfl

theorem entryAt_covers {f : Field} {rva : BitVec 64} {i : Nat} (positive : 0 < f.size) (small : rva.toNat < 2 ^ 32)
    (index : i < 2 ^ 32) :
    Covers blob len.toNat (entryAt f (blob + rva) i) f.size ↔ rva.toNat + i * f.size + f.size ≤ len.toNat := by
  have narrow := f.small
  have size : i * f.size ≤ i * 8 := Nat.mul_le_mul_left i narrow
  exact covers_word_iff len.isLt positive (by omega)

theorem exportsIn_iff :
    (Covers blob len.toNat (blob + exportEntry m blob LdrDataDirectory.VirtualAddress + BitVec.ofNat 64 32) 4 ∧
      Covers blob len.toNat (blob + exportEntry m blob LdrDataDirectory.VirtualAddress + BitVec.ofNat 64 36) 4 ∧
      Covers blob len.toNat (blob + exportEntry m blob LdrDataDirectory.VirtualAddress + BitVec.ofNat 64 28) 4 ∧
      Covers blob len.toNat (blob + exportEntry m blob LdrDataDirectory.VirtualAddress + BitVec.ofNat 64 24) 4 ∧
      ∀ k, 0 ≤ k → k < 0 + (exportMember m blob LdrExportDirectory.NumberOfNames).toNat →
        (∀ j, 0 ≤ j → j < k → textAt m (exportName m blob j) ≠ text) →
        Covers blob len.toNat
          (entryAt wordEntry (blob + exportMember m blob LdrExportDirectory.AddressOfNames) k) 4 ∧
        StringIn m blob len.toNat (exportName m blob k) ∧
        (textAt m (exportName m blob k) = text →
          Covers blob len.toNat
            (entryAt halfEntry (blob + exportMember m blob LdrExportDirectory.AddressOfNameOrdinal) k) 2 ∧
          Covers blob len.toNat (entryAt wordEntry
            (blob + exportMember m blob LdrExportDirectory.AddressOfFunctions) (exportOrdinal m blob k).toNat) 4)) ↔
      ExportsIn m blob len.toNat text := by
  have va := LdrDataDirectory.VirtualAddress.on_lt m (blob + BitVec.ofNat 64 248)
  have word (f : Field) (four : f.size = 4) : (exportMember m blob f).toNat < 2 ^ 32 := by
    have bound := f.on_lt m (blob + exportEntry m blob LdrDataDirectory.VirtualAddress)
    rwa [four] at bound
  have count := word LdrExportDirectory.NumberOfNames rfl
  have member (off : Nat) (fits : off < 2 ^ 32) :
      Covers blob len.toNat (blob + exportEntry m blob LdrDataDirectory.VirtualAddress + BitVec.ofNat 64 off) 4 ↔
        (exportEntry m blob LdrDataDirectory.VirtualAddress).toNat + off + 4 ≤ len.toNat := by
    have small : (exportEntry m blob LdrDataDirectory.VirtualAddress).toNat < 2 ^ 32 := va
    exact covers_word_iff len.isLt (by omega) (by omega)
  have entry (k : Nat) (below : k < (exportMember m blob LdrExportDirectory.NumberOfNames).toNat) :=
    And.intro (@entryAt_covers blob len wordEntry _ k (by decide)
      (word LdrExportDirectory.AddressOfNames rfl) (by omega))
      (@entryAt_covers blob len halfEntry _ k (by decide)
        (word LdrExportDirectory.AddressOfNameOrdinal rfl) (by omega))
  have ordinal (k : Nat) : (exportOrdinal m blob k).toNat < 2 ^ 32 := by
    have bound := halfEntry.on_lt m
      (entryAt halfEntry (blob + exportMember m blob LdrExportDirectory.AddressOfNameOrdinal) k)
    exact Nat.lt_of_lt_of_le bound (by decide)
  have function (k : Nat) := @entryAt_covers blob len wordEntry _ _ (by decide)
    (word LdrExportDirectory.AddressOfFunctions rfl) (ordinal k)
  simp only [member _ (by decide : 24 < 2 ^ 32), member _ (by decide : 28 < 2 ^ 32),
    member _ (by decide : 32 < 2 ^ 32), member _ (by decide : 36 < 2 ^ 32)]
  constructor
  · rintro ⟨-, last, -, -, tries⟩
    refine ⟨last, fun k below misses => ?_⟩
    obtain ⟨inTable, ends, hit⟩ := tries k (Nat.zero_le k) (by omega) fun j _ less => misses j less
    refine ⟨(entry k below).1.mp inTable, ends, fun same => ?_⟩
    exact ⟨(entry k below).2.mp (hit same).1, (function k).mp (hit same).2⟩
  · rintro ⟨last, entries⟩
    refine ⟨by omega, by omega, by omega, by omega, fun k _ below misses => ?_⟩
    rw [Nat.zero_add] at below
    obtain ⟨inTable, ends, hit⟩ := entries k below fun j less => misses j (Nat.zero_le j) less
    refine ⟨(entry k below).1.mpr inTable, ends, fun same => ?_⟩
    exact ⟨(entry k below).2.mpr (hit same).1, (function k).mpr (hit same).2⟩

theorem findExport_reads : Traced.Only (ReadsIn blob len.toNat)
      (findExport m blob (blob + BitVec.ofNat 64 152) text) ↔ DirectoryIn m blob len.toNat text := by
  have dirs : blob + BitVec.ofNat 64 152 + BitVec.ofNat 64 LdrOptionalHeader.size = blob + BitVec.ofNat 64 248 := by
    rw [BitVec.add_assoc]
    rfl
  have entry (off : Nat) (fits : off < 2 ^ 32) :
      Covers blob len.toNat (blob + BitVec.ofNat 64 248 + BitVec.ofNat 64 off) 4 ↔ 248 + off + 4 ≤ len.toNat :=
    covers_word_iff (v := BitVec.ofNat 64 248) len.isLt (by omega) (by rw [BitVec.toNat_ofNat]; omega)
  unfold findExport
  simp only [Traced.only_bind, Traced.only_ite, Traced.only_pure, Field.only_fetch, Field.fetch_val, readsIn_read,
    Traced.only_search, tryExport_reads, tryExport_none, dirs, implies_true, true_and]
  refine and_congr (entry 0 (by omega)) (imp_congr Iff.rfl (and_congr (entry 4 (by omega))
    (imp_congr Iff.rfl ?_)))
  exact exportsIn_iff

theorem findSection_reads {secs : UIntPtr} {count : Nat} :
    Traced.Only (ReadsIn blob len.toNat) (findSection m secs text count) ↔
      ∀ k < count, (∀ j < k, textAt m (sectionAt secs j) ≠ text) → StringIn m blob len.toNat (sectionAt secs k) := by
  have miss (j : Nat) : (if textAt m (sectionAt secs j) = text then some (sectionAt secs j) else none) = none ↔
      textAt m (sectionAt secs j) ≠ text := by
    split <;> simp_all
  unfold findSection
  simp only [Traced.only_search, Traced.only_bind, Traced.only_pure, Traced.val_bind, Traced.val_pure,
    equalsAt_reads len.isLt, equalsAt_val, decide_eq_true_eq, miss, and_true, Nat.zero_le, forall_true_left,
    Nat.zero_add]

theorem findSection_some {secs sec : UIntPtr} {count : Nat} :
    (findSection m secs text count).val = some sec ↔
      ∃ k < count, sec = sectionAt secs k ∧ textAt m (sectionAt secs k) = text ∧
        ∀ j < k, textAt m (sectionAt secs j) ≠ text := by
  unfold findSection
  simp only [Traced.search_some, Traced.val_bind, Traced.val_pure, equalsAt_val, decide_eq_true_eq, Nat.zero_le,
    true_and, Nat.zero_add, forall_true_left]
  constructor
  · rintro ⟨k, below, hit, misses⟩
    by_cases same : textAt m (sectionAt secs k) = text
    · rw [if_pos same] at hit
      refine ⟨k, below, (Option.some.inj hit).symm, same, fun j less equal => ?_⟩
      have none := misses j less
      rw [if_pos equal] at none
      cases none
    · rw [if_neg same] at hit
      cases hit
  · rintro ⟨k, below, rfl, same, misses⟩
    exact ⟨k, below, if_pos same, fun j less => if_neg (misses j less)⟩

theorem sectionOf_covers {k : Nat} (below : k < sectionCount m blob) :
    Covers blob len.toNat (sectionOf m blob k) 8 ↔ 152 + (optionalSize m blob).toNat + k * 40 + 8 ≤ len.toNat := by
  have narrow : (optionalSize m blob).toNat < 65536 :=
    LdrExecHeader.SizeOfOptionalHeader.on_lt m (blob + BitVec.ofNat 64 128)
  have few : sectionCount m blob < 65536 := LdrExecHeader.NumberOfSections.on_lt m (blob + BitVec.ofNat 64 128)
  have sum : sectionOf m blob k = blob + BitVec.ofNat 64 (152 + (optionalSize m blob).toNat + k * 40) := by
    rw [BitVec.ofNat_add, BitVec.ofNat_add, BitVec.ofNat_toNat, BitVec.setWidth_eq, ← BitVec.add_assoc,
      ← BitVec.add_assoc]
    rfl
  rw [sum, covers_offset_iff len.isLt (by omega) (by omega)]

section Headers
variable (good : Accepted m blob len)
include good

theorem Accepted.header_reads (f : Field) (at' : Nat) (fits : at' + f.off + f.size ≤ 248) :
    Covers blob len.toNat (blob + BitVec.ofNat 64 at' + BitVec.ofNat 64 f.off) f.size := by
  have long := good.long
  rw [BitVec.add_assoc, ← BitVec.ofNat_add]
  exact covers_offset (by omega)

theorem Accepted.finds_reads : Traced.Only (ReadsIn blob len.toNat) (ldrFindExecHeader m blob) ∧
    Traced.Only (ReadsIn blob len.toNat) (ldrFindOptExecHeader m blob) := by
  have long := good.long
  have first : Covers blob len.toNat blob 1 := by
    simpa using @covers_offset blob len.toNat 1 0 (by omega)
  have second : Covers blob len.toNat (blob + 1) 1 := @covers_offset _ _ _ 1 (by omega)
  exact ⟨ldrFindExecHeader_only first second, ldrFindOptExecHeader_only first second⟩

end Headers

section Accepted
variable (accepted : (make m blob len).val.fBad = false)
include accepted

theorem findSectionByName_reads {name : List Byte} :
    Traced.Only (ReadsIn blob len.toNat) (findSectionByName m (make m blob len).val (some name)) ↔
      SectionNamesIn m blob len.toNat (textOf name) := by
  have good := accepted_of_make accepted
  have blobIs : (make m blob len).val.fCachedBlob = blob := by
    simp only [make, Traced.val_bind, Traced.val_pure]
  unfold findSectionByName
  simp only [Traced.only_bind, Traced.only_ite, Traced.only_pure, Field.only_fetch, Field.fetch_val, readsIn_read,
    blobIs, accepted, good.header, good.opt, good.machine, good.subsystem, good.nonnull, good.placed,
    good.finds_reads.1, good.finds_reads.2, findSection_reads, implies_true, true_and, and_true, or_false,
    Bool.false_eq_true, not_false_eq_true, forall_true_left, ne_eq, not_true_eq_false, not_not]
  constructor
  · rintro ⟨-, -, stays⟩ signed k below
    have some : ¬ LdrExecHeader.NumberOfSections.on m (blob + BitVec.ofNat 64 128) < 1 := by
      intro none
      have zero : sectionCount m blob < 1 := BitVec.lt_def.mp none
      omega
    exact ((stays signed).2 some).2.2 k below
  · intro stays
    refine ⟨good.header_reads _ 128 (by decide), good.header_reads _ 128 (by decide), fun signed =>
      ⟨good.header_reads _ 128 (by decide), fun _ => ⟨good.header_reads _ 152 (by decide),
        good.header_reads _ 128 (by decide), fun k below misses => stays signed k below misses⟩⟩⟩

theorem findSectionByName_val {name : List Byte} {sec : UIntPtr} (some' : sec ≠ 0) :
    (findSectionByName m (make m blob len).val (some name)).val = sec ↔
      signature m blob = kPeSignature ∧ ∃ k < sectionCount m blob, sec = sectionOf m blob k ∧
        textAt m (sectionOf m blob k) = textOf name ∧ Passed m blob (textOf name) k := by
  have good := accepted_of_make accepted
  have blobIs : (make m blob len).val.fCachedBlob = blob := by
    simp only [make, Traced.val_bind, Traced.val_pure]
  unfold findSectionByName
  simp only [Traced.val_bind, Traced.val_ite, Traced.val_pure, Field.fetch_val,
    blobIs, accepted, good.header, good.opt, good.machine, good.subsystem, good.nonnull, good.placed,
    or_false, Bool.false_eq_true, ne_eq, not_true_eq_false, if_false]
  by_cases signed : LdrExecHeader.Signature.on m (blob + BitVec.ofNat 64 128) = kPeSignature
  · rw [if_neg (not_not.mpr signed)]
    by_cases none : LdrExecHeader.NumberOfSections.on m (blob + BitVec.ofNat 64 128) < 1
    · rw [if_pos none]
      have zero : sectionCount m blob < 1 := BitVec.lt_def.mp none
      constructor
      · exact fun null => absurd null.symm some'
      · rintro ⟨-, k, below, -⟩
        omega
    · rw [if_neg none]
      constructor
      · intro returned
        cases found : (findSection m (blob + BitVec.ofNat 64 152 + optionalSize m blob) (textOf name)
            (sectionCount m blob)).val with
        | none =>
            rw [optionalSize, sectionCount] at found
            rw [found] at returned
            exact absurd returned.symm some'
        | some sec' =>
            obtain ⟨k, below, same, named, misses⟩ := findSection_some.mp found
            rw [optionalSize, sectionCount] at found
            rw [found, Option.getD_some] at returned
            exact ⟨signed, k, below, returned ▸ same, named, misses⟩
      · rintro ⟨-, k, below, same, named, misses⟩
        have found := findSection_some.mpr ⟨k, below, same, named, misses⟩
        rw [optionalSize, sectionCount] at found
        rw [found, Option.getD_some]
  · rw [if_pos signed]
    exact ⟨fun null => absurd null.symm some', fun found => absurd found.1 signed⟩

theorem findSymbol_reads {kind : BitVec 32} {name : List Byte} :
    Traced.Only (ReadsIn blob len.toNat) (findSymbol m (make m blob len).val kind (some name)) ↔
      SymbolIn m blob len.toNat kind (textOf name) := by
  have good := accepted_of_make accepted
  have blobIs : (make m blob len).val.fCachedBlob = blob := by
    simp only [make, Traced.val_bind, Traced.val_pure]
  have first (sec : UIntPtr) : sec + BitVec.ofNat 64 pointerEntry.off = sec := by
    show sec + BitVec.ofNat 64 0 = sec
    simp
  have eight : pointerEntry.size = 8 := rfl
  unfold findSymbol SymbolIn
  simp only [Traced.only_ite, Traced.only_pure, blobIs, accepted, good.nonnull, or_false, Bool.false_eq_true,
    not_false_eq_true, implies_true, true_and, forall_true_left]
  cases sectionName kind with
  | none => simp
  | some sectName =>
      simp only [Traced.only_bind, Traced.only_ite, Traced.only_pure, Field.only_fetch, Field.fetch_val,
        readsIn_read, findSectionByName_reads accepted, findExport_reads, good.finds_reads.2, good.opt, first,
        eight, Option.some.injEq, forall_eq', implies_true, true_and]
      refine and_congr Iff.rfl ?_
      have placed := (not_or.mp good.placed).2
      constructor
      · intro stays signed k below misses named some'
        have returned := (@findSectionByName_val m blob len accepted sectName _ some').mpr
          ⟨signed, k, below, rfl, named, misses⟩
        rw [returned] at stays
        obtain ⟨eightIn, rest⟩ := stays some'
        exact ⟨(sectionOf_covers below).mp eightIn, fun pointed => rest pointed placed⟩
      · intro stays some'
        obtain ⟨signed, k, below, same, named, misses⟩ := (findSectionByName_val accepted some').mp rfl
        rw [same] at some' ⊢
        obtain ⟨eightIn, rest⟩ := stays signed k below misses named some'
        exact ⟨(sectionOf_covers below).mpr eightIn, fun pointed _ => rest pointed⟩

end Accepted

/-- The two lookups read in the blob exactly when what they go through lies there. -/
theorem lookups_read_iff (m : Memory) (blob : UIntPtr) (len : SizeT)
    (accepted : (make m blob len).val.fBad = false) (name : List Byte) (kind : BitVec 32) :
    (Traced.Only (ReadsIn blob len.toNat) (findSectionByName m (make m blob len).val (some name)) ↔
      SectionNamesIn m blob len.toNat (textOf name)) ∧
    (Traced.Only (ReadsIn blob len.toNat) (findSymbol m (make m blob len).val kind (some name)) ↔
      SymbolIn m blob len.toNat kind (textOf name)) :=
  ⟨findSectionByName_reads accepted, findSymbol_reads accepted⟩

theorem lookups_read_iff_imageBlob :
    (Traced.Only (ReadsIn imageAt (288 : SizeT).toNat)
        (findSectionByName imageBlob (make imageBlob imageAt 288).val (some [0x61])) ↔
      SectionNamesIn imageBlob imageAt (288 : SizeT).toNat (textOf [0x61])) ∧
    (Traced.Only (ReadsIn imageAt (288 : SizeT).toNat)
        (findSymbol imageBlob (make imageBlob imageAt 288).val kPETypeText (some [0x61])) ↔
      SymbolIn imageBlob imageAt (288 : SizeT).toNat kPETypeText (textOf [0x61])) := by
  have accepted : (make imageBlob imageAt 288).val.fBad = false := by decide +kernel
  exact lookups_read_iff imageBlob imageAt 288 accepted [0x61] kPETypeText

/-- The headers name one section, whose header the blob does not have. -/
theorem headers_only_read_beyond :
    (make imageBlob imageAt 248).val.fBad = false ∧
    ¬ Traced.Only (ReadsIn imageAt (248 : SizeT).toNat)
      (findSectionByName imageBlob (make imageBlob imageAt 248).val (some [0x61])) ∧
    ¬ Traced.Only (ReadsIn imageAt (248 : SizeT).toNat)
      (findSymbol imageBlob (make imageBlob imageAt 248).val kPETypeText (some [0x61])) := by
  have accepted : (make imageBlob imageAt 248).val.fBad = false := by decide +kernel
  have missing (text : List Byte) : ¬ SectionNamesIn imageBlob imageAt (248 : SizeT).toNat text := by
    intro ends
    have signed : signature imageBlob imageAt = kPeSignature := by decide +kernel
    have one : 0 < sectionCount imageBlob imageAt := by decide +kernel
    have there : sectionOf imageBlob imageAt 0 ≠ 0 := by decide +kernel
    have behind : (sectionOf imageBlob imageAt 0 - imageAt).toNat = 248 := by decide +kernel
    obtain ⟨i, bound, -⟩ := ends signed 0 one (fun j below => absurd below (Nat.not_lt_zero j)) there
    rw [behind] at bound
    have end' : (248 : SizeT).toNat = 248 := rfl
    omega
  refine ⟨accepted, fun stays => ?_, fun stays => ?_⟩
  · exact missing _ ((findSectionByName_reads accepted).mp stays)
  · exact missing _ ((findSymbol_reads accepted).mp stays [0x2E, 0x74, 0x65, 0x78, 0x74] (by decide)).1

end Reads

end PE32Loader

end Ne.Kernel.Ldr
