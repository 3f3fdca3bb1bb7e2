import NeKernel.Machine
import NeKernel.Lib.Traced

/-!
# The search for an ACPI table

`ACPIFactoryInterface::Find`. What it prints on the way is left out.
-/

namespace Ne.Kernel.Acpi
open ByteMem Access

namespace SDT
def Length : Field := { off := 4, size := 4 }
def Revision : Field := { off := 8, size := 1 }
def size : Nat := 36
end SDT

namespace RSDP
def RsdtAddress : Field := { off := 36, size := 4 }
def XsdtAddress : Field := { off := 40, size := 8 }
end RSDP

namespace RSDT
def AddressArr : Field := { off := 36, size := 4 }
end RSDT

def kMinACPIVer : BitVec 64 := 2
def cAcpiSignatureLength : Nat := 4

structure ACPIFactoryInterface where
  fRsdp : UIntPtr
  fEntries : SizeT

/-- The characters of a signature agree one by one. The search is for one that does not. -/
def signatureIs (m : Memory) (sdt : UIntPtr) (signature : List Byte) : Traced Access Bool := do
  let differs ← Traced.search (fun i => do
    let c ← fetchByte m (sdt + BitVec.ofNat 64 i)
    pure (if c ≠ signature.getD i 0 then some () else none)) cAcpiSignatureLength 0
  pure differs.isNone

/-- One turn of the loop over the entries. -/
def tryEntry (m : Memory) (xsdt : UIntPtr) (signature : List Byte) (index : Nat) : Traced Access (Option UIntPtr) := do
  let sdt ← RSDT.AddressArr.fetch m (xsdt + BitVec.ofNat 64 (index * RSDT.AddressArr.size))
  if sdt = 0 then pure none
  else do
    let same ← signatureIs m sdt signature
    if same = true then do
      let entry ← RSDT.AddressArr.fetch m (xsdt + BitVec.ofNat 64 (index * RSDT.AddressArr.size))
      pure (some entry)
    else pure none

/-- The number of entries, from the length of the table: the difference is one of 64-bit words. -/
def entryNum (length : BitVec 64) : BitVec 64 := (length - BitVec.ofNat 64 SDT.size) / 8

def Find (acpi : ACPIFactoryInterface) (m : Memory) (signature : Option (List Byte)) :
    Traced Access (Except Int UIntPtr × ACPIFactoryInterface) :=
  let failed := (.error (-kErrorInvalidData), acpi)
  if acpi.fRsdp ≠ 0 then pure failed
  else match signature with
    | none => pure failed
    | some signature =>
        if signature.headD 0 = 0 then pure failed
        else if acpi.fRsdp = 0 then pure failed
        else do
          let revision ← SDT.Revision.fetch m acpi.fRsdp
          if revision < kMinACPIVer then pure failed
          else do
            let xsdt ← RSDP.RsdtAddress.fetch m acpi.fRsdp
            if xsdt = 0 then pure failed
            else do
              let length ← SDT.Length.fetch m xsdt
              if (entryNum length).slt 1 then pure failed
              else do
                let found ← Traced.search (tryEntry m xsdt signature) (entryNum length).toNat 0
                match found with
                | some entry => pure (.ok entry, { acpi with fEntries := entryNum length })
                | none => pure (.error (-kErrorInvalidData), { acpi with fEntries := entryNum length })

/-! ## What a search should give -/

/-- The root table: the one that `Find` goes for, and the XSDT with its 64-bit entries. -/
inductive RootTable
  | rsdt
  | xsdt

namespace RootTable

def table (m : Memory) (rsdp : UIntPtr) : RootTable → UIntPtr
  | rsdt => RSDP.RsdtAddress.on m rsdp
  | xsdt => RSDP.XsdtAddress.on m rsdp

def entryField : RootTable → Field
  | rsdt => RSDT.AddressArr
  | xsdt => { off := 36, size := 8 }

variable (root : RootTable) (m : Memory) (rsdp : UIntPtr)

/-- The entries that the length of the table has room for. -/
def count : Nat := ((SDT.Length.on m (root.table m rsdp)).toNat - SDT.size) / root.entryField.size

def entryAt (k : Nat) : UIntPtr := root.table m rsdp + BitVec.ofNat 64 (k * root.entryField.size)

def entry (k : Nat) : UIntPtr := root.entryField.on m (root.entryAt m rsdp k)

/-- Entry `k` is in the table, is not null and bears the signature. -/
def Matches (signature : List Byte) (k : Nat) : Prop :=
  k < root.count m rsdp ∧ root.entry m rsdp k ≠ 0 ∧
    ∀ i < cAcpiSignatureLength, m (root.entry m rsdp k + BitVec.ofNat 64 i) = signature.getD i 0

/-- The access is to an entry beyond the end of the table. -/
def Beyond (e : Access) : Prop :=
  ∃ k, root.count m rsdp ≤ k ∧
    e = .read (root.entryAt m rsdp k + BitVec.ofNat 64 root.entryField.off) root.entryField.size

/-- The first entry with the signature is found, an error says that there is none, and the search stays
in the table. -/
structure Finds (signature : List Byte) (find : Traced Access (Except Int UIntPtr × ACPIFactoryInterface)) : Prop where
  first : ∀ k, root.Matches m rsdp signature k → (∀ j < k, ¬ root.Matches m rsdp signature j) →
    find.val.1 = .ok (root.entry m rsdp k)
  error : (∃ e, find.val.1 = .error e) ↔ ∀ k, ¬ root.Matches m rsdp signature k
  inside : Traced.Only (fun e => ¬ root.Beyond m rsdp e) find

end RootTable

section Search
variable {m : Memory} {xsdt sdt entry : UIntPtr} {signature : List Byte} {index : Nat} {length : BitVec 64}

theorem signatureIs_val : (signatureIs m sdt signature).val = true ↔
    ∀ i < cAcpiSignatureLength, m (sdt + BitVec.ofNat 64 i) = signature.getD i 0 := by
  rw [signatureIs, Traced.val_bind, Traced.val_pure, Option.isNone_iff_eq_none, Traced.search_none]
  simp

theorem tryEntry_val : (tryEntry m xsdt signature index).val = some entry ↔
    RSDT.AddressArr.on m (xsdt + BitVec.ofNat 64 (index * RSDT.AddressArr.size)) = entry ∧ entry ≠ 0 ∧
      ∀ i < cAcpiSignatureLength, m (entry + BitVec.ofNat 64 i) = signature.getD i 0 := by
  rw [tryEntry, Traced.val_bind, Field.fetch_val, Traced.val_guard_some, Traced.val_bind, Traced.val_ite]
  rw [Traced.val_bind, Traced.val_pure, Traced.val_pure, Field.fetch_val, Option.ite_none_right_eq_some,
    Option.some.injEq, signatureIs_val]
  constructor
  · rintro ⟨nonzero, same, rfl⟩
    exact ⟨rfl, nonzero, same⟩
  · rintro ⟨rfl, nonzero, same⟩
    exact ⟨nonzero, same, rfl⟩

theorem search_entries {num : Nat} : (Traced.search (tryEntry m xsdt signature) num 0).val = some entry ↔
    ∃ k < num, (tryEntry m xsdt signature k).val = some entry ∧
      ∀ j < k, (tryEntry m xsdt signature j).val = none := by
  rw [Traced.search_some]
  simp

/-- A table shorter than its header is taken to have entries all over the address space. -/
theorem entryNum_short (narrow : length.toNat < SDT.size) : 2 ^ 61 - 5 ≤ (entryNum length).toNat := by
  have size : SDT.size = 36 := rfl
  rw [entryNum, BitVec.toNat_udiv, BitVec.toNat_sub, BitVec.toNat_ofNat, size]
  rw [size] at narrow
  show 2 ^ 61 - 5 ≤ _ / 8
  omega

end Search

theorem find_val (acpi : ACPIFactoryInterface) (m : Memory) (signature : Option (List Byte)) :
    Find acpi m signature = pure (.error (-kErrorInvalidData), acpi) := by
  unfold Find
  by_cases there : acpi.fRsdp ≠ 0
  · rw [if_pos there]
  · rw [if_neg there]
    cases signature with
    | none => rfl
    | some signature =>
        dsimp only
        split
        · rfl
        · rw [if_pos (not_not.mp there)]

/-- The search does what it should on the tables without an entry of that signature. -/
theorem finds_iff (root : RootTable) (acpi : ACPIFactoryInterface) (m : Memory) (signature : List Byte) :
    root.Finds m acpi.fRsdp signature (Find acpi m (some signature)) ↔
      ∀ k, ¬ root.Matches m acpi.fRsdp signature k := by
  rw [find_val]
  constructor
  · intro finds
    exact finds.error.mp ⟨_, by rw [Traced.val_pure]⟩
  · intro none
    refine ⟨fun k here => absurd here (none k), iff_of_true ⟨_, by rw [Traced.val_pure]⟩ none, Traced.only_pure⟩

/-- A root pointer of revision 2, a root table of one entry, and the table it points to. -/
def oneTable : Memory := fun a =>
  if a = 0x1008 then 2 else if a = 0x1025 ∨ a = 0x1029 then 0x20
  else if a = 0x2004 then 44 else if a = 0x2025 then 0x30
  else if a = 0x3000 then 0x41 else if a = 0x3001 then 0x50
  else if a = 0x3002 then 0x49 else if a = 0x3003 then 0x43
  else 0

def apicSignature : List Byte := [0x41, 0x50, 0x49, 0x43]

theorem oneTable_matches (root : RootTable) : root.Matches oneTable 0x1000 apicSignature 0 := by
  cases root <;> exact ⟨by decide +kernel, by decide +kernel, by decide +kernel⟩

/-- The only table there is goes unfound. -/
theorem apic_unfound : ¬ ∀ (root : RootTable) (acpi : ACPIFactoryInterface) m signature, acpi.fRsdp ≠ 0 →
    kMinACPIVer ≤ SDT.Revision.on m acpi.fRsdp → signature.length = cAcpiSignatureLength →
    root.Finds m acpi.fRsdp signature (Find acpi m (some signature)) := by
  intro claim
  have finds := claim .xsdt ⟨0x1000, 0⟩ oneTable apicSignature (by decide) (by decide +kernel) rfl
  have refused : ∃ status, (Find ⟨0x1000, 0⟩ oneTable (some apicSignature)).val.1 = .error status :=
    ⟨-kErrorInvalidData, by rw [find_val, Traced.val_pure]⟩
  exact finds.error.mp refused 0 (oneTable_matches .xsdt)

end Ne.Kernel.Acpi
