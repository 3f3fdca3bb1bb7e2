import NeKernel.NeKit.StringComparison

/-!
# Comparing addresses

Both classes of addresses compare their octets, and answer false when the first octet of the right operand is zero.
The constructor of `RawIPAddress` stops the kernel at such octets, and the one of `RawIPAddress6` takes them.
-/

namespace Ne.Kernel
open ByteMem Comparison

abbrev kNeIP4Len : ℕ := 4
abbrev kNeIP6Len : ℕ := 16

structure RawIPAddress where
  fAddr : Vector Byte kNeIP4Len

structure RawIPAddress6 where
  fAddr : Vector Byte kNeIP6Len

def octetsEq {n : ℕ} (fAddr rhs : Vector Byte (n + 1)) : Bool := equal (rhs.get ⟨0, n.succ_pos⟩ = 0) rhs.get fAddr.get

def octetsNe {n : ℕ} (fAddr rhs : Vector Byte (n + 1)) : Bool := unequal (rhs.get ⟨0, n.succ_pos⟩ = 0) rhs.get fAddr.get

namespace RawIPAddress

def ofBytes (bytes : Vector Byte kNeIP4Len) : Option RawIPAddress := if bytes.get 0 = 0 then none else some ⟨bytes⟩

def operatorEq (a ipv4 : RawIPAddress) : Bool := octetsEq a.fAddr ipv4.fAddr

def operatorNe (a ipv4 : RawIPAddress) : Bool := octetsNe a.fAddr ipv4.fAddr

end RawIPAddress

namespace RawIPAddress6

def ofBytes (bytes : Vector Byte kNeIP6Len) : RawIPAddress6 := ⟨bytes⟩

def operatorEq (a ipv6 : RawIPAddress6) : Bool := octetsEq a.fAddr ipv6.fAddr

def operatorNe (a ipv6 : RawIPAddress6) : Bool := octetsNe a.fAddr ipv6.fAddr

end RawIPAddress6

section Octets
variable {n : ℕ} {a b : Vector Byte (n + 1)}

theorem get_ext : (∀ i, b.get i = a.get i) ↔ a = b := by
  constructor
  · intro same
    exact Vector.ext fun i below => (same ⟨i, below⟩).symm
  · rintro rfl i
    rfl

theorem octetsEq_iff : octetsEq a b = true ↔ b.get ⟨0, n.succ_pos⟩ ≠ 0 ∧ a = b := by
  rw [octetsEq, equal_iff, get_ext]

theorem octetsEq_refl_iff : octetsEq a a = true ↔ a.get ⟨0, n.succ_pos⟩ ≠ 0 := by
  rw [octetsEq_iff]
  exact and_iff_left rfl

theorem octetsEq_symm : octetsEq a b = octetsEq b a := by
  rw [Bool.eq_iff_iff, octetsEq_iff, octetsEq_iff]
  constructor
  · rintro ⟨live, rfl⟩
    exact ⟨live, rfl⟩
  · rintro ⟨live, rfl⟩
    exact ⟨live, rfl⟩

theorem octets_lawfulAt_iff : LawfulAt octetsEq octetsNe a b ↔
    a.get ⟨0, n.succ_pos⟩ ≠ 0 ∧ b.get ⟨0, n.succ_pos⟩ ≠ 0 ∧ AllOrNone b.get a.get := by
  have negated : octetsNe a b = !octetsEq a b ↔ b.get ⟨0, n.succ_pos⟩ ≠ 0 ∧ AllOrNone b.get a.get := unequal_eq_not_iff
  rw [← octetsEq_refl_iff, ← negated]
  constructor
  · exact fun lawful => ⟨lawful.reflexive, lawful.negated⟩
  · rintro ⟨reflexive, negated⟩
    exact ⟨negated, reflexive, octetsEq_symm⟩

end Octets

/-- The constructor makes no address that is unlike itself. -/
theorem RawIPAddress.ofBytes_refl {bytes : Vector Byte kNeIP4Len} {a : RawIPAddress} (made : ofBytes bytes = some a) :
    a.operatorEq a = true := by
  unfold ofBytes at made
  split at made
  · cases made
  · rename_i live
    cases made
    exact octetsEq_refl_iff.mpr live

/-- There is no check in this one, so it makes some. -/
theorem RawIPAddress6.ofBytes_refl_iff {bytes : Vector Byte kNeIP6Len} :
    (ofBytes bytes).operatorEq (ofBytes bytes) = true ↔ bytes.get 0 ≠ 0 := octetsEq_refl_iff

/-! ## The laws of the three classes -/

/-- Two values of one of the classes. -/
inductive Operands
  | strings (s t : KBasicString)
  | addresses (a b : RawIPAddress)
  | addresses6 (a b : RawIPAddress6)

section Laws
variable {CharKind : Type} [DecidableEq CharKind]

def Operands.Lawful (chars : UIntPtr → ℕ → CharKind) : Operands → Prop
  | .strings s t => LawfulAt (KBasicString.operatorEq chars) (KBasicString.operatorNe chars) s t
  | .addresses a b => LawfulAt RawIPAddress.operatorEq RawIPAddress.operatorNe a b
  | .addresses6 a b => LawfulAt RawIPAddress6.operatorEq RawIPAddress6.operatorNe a b

/-- Strings of one size that are not empty, or addresses whose first octets are not zero, which are the same at all
positions or at none. -/
def Operands.Comparable (chars : UIntPtr → ℕ → CharKind) : Operands → Prop
  | .strings s t =>
      t.fDataSz = s.fDataSz ∧ AllOrNone (fun i : Fin s.fDataSz.toNat => chars t.fData i) fun i => chars s.fData i
  | .addresses a b => a.fAddr.get 0 ≠ 0 ∧ b.fAddr.get 0 ≠ 0 ∧ AllOrNone b.fAddr.get a.fAddr.get
  | .addresses6 a b => a.fAddr.get 0 ≠ 0 ∧ b.fAddr.get 0 ≠ 0 ∧ AllOrNone b.fAddr.get a.fAddr.get

/-- The operators keep the laws for exactly the pairs that are the same throughout or differ throughout. -/
theorem operators_lawful_iff (chars : UIntPtr → ℕ → CharKind) (operands : Operands) :
    operands.Lawful chars ↔ operands.Comparable chars := by
  cases operands with
  | strings s t => exact KBasicString.operators_lawfulAt_iff
  | addresses a b => exact (lawfulAt_comap octetsEq octetsNe RawIPAddress.fAddr).trans octets_lawfulAt_iff
  | addresses6 a b => exact (lawfulAt_comap octetsEq octetsNe RawIPAddress6.fAddr).trans octets_lawfulAt_iff

end Laws

/-- The characters `ab` and `ac`. -/
def twoWords : Memory := write (write (fun _ => 0) 0x1000 [0x61, 0x62]) 0x2000 [0x61, 0x63]

theorem operators_not_lawful :
    ¬ (Operands.strings ⟨0x1000, 2, 2⟩ ⟨0x2000, 2, 2⟩).Lawful (KBasicString.charAt twoWords) ∧
    ¬ (Operands.addresses ⟨#v[10, 0, 0, 1]⟩ ⟨#v[10, 0, 0, 2]⟩).Lawful (KBasicString.charAt twoWords) ∧
    ¬ (Operands.addresses6 (.ofBytes #v[0x20, 0x01, 0x0D, 0xB8, 0, 0, 0, 0, 0, 0, 0, 0, 0, 0, 0, 1])
      (.ofBytes #v[0x20, 0x01, 0x0D, 0xB8, 0, 0, 0, 0, 0, 0, 0, 0, 0, 0, 0, 2])).Lawful
        (KBasicString.charAt twoWords) := by
  refine ⟨fun lawful => ?_, fun lawful => ?_, fun lawful => ?_⟩
  · exact absurd lawful.negated (by decide +kernel)
  · exact absurd lawful.negated (by decide +kernel)
  · exact absurd lawful.negated (by decide +kernel)

end Ne.Kernel
