import NeKernel.Machine
import NeKernel.Lib.Fnv

/-!
# Hashes of call names

`ke_hash_64`, `nesys_hash_64`, `hali_hash_fnv64` and `hali_hash_fnv64_utf8`.
-/

namespace Ne.Kernel.Arch
open ByteMem Fnv

def kFNVSeed : BitVec 64 := 0xcbf29ce484222325
def kFNVPrime : BitVec 64 := 0x100000001b3

/-- A `Char` is signed: the exclusive or with a 64-bit hash sees its sign extended. -/
def charWord (c : Byte) : BitVec 64 := c.signExtend 64

def utf8Word (c : Byte) : BitVec 64 := c.setWidth 64

/-- The loop of all four, up to the terminator. -/
def hashWhile (widen : Byte → BitVec 64) : BitVec 64 → List Byte → BitVec 64
  | hash, [] => hash
  | hash, c :: name => if c = 0 then hash else hashWhile widen ((hash ^^^ widen c) * kFNVPrime) name

/-- No name, or an empty one. -/
def unnamed (name : Option (List Byte)) : Prop := (name.getD []).headD 0 = 0

instance (name : Option (List Byte)) : Decidable (unnamed name) :=
  inferInstanceAs (Decidable ((name.getD []).headD 0 = 0))

def keHash64 (name : Option (List Byte)) : BitVec 64 :=
  if unnamed name then 0 else hashWhile charWord kFNVSeed (name.getD [])

/-- The assertion in front of the loop is on the seed. -/
def nesysHash64 (path : Option (List Byte)) : Option (BitVec 64) :=
  if unnamed path then some 0
  else if kFNVSeed = 0 then none
  else some (hashWhile charWord kFNVSeed (path.getD []))

/-- A hash that came out as zero stops the machine. -/
def haliHashFnv64 (path : Option (List Byte)) : Option (BitVec 64) :=
  if unnamed path then some 0
  else
    let hash := hashWhile charWord kFNVSeed (path.getD [])
    if hash = 0 then none else some hash

def haliHashFnv64Utf8 (path : Option (List Byte)) : Option (BitVec 64) :=
  if unnamed path then some 0
  else
    let hash := hashWhile utf8Word kFNVSeed (path.getD [])
    if hash = 0 then none else some hash

/-- The 64-bit FNV-1a hash, which is over octets. -/
def fnv1a (text : List Byte) : BitVec 64 := fold kFNVPrime utf8Word kFNVSeed text

/-- A terminated text that is not empty. -/
structure CallName where
  chars : List Byte
  nonempty : chars ≠ []
  nonzero : ∀ c ∈ chars, c ≠ 0

/-- All four compute the FNV-1a hash of a name. -/
structure HashesAgree (name : CallName) : Prop where
  kernel : keHash64 (some name.chars) = fnv1a name.chars
  system : nesysHash64 (some name.chars) = some (fnv1a name.chars)
  hal : haliHashFnv64 (some name.chars) = some (fnv1a name.chars)
  utf8 : haliHashFnv64Utf8 (some name.chars) = some (fnv1a name.chars)

section Names
variable {widen : Byte → BitVec 64} {hash : BitVec 64} {chars : List Byte}

theorem hashWhile_eq (nonzero : ∀ c ∈ chars, c ≠ 0) : hashWhile widen hash chars = fold kFNVPrime widen hash chars := by
  induction chars generalizing hash with
  | nil => rfl
  | cons c chars ih =>
      rw [hashWhile, if_neg (nonzero c (by simp)), fold_cons]
      exact ih fun d member => nonzero d (by simp [member])

theorem CallName.named (name : CallName) : ¬ unnamed (some name.chars) := by
  obtain ⟨c, rest, split⟩ := List.exists_cons_of_ne_nil name.nonempty
  unfold unnamed
  rw [Option.getD_some, split]
  exact name.nonzero c (by simp [split])

theorem kFNVPrime_unit : kFNVPrime * 0xce965057aff6957b = 1 := by decide

theorem charWord_eq_iff {c : Byte} : charWord c = utf8Word c ↔ c < 0x80 := by
  revert c
  decide

theorem CallName.kernel_eq (name : CallName) :
    keHash64 (some name.chars) = fold kFNVPrime charWord kFNVSeed name.chars := by
  rw [keHash64, if_neg name.named]
  exact hashWhile_eq name.nonzero

theorem CallName.hal_eq (name : CallName) (nonzero : fold kFNVPrime charWord kFNVSeed name.chars ≠ 0) :
    haliHashFnv64 (some name.chars) = some (fold kFNVPrime charWord kFNVSeed name.chars) := by
  rw [haliHashFnv64, if_neg name.named, Option.getD_some, hashWhile_eq name.nonzero]
  exact if_neg nonzero

theorem CallName.utf8_eq_iff (name : CallName) :
    haliHashFnv64Utf8 (some name.chars) = some (fnv1a name.chars) ↔ fnv1a name.chars ≠ 0 := by
  rw [haliHashFnv64Utf8, if_neg name.named]
  simp [hashWhile_eq name.nonzero, fnv1a]

theorem nesysHash64_eq (name : Option (List Byte)) : nesysHash64 name = some (keHash64 name) := by
  unfold nesysHash64 keHash64
  by_cases empty : unnamed name
  · rw [if_pos empty, if_pos empty]
  · rw [if_neg empty, if_neg empty, if_neg (by decide)]

/-- The octets from `0x80` on of a name make up for each other, or there are none. -/
def HighCancels (chars : List Byte) : Prop := Cancels kFNVPrime charWord utf8Word kFNVSeed chars

theorem highCancels_of_low (low : ∀ c ∈ chars, c < 0x80) : HighCancels chars := by
  intro front c rest split differ
  exact absurd (charWord_eq_iff.mpr (low c (by simp [split]))) differ

theorem not_highCancels_single {front rest : List Byte} {c : Byte} (high : ¬ c < 0x80) (before : ∀ d ∈ front, d < 0x80)
    (after : ∀ d ∈ rest, d < 0x80) : ¬ HighCancels (front ++ c :: rest) := by
  intro cancels
  refine fold_single_ne kFNVPrime_unit (fun same => high (charWord_eq_iff.mp same))
    (fun d member => charWord_eq_iff.mpr (before d member)) (fun d member => charWord_eq_iff.mpr (after d member))
    ((fold_eq_iff kFNVPrime_unit).mpr cancels)

end Names

/-- The four hashes are the FNV-1a hash of the name if it has no octet from `0x80` on, and they are not
if it has a single one; a name that hashes to zero stops two of them. User space and kernel agree all along. -/
theorem hashes_agree_iff (name : CallName) :
    (HashesAgree name ↔ fnv1a name.chars ≠ 0 ∧ HighCancels name.chars) ∧
    ((∀ c ∈ name.chars, c < 0x80) → HighCancels name.chars) ∧
    (∀ front c rest, name.chars = front ++ c :: rest → ¬ c < 0x80 → (∀ d ∈ front, d < 0x80) →
      (∀ d ∈ rest, d < 0x80) → ¬ HighCancels name.chars) ∧
    nesysHash64 (some name.chars) = some (keHash64 (some name.chars)) := by
  refine ⟨?_, highCancels_of_low, fun front c rest split high before after => ?_, nesysHash64_eq _⟩
  · constructor
    · intro agree
      have kernel := agree.kernel
      rw [name.kernel_eq] at kernel
      exact ⟨name.utf8_eq_iff.mp agree.utf8, (fold_eq_iff kFNVPrime_unit).mp kernel⟩
    · rintro ⟨nonzero, cancels⟩
      have same : fold kFNVPrime charWord kFNVSeed name.chars = fnv1a name.chars :=
        (fold_eq_iff kFNVPrime_unit).mpr cancels
      have kernel := name.kernel_eq.trans same
      refine ⟨kernel, ?_, ?_, name.utf8_eq_iff.mpr nonzero⟩
      · rw [nesysHash64_eq, kernel]
      · rw [name.hal_eq (same ▸ nonzero), same]
  · rw [split]
    exact not_highCancels_single high before after

example : fnv1a [0x21, 0x30, 0x49, 0x43, 0x3d, 0x56, 0x6c, 0x6f, 0x61, 0x59] = 0 := by decide

/-- A name of the single octet `0x80`. -/
theorem high_octet_hashed_apart : ¬ ∀ name, HashesAgree name := by
  intro claim
  have kernel := (claim ⟨[0x80], by decide, by decide⟩).kernel
  exact absurd kernel (by decide)

end Ne.Kernel.Arch
