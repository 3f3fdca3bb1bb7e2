import NeKernel.Lib.Packed

/-!
# Values in memory cells

A bit field shares the number it lies in with others. A cell keeps a value in a fixed number of bytes and may leave
some of their bits as they were. Values that are put into cells one behind the other are got back, and stay as long
as their bytes do.
-/

namespace ByteMem

/-! ## Bit fields -/

/-- The bits of `v` in place of those of `old` from `low` on. -/
def insertBits {w : ℕ} (low : ℕ) (v : BitVec w) (old : BitVec 64) : BitVec 64 :=
  (old &&& ~~~((BitVec.allOnes w).setWidth 64 <<< low)) ||| (v.setWidth 64 <<< low)

section Bits
variable {w k low low' n : ℕ} {v : BitVec w} {old : BitVec 64}

theorem insertBits_same (inside : low + w ≤ 64) : (insertBits low v old).extractLsb' low w = v := by
  apply BitVec.eq_of_getLsbD_eq
  intro i bound
  have near : low + i < 64 := by omega
  simp [insertBits, bound, near]

theorem insertBits_other (apart : low' + k ≤ low ∨ low + w ≤ low') :
    (insertBits low v old).extractLsb' low' k = old.extractLsb' low' k := by
  apply BitVec.eq_of_getLsbD_eq
  intro i bound
  rcases apart with before | behind
  · have early : low' + i < low := by omega
    simp only [insertBits, BitVec.getLsbD_extractLsb', BitVec.getLsbD_or, BitVec.getLsbD_and, BitVec.getLsbD_not,
      BitVec.getLsbD_shiftLeft, early, decide_true, Bool.not_true, Bool.and_false, Bool.false_and, Bool.not_false,
      Bool.and_true, Bool.or_false]
    by_cases near : low' + i < 64
    · simp [near]
    · simp [near, BitVec.getLsbD_of_ge old (low' + i) (by omega)]
  · have late : ¬ low' + i - low < w := by omega
    simp only [insertBits, BitVec.getLsbD_extractLsb', BitVec.getLsbD_or, BitVec.getLsbD_and, BitVec.getLsbD_not,
      BitVec.getLsbD_shiftLeft, BitVec.getLsbD_setWidth, BitVec.getLsbD_allOnes, late, decide_false, Bool.and_false,
      Bool.not_false, Bool.and_true]
    rw [BitVec.getLsbD_of_ge v _ (by omega)]
    by_cases near : low' + i < 64
    · simp [near]
    · simp [near, BitVec.getLsbD_of_ge old (low' + i) (by omega)]

theorem extract_kept {u : BitVec 64} (inside : low + k ≤ 8 * n) :
    (BitVec.ofNat 64 (u.toNat % 256 ^ n)).extractLsb' low k = u.extractLsb' low k := by
  apply BitVec.eq_of_getLsbD_eq
  intro i bound
  have power : (256 : ℕ) ^ n = 2 ^ (8 * n) := by rw [pow_mul, show (2 : ℕ) ^ 8 = 256 from rfl]
  rw [BitVec.getLsbD_extractLsb', BitVec.getLsbD_extractLsb', BitVec.getLsbD_ofNat, power, Nat.testBit_mod_two_pow]
  by_cases near : low + i < 64
  · simp [near, show low + i < 8 * n by omega, BitVec.getLsbD]
  · simp [near, BitVec.getLsbD_of_ge u (low + i) (by omega)]

end Bits

/-- Stores into the member of the structure that lies at `a`. -/
def Field.put (f : Field) (v a : BitVec 64) (m : Mem 64) : Mem 64 :=
  store m (a + BitVec.ofNat 64 f.off) f.size v.toNat

section Members
variable {f g : Field} {v a : BitVec 64} {m m' : Mem 64} {n : ℕ}

theorem Field.on_put_same : f.on (f.put v a m) a = BitVec.ofNat 64 (v.toNat % 256 ^ f.size) := by
  have fits := f.fits
  rw [on, put, load_store_same (by omega)]

theorem Field.on_put_other (disjoint : f.Disjoint g) : f.on (g.put v a m) a = f.on m a := by
  have fits := f.fits
  rw [on, on, put, load_store_apart (by omega) (f.apart disjoint a)]

theorem Field.put_sameOutside (inside : f.off + f.size ≤ n) : SameOutside a n m (f.put v a m) :=
  store_offset_sameOutside f.off inside

theorem Field.on_of_same (inside : f.off + f.size ≤ n) (same : ∀ x, Within a n x → m' x = m x) :
    f.on m' a = f.on m a :=
  Field.on_congr fun x within => same x (within.of_offset f.off inside)

end Members

/-- The `width` bits from `low` on of a member of a structure. -/
structure BitMember where
  field : Field
  low : ℕ
  width : ℕ
  doesFit : (low + width).ble (8 * field.size) = true := by exact Eq.refl true

/-- A member as a whole. -/
def Field.whole (f : Field) : BitMember := ⟨f, 0, 8 * f.size, by simp [Nat.ble_eq]⟩

namespace BitMember

def on (b : BitMember) (m : Mem 64) (a : BitVec 64) : BitVec b.width := (b.field.on m a).extractLsb' b.low b.width

def put (b : BitMember) (v : BitVec b.width) (a : BitVec 64) (m : Mem 64) : Mem 64 :=
  b.field.put (insertBits b.low v (b.field.on m a)) a m

def Apart (b c : BitMember) : Prop :=
  b.field.Disjoint c.field ∨
    b.field.off = c.field.off ∧ b.field.size = c.field.size ∧ (b.low + b.width ≤ c.low ∨ c.low + c.width ≤ b.low)

instance (b c : BitMember) : Decidable (b.Apart c) := inferInstanceAs (Decidable (_ ∨ _))

/-- Stores into one member after the other. -/
def putAll (members : List (Σ b : BitMember, BitVec b.width)) (a : BitVec 64) (m : Mem 64) : Mem 64 :=
  members.foldl (fun m member => member.1.put member.2 a m) m

variable {b c : BitMember} {a : BitVec 64} {m m' : Mem 64} {n : ℕ} {v : BitVec b.width}
  {members : List (Σ b : BitMember, BitVec b.width)}

theorem fits (b : BitMember) : b.low + b.width ≤ 8 * b.field.size := Nat.le_of_ble_eq_true b.doesFit

theorem on_put_same : b.on (b.put v a m) a = v := by
  have fits := b.fits
  have small := b.field.small
  rw [on, put, Field.on_put_same, extract_kept fits, insertBits_same (by omega)]

theorem on_put_apart {u : BitVec c.width} (apart : b.Apart c) : b.on (c.put u a m) a = b.on m a := by
  rcases apart with disjoint | ⟨off, size, bits⟩
  · rw [on, on, put, Field.on_put_other disjoint]
  · have same (m : Mem 64) : b.field.on m a = c.field.on m a := by rw [Field.on, Field.on, off, size]
    have fits := b.fits
    rw [size] at fits
    rw [on, on, put, same, same, Field.on_put_same, extract_kept fits, insertBits_other bits]

theorem put_sameOutside (inside : b.field.off + b.field.size ≤ n) : SameOutside a n m (b.put v a m) :=
  Field.put_sameOutside inside

theorem on_of_same (inside : b.field.off + b.field.size ≤ n) (same : ∀ x, Within a n x → m' x = m x) :
    b.on m' a = b.on m a := by
  rw [on, on, Field.on_of_same inside same]

theorem putAll_sameOutside (inside : ∀ member ∈ members, member.1.field.off + member.1.field.size ≤ n) :
    SameOutside a n m (putAll members a m) := by
  induction members generalizing m with
  | nil => exact SameOutside.refl
  | cons member members ih =>
      have first : SameOutside a n m (member.1.put member.2 a m) := put_sameOutside (inside member (by simp))
      exact first.trans (ih fun later among => inside later (by simp [among]))

theorem on_putAll_apart (apart : ∀ member ∈ members, b.Apart member.1) :
    b.on (putAll members a m) a = b.on m a := by
  induction members generalizing m with
  | nil => rfl
  | cons member members ih =>
      have later : ∀ other ∈ members, b.Apart other.1 := fun other among => apart other (by simp [among])
      exact (ih later).trans (on_put_apart (apart member (by simp)))

/-- Every member holds what was stored into it. -/
theorem on_putAll (apart : (members.map Sigma.fst).Pairwise BitMember.Apart) :
    ∀ member ∈ members, member.1.on (putAll members a m) a = member.2 := by
  intro stored among
  induction members generalizing m with
  | nil => cases among
  | cons member members ih =>
      obtain ⟨head, rest⟩ := List.pairwise_cons.mp apart
      rcases List.mem_cons.mp among with rfl | later
      · have others : ∀ other ∈ members, stored.1.Apart other.1 :=
          fun other among => head other.1 (List.mem_map_of_mem among)
        exact (on_putAll_apart others).trans on_put_same
      · exact ih rest later

end BitMember

/-! ## Cells -/

structure Cell (α : Type*) where
  size : ℕ
  put : α → BitVec 64 → Mem 64 → Mem 64
  get : Mem 64 → BitVec 64 → α
  got : ∀ v a m, get (put v a m) a = v
  frame : ∀ v a m, SameOutside a size m (put v a m)
  depends : ∀ a m m', (∀ x, Within a size x → m' x = m x) → get m' a = get m a

namespace Cell

variable {α : Type*} (c : Cell α)

def putList : List α → BitVec 64 → Mem 64 → Mem 64
  | [], _, m => m
  | v :: rest, a, m => putList rest (a + BitVec.ofNat 64 c.size) (c.put v a m)

def getList (m : Mem 64) (a : BitVec 64) (n : ℕ) : List α :=
  (List.range n).map fun i => c.get m (a + BitVec.ofNat 64 (c.size * i))

variable {c : Cell α} {a : BitVec 64} {m m' : Mem 64} {vs : List α} {n : ℕ}

theorem getList_succ : c.getList m a (n + 1) = c.get m a :: c.getList m (a + BitVec.ofNat 64 c.size) n := by
  unfold getList
  rw [List.range_succ_eq_map, List.map_cons, List.map_map, Nat.mul_zero]
  congr 1
  · congr 1
    exact BitVec.add_zero a
  · apply List.map_congr_left
    intro i _
    simp only [Function.comp_apply]
    rw [BitVec.add_assoc, ← BitVec.ofNat_add, Nat.succ_eq_add_one, Nat.mul_succ, Nat.add_comm c.size]

theorem size_cons {v : α} : c.size * (v :: vs).length = c.size + c.size * vs.length := by
  rw [List.length_cons, Nat.mul_succ, Nat.add_comm]

theorem putList_sameOutside : SameOutside a (c.size * vs.length) m (c.putList vs a m) := by
  induction vs generalizing a m with
  | nil => exact SameOutside.refl
  | cons v vs ih =>
      intro x outside
      rw [size_cons] at outside
      have first : c.put v a m x = m x := c.frame v a m x fun inside => outside (inside.mono (Nat.le_add_right _ _))
      exact (ih x fun inside => outside (inside.of_offset c.size le_rfl)).trans first

theorem getList_putList (fits : c.size * vs.length ≤ 2 ^ 64) : c.getList (c.putList vs a m) a vs.length = vs := by
  induction vs generalizing a m with
  | nil => rfl
  | cons v vs ih =>
      rw [size_cons] at fits
      have behind : Apart a c.size (a + BitVec.ofNat 64 c.size) (c.size * vs.length) := Apart.behind le_rfl fits
      have head : c.get (c.putList (v :: vs) a m) a = v := by
        have kept : c.get (c.putList vs (a + BitVec.ofNat 64 c.size) (c.put v a m)) a = c.get (c.put v a m) a :=
          c.depends a _ _ fun x inside => putList_sameOutside x (behind x inside)
        exact kept.trans (c.got v a m)
      rw [List.length_cons, getList_succ, head]
      congr 1
      exact ih (by omega)

theorem getList_congr (same : ∀ x, Within a (c.size * n) x → m' x = m x) : c.getList m' a n = c.getList m a n := by
  unfold getList
  apply List.map_congr_left
  intro i member
  have last : c.size * i + c.size ≤ c.size * n := by
    rw [← Nat.mul_succ]
    exact Nat.mul_le_mul_left _ (List.mem_range.mp member)
  exact c.depends _ _ _ fun x inside => same x (inside.of_offset (c.size * i) last)

end Cell

end ByteMem
