import NeKernel.Lib.LittleEndian

/-!
# Packed structures on a byte device

A structure is held as an image, its bytes from offset 0. Numeric members are named by offset and
size. A device exchanges whole images with ranges of a byte memory.
-/

namespace ByteMem

abbrev Image := Mem 64

structure Field where
  off : Nat
  size : Nat
  isSmall : size.ble 8 = true := by exact Eq.refl true
  doesFit : (off + size).ble (2 ^ 16) = true := by exact Eq.refl true

namespace Field

theorem small (f : Field) : f.size ≤ 8 := Nat.le_of_ble_eq_true f.isSmall

theorem fits (f : Field) : f.off + f.size ≤ 2 ^ 16 := Nat.le_of_ble_eq_true f.doesFit

def get (f : Field) (s : Image) : BitVec 64 := BitVec.ofNat 64 (load s (BitVec.ofNat 64 f.off) f.size)

/-- The bytes of `v` beyond the member's size are dropped. -/
def set (f : Field) (v : BitVec 64) (s : Image) : Image := store s (BitVec.ofNat 64 f.off) f.size v.toNat

/-- The member of the structure that lies at `a`. -/
def on (f : Field) (m : Mem 64) (a : BitVec 64) : BitVec 64 :=
  BitVec.ofNat 64 (load m (a + BitVec.ofNat 64 f.off) f.size)

def Disjoint (f g : Field) : Prop := f.off + f.size ≤ g.off ∨ g.off + g.size ≤ f.off

instance (f g : Field) : Decidable (f.Disjoint g) := inferInstanceAs (Decidable (_ ∨ _))

variable {f g : Field} {s : Image} {v : BitVec 64}

theorem apart (disjoint : f.Disjoint g) (a : BitVec 64) :
    Apart (a + BitVec.ofNat 64 f.off) f.size (a + BitVec.ofNat 64 g.off) g.size := by
  have hf := f.fits
  have hg := g.fits
  rcases disjoint with before | after
  · exact Apart.of_offsets before (by omega)
  · exact (Apart.of_offsets after (by omega)).symm

theorem get_set_same : f.get (f.set v s) = BitVec.ofNat 64 (v.toNat % 256 ^ f.size) := by
  have hf := f.fits
  rw [get, set, load_store_same (by omega)]

theorem get_set_full (full : f.size = 8) : f.get (f.set v s) = v := by
  have hv := v.isLt
  rw [get_set_same, full, Nat.mod_eq_of_lt (by omega), BitVec.ofNat_toNat, BitVec.setWidth_eq]

theorem get_set_other (disjoint : f.Disjoint g) : f.get (g.set v s) = f.get s := by
  have hf := f.fits
  have between := f.apart disjoint 0#64
  rw [BitVec.zero_add, BitVec.zero_add] at between
  rw [get, set, load_store_apart (by omega) between, get]

theorem toNat_get : (f.get s).toNat = load s (BitVec.ofNat 64 f.off) f.size := by
  have bound := leNat_lt (read s (BitVec.ofNat 64 f.off) f.size)
  rw [read_length] at bound
  have small : 256 ^ f.size ≤ 256 ^ 8 := Nat.pow_le_pow_right (by decide) f.small
  rw [get, BitVec.toNat_ofNat, Nat.mod_eq_of_lt]
  rw [load]
  exact lt_of_lt_of_le bound small

theorem on_lt (f : Field) (m : Mem 64) (a : BitVec 64) : (f.on m a).toNat < 256 ^ f.size := by
  have bound := leNat_lt (read m (a + BitVec.ofNat 64 f.off) f.size)
  rw [read_length] at bound
  rw [on, BitVec.toNat_ofNat, load]
  exact Nat.lt_of_le_of_lt (Nat.mod_le _ _) bound

theorem set_get : f.set (f.get s) s = s := by
  have bytes := leBytes_leNat (read s (BitVec.ofNat 64 f.off) f.size)
  rw [read_length] at bytes
  rw [set, toNat_get, store, load, bytes, write_read]

theorem set_low {x : BitVec 64} (high : v >>> 8 = f.get s >>> 8) (other : x ≠ BitVec.ofNat 64 f.off) :
    f.set v s x = s x := by
  apply store_low _ other
  have bits := congrArg BitVec.toNat high
  rwa [BitVec.toNat_ushiftRight, BitVec.toNat_ushiftRight, Nat.shiftRight_eq_div_pow,
    Nat.shiftRight_eq_div_pow, toNat_get] at bits

theorem set_outside {x : BitVec 64} (outside : x.toNat < f.off ∨ f.off + f.size ≤ x.toNat) :
    f.set v s x = s x := by
  have hf := f.fits
  have base : (BitVec.ofNat 64 f.off).toNat = f.off := by
    rw [BitVec.toNat_ofNat, Nat.mod_eq_of_lt (by omega)]
  apply store_outside
  rw [within_iff (by omega), base]
  omega

end Field

section Exchange
variable {m : Mem 64} {a b x : BitVec 64} {n k : Nat} {image : Image} {f : Field}

/-- What a device reads into a cleared buffer. -/
def window (m : Mem 64) (a : BitVec 64) (n : Nat) : Image :=
  fun i => if i.toNat < n then m (a + i) else 0

def place (m : Mem 64) (a : BitVec 64) (n : Nat) (image : Image) : Mem 64 :=
  fun x => if Within a n x then image (x - a) else m x

theorem place_outside (outside : ¬ Within a n x) : place m a n image x = m x := if_neg outside

theorem place_inside (i : BitVec 64) (bound : i.toNat < n) : place m a n image (a + i) = image i := by
  have distance : a + i - a = i := by rw [BitVec.add_comm, BitVec.add_sub_cancel]
  rw [place, if_pos (by rwa [Within, distance]), distance]

theorem within_offset {off len : Nat} {y : BitVec 64} (fits : off + len ≤ 2 ^ 64)
    (inside : Within (BitVec.ofNat 64 off) len y) : y.toNat < off + len ∧ off ≤ y.toNat := by
  rcases Nat.eq_zero_or_pos len with rfl | positive
  · exact absurd inside (Nat.not_lt_zero _)
  · have base : (BitVec.ofNat 64 off).toNat = off := by
      rw [BitVec.toNat_ofNat, Nat.mod_eq_of_lt (by omega)]
    rw [within_iff (by omega), base] at inside
    omega

theorem within_start {len : Nat} {y : BitVec 64} (inside : Within 0 len y) : y.toNat < len := by
  simpa [Within] using inside

theorem load_shift {off len : Nat} (fits : off + len ≤ 2 ^ 64)
    (same : ∀ i : BitVec 64, i.toNat < off + len → image i = m (a + i)) :
    load image (BitVec.ofNat 64 off) len = load m (a + BitVec.ofNat 64 off) len := by
  rw [load, load]
  congr 1
  unfold read
  apply List.map_congr_left
  intro i member
  have bound : i < len := List.mem_range.mp member
  have sum : BitVec.ofNat 64 off + BitVec.ofNat 64 i = BitVec.ofNat 64 (off + i) :=
    (BitVec.ofNat_add _ _).symm
  rw [BitVec.add_assoc, sum]
  apply same
  rw [BitVec.toNat_ofNat, Nat.mod_eq_of_lt (by omega)]
  omega

@[simp] theorem Field.on_zero (f : Field) (s : Image) : f.on s 0 = f.get s := by
  simp [on, get]

theorem window_place_same : window (place m a n image) a n = window image 0 n := by
  funext i
  unfold window
  split
  · rename_i bound
    rw [place_inside i bound]
    simp
  · rfl

theorem window_congr {m' : Mem 64} (same : ∀ x, Within a n x → m' x = m x) :
    window m' a n = window m a n := by
  funext i
  unfold window
  split
  · rename_i bound
    have there := within_add (a := a) i.toNat i.isLt bound
    exact same _ (by simpa using there)
  · rfl

theorem read_window (small : n ≤ 2 ^ 64) : read (window image 0 n) 0 n = read image 0 n := by
  apply read_congr small
  intro x inside
  have bound := within_start inside
  rw [window, if_pos (by omega)]
  simp

theorem Field.get_window (inside : f.off + f.size ≤ n) : f.get (window m a n) = f.on m a := by
  have hf := f.fits
  rw [get, on, load_shift (by omega)]
  intro i bound
  rw [window, if_pos (by omega)]

theorem Field.on_congr {m' : Mem 64}
    (same : ∀ x, Within (a + BitVec.ofNat 64 f.off) f.size x → m' x = m x) : f.on m' a = f.on m a := by
  have hf := f.fits
  rw [on, on, load_congr (by omega) same]

theorem Field.get_congr {s s' : Image}
    (same : ∀ x : BitVec 64, f.off ≤ x.toNat → x.toNat < f.off + f.size → s' x = s x) :
    f.get s' = f.get s := by
  have hf := f.fits
  rw [← Field.on_zero, ← Field.on_zero]
  apply Field.on_congr
  intro x inside
  have inner : Within (BitVec.ofNat 64 f.off) f.size x := by simpa using inside
  obtain ⟨high, low⟩ := within_offset (by omega) inner
  exact same x low high

end Exchange

/-! ## Transfers -/

structure Transfer where
  base : BitVec 64
  len : Nat
  image : Image

namespace Transfer

def apply (m : Mem 64) (t : Transfer) : Mem 64 := place m t.base t.len t.image

def replay (m : Mem 64) (ts : List Transfer) : Mem 64 := ts.foldl apply m

variable {m : Mem 64} {x : BitVec 64} {ts us : List Transfer}

theorem replay_append : replay m (ts ++ us) = replay (replay m ts) us := List.foldl_append

theorem replay_outside (outside : ∀ t ∈ ts, ¬ Within t.base t.len x) : replay m ts x = m x := by
  induction ts generalizing m with
  | nil => rfl
  | cons t ts ih =>
      have later : ∀ u ∈ ts, ¬ Within u.base u.len x := fun u member => outside u (by simp [member])
      rw [replay, List.foldl_cons]
      exact (ih later).trans (place_outside (outside t (by simp)))

end Transfer

end ByteMem
