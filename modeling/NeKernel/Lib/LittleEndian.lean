import NeKernel.Lib.ByteMem

/-!
# Little-endian numbers in a byte memory
-/

namespace ByteMem

def leBytes : Nat → Nat → List Byte
  | 0, _ => []
  | n + 1, v => BitVec.ofNat 8 v :: leBytes n (v / 256)

def leNat : List Byte → Nat
  | [] => 0
  | b :: rest => b.toNat + 256 * leNat rest

@[simp] theorem leBytes_length (n v : Nat) : (leBytes n v).length = n := by
  induction n generalizing v with
  | zero => rfl
  | succ n ih => simp [leBytes, ih]

theorem leNat_lt (bytes : List Byte) : leNat bytes < 256 ^ bytes.length := by
  induction bytes with
  | nil => simp [leNat]
  | cons b rest ih =>
      have hb := b.isLt
      rw [leNat, List.length_cons, pow_succ]
      omega

theorem leNat_append (front rest : List Byte) :
    leNat (front ++ rest) = leNat front + 256 ^ front.length * leNat rest := by
  induction front with
  | nil => simp [leNat]
  | cons b front ih =>
      rw [List.cons_append, leNat, ih, leNat, List.length_cons, pow_succ]
      ring

theorem leNat_leBytes (n v : Nat) : leNat (leBytes n v) = v % 256 ^ n := by
  induction n generalizing v with
  | zero => simp [leBytes, leNat, Nat.mod_one]
  | succ n ih =>
      rw [leBytes, leNat, ih, BitVec.toNat_ofNat, show 256 ^ (n + 1) = 256 * 256 ^ n by ring,
        Nat.mod_mul]

theorem leBytes_leNat (bytes : List Byte) : leBytes bytes.length (leNat bytes) = bytes := by
  induction bytes with
  | nil => rfl
  | cons b rest ih =>
      have hb := b.isLt
      have low : BitVec.ofNat 8 (b.toNat + 256 * leNat rest) = b := by
        apply BitVec.eq_of_toNat_eq
        rw [BitVec.toNat_ofNat]
        omega
      have high : (b.toNat + 256 * leNat rest) / 256 = leNat rest := by omega
      rw [List.length_cons, leNat, leBytes, low, high, ih]

theorem leNat_injective {xs ys : List Byte} (len : xs.length = ys.length) (same : leNat xs = leNat ys) :
    xs = ys := by
  rw [← leBytes_leNat xs, ← leBytes_leNat ys, same, len]

theorem leNat_eq_zero {bytes : List Byte} (zero : ∀ b ∈ bytes, b = 0) : leNat bytes = 0 := by
  induction bytes with
  | nil => rfl
  | cons b rest ih =>
      have hb : b = 0 := zero b (by simp)
      have hrest := ih fun c member => zero c (by simp [member])
      simp [leNat, hb, hrest]

def load {w : Nat} (m : Mem w) (a : BitVec w) (n : Nat) : Nat := leNat (read m a n)

def store {w : Nat} (m : Mem w) (a : BitVec w) (n v : Nat) : Mem w := write m a (leBytes n v)

section Numbers
variable {w : Nat} {m m' : Mem w} {a b x : BitVec w} {n k v : Nat}

theorem store_outside (outside : ¬ Within a n x) : store m a n v x = m x :=
  write_outside (by simpa using outside)

theorem store_sameOutside : SameOutside a n m (store m a n v) :=
  fun _ outside => store_outside outside

theorem store_offset_sameOutside (off : Nat) (bound : off + k ≤ n) :
    SameOutside a n m (store m (a + BitVec.ofNat w off) k v) :=
  write_offset_sameOutside off (by simpa using bound)

theorem load_congr (small : n ≤ 2 ^ w) (same : ∀ x, Within a n x → m' x = m x) :
    load m' a n = load m a n := by
  rw [load, load, read_congr small same]

theorem load_store_same (small : n ≤ 2 ^ w) : load (store m a n v) a n = v % 256 ^ n := by
  have round : read (write m a (leBytes n v)) a n = leBytes n v := by
    have fits : (leBytes n v).length ≤ 2 ^ w := by simpa using small
    simpa using read_write_same (m := m) (a := a) fits
  rw [load, store, round, leNat_leBytes]

theorem load_store_apart (small : n ≤ 2 ^ w) (apart : Apart a n b k) :
    load (store m b k v) a n = load m a n :=
  load_congr small fun x inside => store_outside (apart x inside)

theorem leBytes_tail {v v' : Nat} (high : v / 256 = v' / 256) : (leBytes n v).tail = (leBytes n v').tail := by
  cases n with
  | zero => rfl
  | succ n => simp [leBytes, high]

theorem store_low (high : v / 256 = load m a n / 256) (other : x ≠ a) : store m a n v x = m x := by
  have later : (x - a).toNat ≠ 0 := by
    intro zero
    have equal : x - a = 0 := BitVec.eq_of_toNat_eq zero
    exact other (by simpa [equal] using (BitVec.sub_add_cancel x a).symm)
  obtain ⟨i, index⟩ := Nat.exists_eq_succ_of_ne_zero later
  have bytes : (leBytes n v).tail = (read m a n).tail := by
    have kept := leBytes_leNat (read m a n)
    rw [read_length] at kept
    rw [← kept]
    exact leBytes_tail high
  have same := congrFun (write_read m a n) x
  rw [write, index, List.getD_eq_getElem?_getD, ← List.getElem?_tail] at same
  rw [store, write, index, List.getD_eq_getElem?_getD, ← List.getElem?_tail, bytes, same]

theorem load_zero (small : n ≤ 2 ^ w) (zero : ∀ x, Within a n x → m x = 0) :
    load m a n = 0 := by
  apply leNat_eq_zero
  intro byte member
  obtain ⟨i, bound, rfl⟩ := List.mem_map.mp member
  have bound := List.mem_range.mp bound
  exact zero _ (within_add i (by omega) bound)

theorem leBytes_zero (n : Nat) : leBytes n 0 = List.replicate n 0 := by
  induction n with
  | zero => rfl
  | succ n ih => simpa [leBytes, List.replicate_succ] using ih

theorem store_zero (zero : m x = 0) : store m a n 0 x = 0 := by
  by_cases inside : Within a n x
  · rw [store, write, leBytes_zero, List.getD_replicate _ inside]
  · rw [store_outside inside, zero]

end Numbers

/-! ## 64-bit words in a 64-bit address space -/

def load64 (m : Mem 64) (a : BitVec 64) : BitVec 64 := BitVec.ofNat 64 (load m a 8)

def store64 (m : Mem 64) (a v : BitVec 64) : Mem 64 := store m a 8 v.toNat

section Words
variable {m m' : Mem 64} {a b v x : BitVec 64} {n : Nat}

theorem store64_eq_store : store64 m a v = store m a 8 v.toNat := rfl

theorem store64_offset_sameOutside (off : Nat) (bound : off + 8 ≤ n) :
    SameOutside a n m (store64 m (a + BitVec.ofNat 64 off) v) :=
  store_offset_sameOutside off bound

theorem store64_outside (outside : ¬ Within a 8 x) : store64 m a v x = m x :=
  store_outside outside

theorem load64_congr (same : ∀ x, Within a 8 x → m' x = m x) : load64 m' a = load64 m a := by
  rw [load64, load64, load_congr (by omega) same]

@[simp] theorem load64_store64_same : load64 (store64 m a v) a = v := by
  have hv := v.isLt
  rw [load64, store64, load_store_same (by omega)]
  apply BitVec.eq_of_toNat_eq
  rw [BitVec.toNat_ofNat]
  omega

theorem store64_load64 : store64 m a (load64 m a) = m := by
  have bound := leNat_lt (read m a 8)
  have bytes := leBytes_leNat (read m a 8)
  rw [read_length] at bound bytes
  have whole : (load64 m a).toNat = leNat (read m a 8) := by
    rw [load64, BitVec.toNat_ofNat, load]
    exact Nat.mod_eq_of_lt bound
  rw [store64, store, whole, bytes, write_read]

theorem load64_store64_apart (apart : Apart a 8 b 8) :
    load64 (store64 m b v) a = load64 m a :=
  load64_congr fun _ inside => store64_outside (apart _ inside)

theorem store64_zero (zero : m x = 0) : store64 m a 0 x = 0 := store_zero zero

theorem load64_zero (zero : ∀ x, Within a 8 x → m x = 0) : load64 m a = 0 := by
  rw [load64, load_zero (by omega) zero]
  rfl

theorem SameOutside.load64_eq (same : SameOutside b n m m') (apart : Apart a 8 b n) :
    load64 m' a = load64 m a :=
  load64_congr fun x inside => same x (apart x inside)

theorem load64_low (m : Mem 64) (a : BitVec 64) : (load64 m a).toNat % 256 = (m a).toNat := by
  have split : read m a 8 = m a :: (read m a 8).tail := by
    simp [read, List.range_succ_eq_map]
  have byte := (m a).isLt
  rw [load64, load, split, leNat, BitVec.toNat_ofNat]
  omega

end Words

attribute [irreducible] load store load64 store64

end ByteMem
