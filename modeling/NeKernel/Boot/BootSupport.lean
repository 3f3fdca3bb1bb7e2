import NeKernel.Boot.BootThread
import NeKernel.Lib.TracedLoop

/-!
# The primitives of the boot loader

`memset`, `memcpy` and `strcmp` of `BootSupport.cpp` and both `BSetMem` of `BootString.cpp`. The first
two count in words, whatever their callers count in. `BSetMem` goes on until an element is zero.
-/

namespace Ne.Kernel.Boot
open ByteMem Access Loops

/-! ## The source -/

/-- A character that `strcmp` looks at: of `whatToCheck`, or of `whatToCheckRight`. -/
inductive Look where
  | left (i : SizeT)
  | right (i : SizeT)

/-- One comparison of the loop of `strcmp`. -/
def strcmpTurn (m : Memory) (whatToCheck whatToCheckRight : UIntPtr) (len : SizeT) :
    Traced Look (Turn SizeT (BitVec 32)) := do
  let left ← .emit (.left len) (m (whatToCheck + len))
  let right ← .emit (.right len) (m (whatToCheckRight + len))
  pure (if left = right then if left = 0 then .done 0 else .again (len + 1) else .done (len.setWidth 32))

def strcmpLoop (m : Memory) (whatToCheck whatToCheckRight : UIntPtr) (fuel : ℕ) : Traced Look (Option (BitVec 32)) :=
  Traced.loop (strcmpTurn m whatToCheck whatToCheckRight) fuel 0

structure SetState where
  cnt : SizeT
  src : UIntPtr
  mem : Memory

/-- One turn of the loop of `BSetMem`. The characters are as many bytes long as `byte`. -/
def bSetMemTurn (byte : List Byte) (len : SizeT) (s : SetState) : Traced Access (Turn SetState (SizeT × Memory)) := do
  let here ← .emit (.read s.src byte.length) (read s.mem s.src byte.length)
  if here = List.replicate byte.length 0 ∨ s.cnt > len then pure (.done (s.cnt, s.mem))
  else do
    Traced.emit (.write s.src byte.length) ()
    pure (.again ⟨s.cnt + 1, s.src + BitVec.ofNat 64 byte.length, write s.mem s.src byte⟩)

/-- `BSetMem` for characters of any width. -/
def bSetMem (m : Memory) (src : UIntPtr) (byte : List Byte) (len : SizeT) (fuel : ℕ) :
    Traced Access (Option (SizeT × Memory)) :=
  if src = 0 then pure (some (0, m)) else Traced.loop (bSetMemTurn byte len) fuel ⟨0, src, m⟩

/-- `BSetMem` of a `CharacterTypeASCII`, and of a `CharacterTypeUTF16`. -/
def bSetMemASCII (m : Memory) (src : UIntPtr) (byte : BitVec 8) := bSetMem m src [byte]

def bSetMemUTF16 (m : Memory) (src : UIntPtr) (byte : BitVec 16) := bSetMem m src (leBytes 2 byte.toNat)

/-! ## What they are for -/

/-- The `i`th element of `w` bytes. -/
def elementAt (m : Memory) (src : UIntPtr) (w i : ℕ) : List Byte := read m (src + BitVec.ofNat 64 (i * w)) w

/-- `count` elements with the same bytes. -/
def elements (byte : List Byte) (count : ℕ) : List Byte := (List.replicate count byte).flatten

/-- The `len` bytes from `dst` hold the low byte of `byte`, and no other is stored to. -/
def MemsetMeets (m : Memory) (dst : UIntPtr) (byte : BitVec 32) (len : SizeT) : Prop :=
  (memset dst byte len.toNat m).val = write m dst (elements [byte.setWidth 8] len.toNat) ∧
    Traced.Only (WritesIn dst len.toNat) (memset dst byte len.toNat m)

/-- The `len` bytes from `dst` hold those from `src`, and no other is stored to. -/
def MemcpyMeets (m : Memory) (dst src : UIntPtr) (len : SizeT) : Prop :=
  (memcpy dst src len.toNat m).val = write m dst (read m src len.toNat) ∧
    Traced.Only (WritesIn dst len.toNat) (memcpy dst src len.toNat m)

/-- The loop ends with the `len` elements from `src` set, and no other is stored to. A null pointer gives none. -/
def BSetMemMeets (run : ℕ → Traced Access (Option (SizeT × Memory))) (m : Memory) (src : UIntPtr) (byte : List Byte)
    (len : SizeT) : Prop :=
  let count := if src = 0 then 0 else len.toNat
  (∃ fuel cnt, (run fuel).val = some (cnt, write m src (elements byte count))) ∧
    ∀ fuel, Traced.Only (WritesIn src (count * byte.length)) (run fuel)

/-- The character belongs to its string, or is the terminator. -/
def Look.inside (left right : List Byte) : Look → Prop
  | .left i => i.toNat ≤ left.length
  | .right i => i.toNat ≤ right.length

/-- Zero for equal strings and for no others, with no look past a terminator. -/
def StrcmpMeets (m : Memory) (whatToCheck whatToCheckRight : UIntPtr) (left right : List Byte) : Prop :=
  (∃ fuel r, (strcmpLoop m whatToCheck whatToCheckRight fuel).val = some r ∧ (r = 0 ↔ left = right)) ∧
    ∀ fuel, Traced.Only (Look.inside left right) (strcmpLoop m whatToCheck whatToCheckRight fuel)

/-! ## The fills and copies in words -/

section Words
variable {m : Memory} {dst src : UIntPtr} {byte : BitVec 32} {len : SizeT}

theorem covers_words : Covers dst len.toNat dst (len.toNat * 4) ↔ len = 0 := by
  have none : len = 0 ↔ len.toNat = 0 := BitVec.toNat_inj.symm
  rcases Nat.eq_zero_or_pos len.toNat with zero | positive
  · rw [zero, Nat.zero_mul]
    exact iff_of_true covers_zero (none.mpr zero)
  · rw [covers_iff len.isLt (by omega), BitVec.sub_self, none]
    have start : (0#64).toNat = 0 := rfl
    omega

theorem memsetMeets_iff : MemsetMeets m dst byte len ↔ len = 0 := by
  unfold MemsetMeets memset
  rw [fillWords_writes, leBytes_length, covers_words]
  refine ⟨And.right, fun none => ⟨?_, none⟩⟩
  subst none
  exact Traced.val_pure

theorem memcpyMeets_iff : MemcpyMeets m dst src len ↔ len = 0 := by
  unfold MemcpyMeets memcpy
  rw [copyWords_writes, covers_words]
  refine ⟨And.right, fun none => ⟨?_, none⟩⟩
  subst none
  exact Traced.val_pure

end Words

/-! ## The fill of characters -/

section Characters
variable {m : Memory} {src : UIntPtr} {byte : List Byte} {len : SizeT} {j k : ℕ}

@[simp] theorem elements_length : (elements byte k).length = k * byte.length := by
  simp [elements]

theorem elements_add : elements byte (j + k) = elements byte j ++ elements byte k := by
  rw [elements, List.replicate_add, List.flatten_append]
  rfl

/-- The state before the `j`th turn, as long as no element was zero. -/
def filling (m : Memory) (src : UIntPtr) (byte : List Byte) (j : ℕ) : SetState :=
  ⟨BitVec.ofNat 64 j, src + BitVec.ofNat 64 (j * byte.length), write m src (elements byte j)⟩

theorem filling_zero : filling m src byte 0 = ⟨0, src, m⟩ := by
  have start : src + BitVec.ofNat 64 (0 * byte.length) = src := by simp
  have empty : write m src (elements byte 0) = m := rfl
  rw [filling, start, empty]
  rfl

/-- Elements that lie behind the ones that were set are what they were. -/
theorem element_behind (low : k ≤ j) (fits : (j + 1) * byte.length ≤ 2 ^ 64) :
    elementAt (write m src (elements byte k)) src byte.length j = elementAt m src byte.length j := by
  have split : (j + 1) * byte.length = j * byte.length + byte.length := Nat.succ_mul j byte.length
  have before : k * byte.length ≤ j * byte.length := Nat.mul_le_mul_right _ low
  have apart := @Apart.of_offsets 64 src (k * byte.length) byte.length 0 (j * byte.length) (by omega) (by omega)
  have start : src + BitVec.ofNat 64 0 = src := BitVec.add_zero src
  rw [start] at apart
  refine read_congr (by omega) fun x inside => write_outside fun early => ?_
  rw [elements_length] at early
  exact apart x early inside

theorem elements_succ : elements byte (k + 1) = elements byte k ++ byte := by
  rw [elements_add]
  simp [elements]

theorem write_next (fits : (k + 1) * byte.length ≤ 2 ^ 64) :
    write (write m src (elements byte k)) (src + BitVec.ofNat 64 (k * byte.length)) byte =
      write m src (elements byte (k + 1)) := by
  have split : (k + 1) * byte.length = k * byte.length + byte.length := Nat.succ_mul k byte.length
  have next := @write_add 64 m src (elements byte k) byte (by rw [elements_length]; omega)
  rwa [elements_length, ← elements_succ] at next

theorem not_beyond (early : j ≤ len.toNat) : ¬ BitVec.ofNat 64 j > len := by
  have bound := len.isLt
  rw [gt_iff_lt, BitVec.lt_def, BitVec.toNat_ofNat, Nat.mod_eq_of_lt (by omega)]
  omega

theorem bSetMemTurn_filling (room : (j + 1) * byte.length ≤ 2 ^ 64) (early : j ≤ len.toNat)
    (more : elementAt m src byte.length j ≠ List.replicate byte.length 0) :
    (bSetMemTurn byte len (filling m src byte j)).val = .again (filling m src byte (j + 1)) := by
  have split : (j + 1) * byte.length = j * byte.length + byte.length := Nat.succ_mul j byte.length
  have goes := not_or.mpr ⟨more, not_beyond early⟩
  rw [← element_behind le_rfl room, elementAt] at goes
  simp only [bSetMemTurn, filling, Traced.val_bind, Traced.val_emit, Traced.val_ite, Traced.val_pure]
  rw [if_neg goes, write_next room, split, BitVec.ofNat_add, BitVec.ofNat_add, BitVec.add_assoc]
  rfl

/-- A turn that sets an element stores to one of those that were given, or to the one behind them. -/
theorem bSetMemTurn_only (room : len.toNat * byte.length < 2 ^ 64) (some : 0 < byte.length)
    (fits : (j + 1) * byte.length ≤ 2 ^ 64) (early : j ≤ len.toNat)
    (more : elementAt m src byte.length j ≠ List.replicate byte.length 0) :
    Traced.Only (WritesIn src (len.toNat * byte.length)) (bSetMemTurn byte len (filling m src byte j)) ↔
      j < len.toNat := by
  have split : (j + 1) * byte.length = j * byte.length + byte.length := Nat.succ_mul j byte.length
  have goes := not_or.mpr ⟨more, not_beyond early⟩
  rw [← element_behind le_rfl fits, elementAt] at goes
  simp only [bSetMemTurn, filling, Traced.only_bind, Traced.only_emit, Traced.val_emit, writesIn_read, true_and,
    Traced.only_ite, Traced.only_pure, implies_true, and_true, writesIn_write]
  rw [imp_iff_right goes, covers_offset_iff room some (by omega), ← split, Nat.mul_le_mul_right_iff some]
  exact Nat.succ_le_iff

theorem bSetMemTurn_stops (room : (j + 1) * byte.length ≤ 2 ^ 64)
    (zero : elementAt m src byte.length j = List.replicate byte.length 0) :
    (bSetMemTurn byte len (filling m src byte j)).val =
        .done (BitVec.ofNat 64 j, write m src (elements byte j)) ∧
      Traced.Only (WritesIn src (len.toNat * byte.length)) (bSetMemTurn byte len (filling m src byte j)) := by
  rw [← element_behind le_rfl room, elementAt] at zero
  have stops := Or.inl zero (b := BitVec.ofNat 64 j > len)
  constructor
  · simp only [bSetMemTurn, filling, Traced.val_bind, Traced.val_emit, Traced.val_ite, Traced.val_pure]
    exact if_pos stops
  · simp only [bSetMemTurn, filling, Traced.only_bind, Traced.only_emit, Traced.val_emit, writesIn_read, true_and,
      Traced.only_ite, Traced.only_pure, implies_true]
    exact fun goes => absurd stops goes

theorem element_set (fits : k * byte.length ≤ 2 ^ 64) (below : j < k) :
    elementAt (write m src (elements byte k)) src byte.length j = byte := by
  obtain ⟨rest, rfl⟩ := Nat.exists_eq_add_of_lt below
  have split : (j + rest + 1) * byte.length = j * byte.length + (byte.length + rest * byte.length) := by ring
  have whole := @read_write_same 64 m src (elements byte (j + rest + 1)) (by rwa [elements_length])
  have parts : elements byte (j + rest + 1) = elements byte j ++ (byte ++ elements byte rest) := by
    have order : j + rest + 1 = j + (1 + rest) := by ring
    rw [order, elements_add, elements_add]
    simp [elements]
  rw [elements_length, split, read_add, read_add] at whole
  rw [elementAt]
  have behind := (List.append_inj (whole.trans parts) (by rw [read_length, elements_length])).2
  exact (List.append_inj behind read_length).1

/-- More elements may be set without a change if they hold the value. -/
theorem write_elements (fits : k * byte.length ≤ 2 ^ 64) (below : j ≤ k) :
    write m src (elements byte j) = write m src (elements byte k) ↔
      ∀ i, j ≤ i → i < k → elementAt m src byte.length i = byte := by
  constructor
  · intro same i low high
    have room : (i + 1) * byte.length ≤ 2 ^ 64 := (Nat.mul_le_mul_right _ high).trans fits
    rw [← element_behind low room, same]
    exact element_set fits high
  · intro hold
    induction k, below using Nat.le_induction with
    | base => rfl
    | succ k below ih =>
        have shorter : k * byte.length ≤ 2 ^ 64 := (Nat.mul_le_mul_right _ (Nat.le_succ k)).trans fits
        have here := hold k below (Nat.lt_succ_self k)
        rw [← element_behind below fits, elementAt] at here
        have next := @write_next m src byte k fits
        rw [← ih shorter fun i low high => hold i low (Nat.lt_succ_of_lt high)] at next
        have back := write_read (write m src (elements byte j)) (src + BitVec.ofNat 64 (k * byte.length)) byte.length
        rw [here, next] at back
        exact back.symm

/-- The first zero is behind the last of the elements at the latest, and from there on they hold the value. -/
def Settled (m : Memory) (src : UIntPtr) (byte : List Byte) (len : SizeT) : Prop :=
  ∃ z ≤ len.toNat, (∀ i < z, elementAt m src byte.length i ≠ List.replicate byte.length 0) ∧
    elementAt m src byte.length z = List.replicate byte.length 0 ∧
    ∀ i, z ≤ i → i < len.toNat → elementAt m src byte.length i = byte

section Filling
variable (divides : byte.length ∣ 2 ^ 64) (room : len.toNat * byte.length < 2 ^ 64) {z : ℕ}
include divides room

theorem element_fits (early : z ≤ len.toNat) : (z + 1) * byte.length ≤ 2 ^ 64 := by
  obtain ⟨q, whole⟩ := divides
  have less : len.toNat < q := by
    rw [whole, Nat.mul_comm] at room
    exact Nat.lt_of_mul_lt_mul_left room
  rw [whole, Nat.mul_comm]
  exact Nat.mul_le_mul_left _ (Nat.succ_le_of_lt (Nat.lt_of_le_of_lt early less))

variable (early : z ≤ len.toNat)
  (nonzero : ∀ i < z, elementAt m src byte.length i ≠ List.replicate byte.length 0)
include early nonzero

/-- The loop as far as the first zero, which is not behind the place of the last turn. -/
theorem bSetMem_along (j : ℕ) (below : j < z) :
    (bSetMemTurn byte len (filling m src byte j)).val = .again (filling m src byte (j + 1)) :=
  bSetMemTurn_filling (element_fits divides room (by omega)) (by omega) (nonzero j below)

theorem bSetMem_result (zero : elementAt m src byte.length z = List.replicate byte.length 0) :
    (Traced.loop (bSetMemTurn byte len) (1 + z) (filling m src byte 0)).val =
      some (BitVec.ofNat 64 z, write m src (elements byte z)) := by
  rw [Traced.loop_val, loop_along (bSetMem_along divides room early nonzero)]
  exact loop_done (bSetMemTurn_stops (element_fits divides room early) zero).1

end Filling

theorem bSetMemMeets_iff (some : 0 < byte.length) (divides : byte.length ∣ 2 ^ 64)
    (room : len.toNat * byte.length < 2 ^ 64) :
    BSetMemMeets (bSetMem m src byte len) m src byte len ↔ src = 0 ∨ Settled m src byte len := by
  have fits {j : ℕ} (early : j ≤ len.toNat) := element_fits divides room early
  unfold BSetMemMeets bSetMem
  by_cases null : src = 0
  · simp only [if_pos null]
    refine iff_of_true ⟨⟨0, 0, ?_⟩, fun fuel => Traced.only_pure⟩ (.inl null)
    rw [Traced.val_pure]
    rfl
  simp only [if_neg null, ← @filling_zero m src byte]
  rw [or_iff_right null]
  constructor
  · rintro ⟨⟨fuel, cnt, ends⟩, stores⟩
    by_cases found : ∃ z, elementAt m src byte.length z = List.replicate byte.length 0 ∧ z ≤ len.toNat
    · obtain ⟨zero, early⟩ := Nat.find_spec found
      have nonzero (i : ℕ) (below : i < Nat.find found) := fun other => Nat.find_min found below ⟨other, by omega⟩
      refine ⟨Nat.find found, early, nonzero, zero, (write_elements (by omega) early).mp ?_⟩
      have stopped := bSetMem_result divides room early nonzero zero
      rw [Traced.loop_val] at ends stopped
      have same := (loop_steady _ _).unique stopped ends
      exact (Prod.mk.inj same).2
    · have nonzero (i : ℕ) (below : i ≤ len.toNat) := fun other => found ⟨i, other, below⟩
      have log := stores (1 + len.toNat)
      rw [Traced.only_loop_along (bSetMem_along divides room le_rfl fun i below => nonzero i below.le),
        Traced.only_loop_again (bSetMemTurn_filling (fits le_rfl) le_rfl (nonzero _ le_rfl)),
        bSetMemTurn_only room some (fits le_rfl) le_rfl (nonzero _ le_rfl)] at log
      exact absurd log.2.1 (Nat.lt_irrefl _)
  · rintro ⟨z, early, nonzero, zero, hold⟩
    obtain ⟨last, reads⟩ := @bSetMemTurn_stops m src byte len z (fits early) zero
    constructor
    · refine ⟨1 + z, BitVec.ofNat 64 z, ?_⟩
      rw [bSetMem_result divides room early nonzero zero, (write_elements (by omega) early).mpr hold]
    · rw [Traced.only_loop_ends (bSetMem_along divides room early nonzero) last]
      intro j below
      rcases Nat.eq_or_lt_of_le below with rfl | less
      · exact reads
      · exact (bSetMemTurn_only room some (fits (by omega)) (by omega) (nonzero j less)).mpr (by omega)

end Characters

/-! ## The comparison -/

section Comparison
variable {m : Memory} {whatToCheck whatToCheckRight : UIntPtr} {left right : List Byte} {i : ℕ}

theorem strcmpTurn_only (below : i ≤ shared left right) :
    Traced.Only (Look.inside left right) (strcmpTurn m whatToCheck whatToCheckRight (BitVec.ofNat 64 i)) := by
  obtain ⟨inLeft, inRight⟩ := shared_le left right
  have less : (BitVec.ofNat 64 i).toNat ≤ i := by
    rw [BitVec.toNat_ofNat]
    exact Nat.mod_le i _
  rw [strcmpTurn, Traced.only_bind, Traced.only_bind, Traced.only_emit, Traced.only_emit]
  exact ⟨(less.trans below).trans inLeft, (less.trans below).trans inRight, Traced.only_pure⟩

section Strings
variable (first : Text m whatToCheck left) (second : Text m whatToCheckRight right)
include first second

theorem strcmpTurn_again (below : i < shared left right) :
    (strcmpTurn m whatToCheck whatToCheckRight (BitVec.ofNat 64 i)).val = .again (BitVec.ofNat 64 (i + 1)) := by
  have bounds := shared_le left right
  have same : m (whatToCheck + BitVec.ofNat 64 i) = m (whatToCheckRight + BitVec.ofNat 64 i) := by
    rw [first.character (by omega), second.character (by omega), shared_same below]
  have more := first.nonzero (by omega : i < left.length)
  rw [strcmpTurn, Traced.val_bind, Traced.val_bind, Traced.val_pure, Traced.val_emit, Traced.val_emit, if_pos same,
    if_neg more, BitVec.ofNat_add]
  rfl

/-- The terminator is no character, so two strings that differ do so where their beginning ends. -/
theorem characters_differ (differ : left ≠ right) : m (whatToCheck + BitVec.ofNat 64 (shared left right)) ≠
    m (whatToCheckRight + BitVec.ofNat 64 (shared left right)) := by
  obtain ⟨inLeft, inRight⟩ := shared_le left right
  have apart := shared_differs differ
  have character {text : List Byte} {a : UIntPtr} {n : ℕ} {x : Byte} (here : Text m a text)
      (known : text[n]? = some x) : x ≠ 0 := fun zero => here.characters (zero ▸ List.mem_of_getElem? known)
  rw [first.character inLeft, second.character inRight]
  cases x : left[shared left right]? with
  | none =>
      cases y : right[shared left right]? with
      | none => exact absurd (x.trans y.symm) apart
      | some c => exact (character second y).symm
  | some c =>
      cases y : right[shared left right]? with
      | none => exact character first x
      | some d => exact fun same => apart (x.trans ((congrArg some same).trans y.symm))

theorem strcmpTurn_done : (strcmpTurn m whatToCheck whatToCheckRight (BitVec.ofNat 64 (shared left right))).val =
    .done (if left = right then 0 else BitVec.ofNat 32 (shared left right)) := by
  rw [strcmpTurn, Traced.val_bind, Traced.val_bind, Traced.val_pure, Traced.val_emit, Traced.val_emit]
  by_cases equal : left = right
  · subst equal
    rw [shared_self, first.terminator, second.terminator, if_pos rfl, if_pos rfl, if_pos rfl]
  · rw [if_neg (characters_differ first second equal), if_neg equal, BitVec.setWidth_ofNat_of_le (by decide)]

/-- The comparison answers with the place of the first difference, which is zero at the first character. -/
theorem strcmpMeets_iff : StrcmpMeets m whatToCheck whatToCheckRight left right ↔
    left = right ∨ shared left right % 2 ^ 32 ≠ 0 := by
  have turns (j : ℕ) (below : j < shared left right) := strcmpTurn_again first second below
  have ends := strcmpTurn_done first second
  have result : (strcmpLoop m whatToCheck whatToCheckRight (1 + shared left right)).val =
      some (if left = right then 0 else BitVec.ofNat 32 (shared left right)) := by
    have along := @loop_along _ _ (fun len => (strcmpTurn m whatToCheck whatToCheckRight len).val) 1 (BitVec.ofNat 64) _
      turns
    rw [strcmpLoop, Traced.loop_val]
    exact along.trans (loop_done ends)
  have zero : BitVec.ofNat 32 (shared left right) = 0 ↔ shared left right % 2 ^ 32 = 0 := by
    rw [← BitVec.toNat_inj, BitVec.toNat_ofNat]
    rfl
  have meets : ((if left = right then 0 else BitVec.ofNat 32 (shared left right)) = 0 ↔ left = right) ↔
      left = right ∨ shared left right % 2 ^ 32 ≠ 0 := by
    by_cases equal : left = right
    · rw [if_pos equal]
      exact iff_of_true (iff_of_true rfl equal) (.inl equal)
    · rw [if_neg equal, zero, or_iff_right equal, iff_false_right equal]
  constructor
  · rintro ⟨⟨fuel, r, ends', answers⟩, -⟩
    rw [strcmpLoop, Traced.loop_val] at ends' result
    obtain rfl := (loop_steady _ _).unique result ends'
    exact meets.mp answers
  · intro condition
    refine ⟨⟨_, _, result, meets.mpr condition⟩, ?_⟩
    exact (Traced.only_loop_ends turns ends).mpr fun j below => strcmpTurn_only below

end Strings

end Comparison

/-! ## All of them -/

/-- `memset` and `memcpy` do what they are for when there is nothing to do, `BSetMem` when it stops at a zero in time
and nothing is left to set there, `strcmp` unless the place of the first difference is zero as an `int`. -/
theorem primitives_meet (m : Memory) (dst src : UIntPtr) (len : SizeT) :
    (∀ byte, MemsetMeets m dst byte len ↔ len = 0) ∧
    (MemcpyMeets m dst src len ↔ len = 0) ∧
    (∀ byte, BSetMemMeets (bSetMemASCII m src byte len) m src [byte] len ↔ src = 0 ∨ Settled m src [byte] len) ∧
    (len.toNat * 2 < 2 ^ 64 → ∀ byte, BSetMemMeets (bSetMemUTF16 m src byte len) m src (leBytes 2 byte.toNat) len ↔
      src = 0 ∨ Settled m src (leBytes 2 byte.toNat) len) ∧
    ∀ left right, Text m dst left → Text m src right →
      (StrcmpMeets m dst src left right ↔ left = right ∨ shared left right % 2 ^ 32 ≠ 0) := by
  refine ⟨fun byte => memsetMeets_iff, memcpyMeets_iff, fun byte => ?_, fun room byte => ?_,
    fun left right first second => strcmpMeets_iff first second⟩
  · exact @bSetMemMeets_iff m src [byte] len Nat.one_pos (Nat.one_dvd _) (by simpa using len.isLt)
  · exact bSetMemMeets_iff (by rw [leBytes_length]; decide) (by rw [leBytes_length]; decide) (by rwa [leBytes_length])

/-- `"a"` and `"b"`, with a zero behind each. -/
def twoStrings : Memory := write (fun _ => 0) 0x1000 [0x61, 0, 0x62]

theorem twoStrings_texts : Text twoStrings 0x1000 [0x61] ∧ Text twoStrings 0x1002 [0x62] :=
  ⟨⟨by decide, by decide, by decide, by decide +kernel⟩, ⟨by decide, by decide, by decide, by decide +kernel⟩⟩

/-- The strings differ at their first character, so they compare equal; and one byte to be cleared clears four. -/
theorem primitives_meet_fails : Text twoStrings 0x1000 [0x61] ∧ Text twoStrings 0x1002 [0x62] ∧
    ¬ StrcmpMeets twoStrings 0x1000 0x1002 [0x61] [0x62] ∧ ¬ MemsetMeets twoStrings 0x1000 0 1 := by
  obtain ⟨first, second⟩ := twoStrings_texts
  refine ⟨first, second, fun meets => ?_, fun meets => ?_⟩
  · have condition := (strcmpMeets_iff first second).mp meets
    exact absurd condition (by decide)
  · have condition := memsetMeets_iff.mp meets
    exact absurd condition (by decide)

theorem primitives_meet_strings :
    Text twoStrings 0x1000 [0x61] ∧ Text twoStrings 0x1002 [0x62] ∧ (1 : SizeT).toNat * 2 < 2 ^ 64 ∧
    (StrcmpMeets twoStrings 0x1000 0x1002 [0x61] [0x62] ↔
      [0x61] = [(0x62 : Byte)] ∨ shared [0x61] [0x62] % 2 ^ 32 ≠ 0) ∧
    (BSetMemMeets (bSetMemUTF16 twoStrings 0x1002 0 1) twoStrings 0x1002 (leBytes 2 (0 : BitVec 16).toNat) 1 ↔
      (0x1002 : UIntPtr) = 0 ∨ Settled twoStrings 0x1002 (leBytes 2 (0 : BitVec 16).toNat) 1) := by
  obtain ⟨first, second⟩ := twoStrings_texts
  obtain ⟨-, -, -, wide, strings⟩ := primitives_meet twoStrings 0x1000 0x1002 1
  exact ⟨first, second, by decide, strings _ _ first second, wide (by decide) 0⟩

end Ne.Kernel.Boot
