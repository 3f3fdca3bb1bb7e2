import NeKernel.Lib.TracedLoop
import NeKernel.Lib.WordLoops
import NeKernel.Machine

/-!
# Reading a file into memory

`BootFileReader::ReadAll`. The firmware is what its services answer, and the bytes of the file in the order
`Read` gives them. `Boot::ThrowError` does not return.
-/

namespace Ne.Kernel.Boot
open ByteMem Loops
open Access (WritesIn writesIn_write)

/-! ## The source -/

def kBufferTooSmall : BitVec 64 := 5

def kOperationOkay : BitVec 32 := 0
def kNotSupported : BitVec 32 := 1

/-- What a call of `Read` does: it stores at most as many bytes as it was asked for and says how many, or it stores
none and leaves a status and a buffer size. -/
inductive ReadResult where
  | read (count : SizeT)
  | failed (status : BitVec 64) (bufSize : SizeT)

namespace ReadResult

/-- The buffer size that is left behind. -/
def bufSize (asked : SizeT) : ReadResult → SizeT
  | .read count => if count ≤ asked then count else asked
  | .failed _ bufSize => bufSize

/-- The number of bytes that are stored. -/
def stored (asked : SizeT) : ReadResult → ℕ
  | .read count => (if count ≤ asked then count else asked).toNat
  | .failed _ _ => 0

def tooSmall : ReadResult → Bool
  | .read _ => false
  | .failed status _ => status = kBufferTooSmall

end ReadResult

structure FileServices where
  /-- `FileSize`, when `GetInfo` gives it. -/
  getInfo : Option SizeT
  allocatePool : SizeT → Option UIntPtr
  read : ℕ → ReadResult

structure BootFileReader where
  mErrorCode : BitVec 32
  mBlob : UIntPtr
  mSizeFile : SizeT

/-- `ReadAll` in its loop: after `calls` calls, which gave the first `given` bytes of the file. -/
structure ReadState where
  calls : ℕ
  given : ℕ
  bufSize : SizeT
  szCnt : SizeT
  mem : Memory

section Source
variable (fw : FileServices) (file : ℕ → Byte)

def readTurn (chunkToRead readUntil : SizeT) (blob : UIntPtr) (s : ReadState) :
    Traced Access (Turn ReadState (SizeT × Memory)) :=
  if s.szCnt < readUntil then do
    let res := fw.read s.calls
    let bytes := (List.range (res.stored s.bufSize)).map fun i => file (s.given + i)
    Traced.emit (.write (blob + s.szCnt) bytes.length) ()
    let bufSize := res.bufSize s.bufSize
    pure (.again ⟨s.calls + 1, s.given + res.stored s.bufSize, if res.tooSmall then chunkToRead else bufSize,
      s.szCnt + bufSize, write s.mem (blob + s.szCnt) bytes⟩)
  else pure (.done (s.szCnt, s.mem))

/-- The size of the file, or what the caller says when the firmware does not know it. -/
def FileServices.size (readUntil : SizeT) : SizeT := fw.getInfo.getD readUntil

/-- The buffer: the one there is, the one that is given, or a new one. -/
def BootFileReader.buffer (self : BootFileReader) (readUntil : SizeT) (outAddress : UIntPtr) : Option UIntPtr :=
  if self.mBlob ≠ 0 then some self.mBlob
  else if outAddress ≠ 0 then some outAddress
  else fw.allocatePool readUntil

/-- `ReadAll`. It gives nothing when the boot stops for want of memory. -/
def BootFileReader.readAll (self : BootFileReader) (readUntil chunkToRead : SizeT) (outAddress : UIntPtr) (m : Memory)
    (fuel : ℕ) : Traced Access (Option (Option (BootFileReader × Memory))) :=
  let readUntil := fw.size readUntil
  if readUntil = 0 then pure (some (some ({ self with mErrorCode := kNotSupported }, m)))
  else match self.buffer fw readUntil outAddress with
    | none => pure (some none)
    | some blob => do
        let ended ← Traced.loop (readTurn fw file chunkToRead readUntil blob) fuel ⟨0, 0, chunkToRead, 0, m⟩
        pure (ended.map fun (szCnt, m) => some (⟨kOperationOkay, blob, szCnt⟩, m))

end Source

/-! ## What it is for -/

/-- Whatever the file and the memory hold: the reading ends, stores into the buffer only, and succeeds only with the
whole file in the blob. -/
def ReadsAll (fw : FileServices) (self : BootFileReader) (readUntil chunkToRead : SizeT) (outAddress : UIntPtr) :
    Prop :=
  let size := fw.size readUntil
  ∀ (file : ℕ → Byte) (m : Memory),
    (∃ fuel ended, (self.readAll fw file readUntil chunkToRead outAddress m fuel).val = some ended ∧
      ∀ reader m', ended = some (reader, m') → reader.mErrorCode = kOperationOkay →
        read m' reader.mBlob size.toNat = (List.range size.toNat).map file) ∧
    ∀ fuel blob, self.buffer fw size outAddress = some blob →
      Traced.Only (WritesIn blob size.toNat) (self.readAll fw file readUntil chunkToRead outAddress m fuel)

/-! ## What the calls amount to -/

section Calls
variable (results : ℕ → ReadResult) (chunkToRead : SizeT)

/-- How many bytes the `k`th call is asked for. -/
def asked : ℕ → SizeT
  | 0 => chunkToRead
  | k + 1 => if (results k).tooSmall then chunkToRead else (results k).bufSize (asked k)

/-- How many bytes the `k`th call stores. -/
def storedBy (k : ℕ) : ℕ := (results k).stored (asked results chunkToRead k)

/-- How many bytes the first calls have given. -/
def given : ℕ → ℕ
  | 0 => 0
  | k + 1 => given k + storedBy results chunkToRead k

/-- What the buffer sizes that they left add up to. -/
def counted : ℕ → SizeT
  | 0 => 0
  | k + 1 => counted k + (results k).bufSize (asked results chunkToRead k)

/-- The calls give as many bytes as there are to read. Until then less is counted, and wherever a call gives bytes, as
many are counted as were given. -/
def Complete (readUntil : SizeT) : Prop := ∃ n, given results chunkToRead n = readUntil.toNat ∧
  ∀ k < n, counted results chunkToRead k < readUntil ∧
    (0 < storedBy results chunkToRead k → (counted results chunkToRead k).toNat = given results chunkToRead k)

end Calls

section Loop
variable {fw : FileServices} {file : ℕ → Byte} {results : ℕ → ReadResult} {chunkToRead readUntil : SizeT}
  {blob : UIntPtr} {m : Memory} {k n : ℕ} {x : UIntPtr}

theorem given_le (results : ℕ → ReadResult) (chunkToRead : SizeT) (le : k ≤ n) :
    given results chunkToRead k ≤ given results chunkToRead n := by
  induction n, le using Nat.le_induction with
  | base => exact le_rfl
  | succ n _ ih => exact ih.trans (Nat.le_add_right _ _)

/-- A call that gives bytes leaves their number. -/
theorem counted_succ (gives : 0 < storedBy results chunkToRead k) : counted results chunkToRead (k + 1) =
    counted results chunkToRead k + BitVec.ofNat 64 (storedBy results chunkToRead k) := by
  have number : BitVec.ofNat 64 (storedBy results chunkToRead k) =
      (results k).bufSize (asked results chunkToRead k) := by
    unfold storedBy at gives ⊢
    cases result : results k with
    | read count => rw [ReadResult.stored, ReadResult.bufSize, BitVec.ofNat_toNat, BitVec.setWidth_eq]
    | failed status bufSize =>
        rw [result] at gives
        exact absurd gives (Nat.lt_irrefl 0)
  rw [counted, number]

/-- The memory after the first calls. -/
def memAt (results : ℕ → ReadResult) (chunkToRead : SizeT) (file : ℕ → Byte) (blob : UIntPtr) (m : Memory) : ℕ → Memory
  | 0 => m
  | k + 1 => write (memAt results chunkToRead file blob m k) (blob + counted results chunkToRead k)
      ((List.range (storedBy results chunkToRead k)).map fun i => file (given results chunkToRead k + i))

def stateAt (results : ℕ → ReadResult) (chunkToRead : SizeT) (file : ℕ → Byte) (blob : UIntPtr) (m : Memory) (k : ℕ) :
    ReadState :=
  ⟨k, given results chunkToRead k, asked results chunkToRead k, counted results chunkToRead k,
    memAt results chunkToRead file blob m k⟩

theorem readTurn_again (less : counted fw.read chunkToRead k < readUntil) :
    (readTurn fw file chunkToRead readUntil blob (stateAt fw.read chunkToRead file blob m k)).val =
      .again (stateAt fw.read chunkToRead file blob m (k + 1)) := by
  rw [readTurn]
  have goes : (stateAt fw.read chunkToRead file blob m k).szCnt < readUntil := less
  rw [if_pos goes, Traced.val_bind, Traced.val_pure]
  rfl

theorem readTurn_done (enough : ¬ counted fw.read chunkToRead k < readUntil) :
    (readTurn fw file chunkToRead readUntil blob (stateAt fw.read chunkToRead file blob m k)).val =
      .done (counted fw.read chunkToRead k, memAt fw.read chunkToRead file blob m k) := by
  rw [readTurn]
  have ends : ¬ (stateAt fw.read chunkToRead file blob m k).szCnt < readUntil := enough
  rw [if_neg ends, Traced.val_pure]
  rfl

theorem readLoop_ends (runs : ∀ k < n, counted fw.read chunkToRead k < readUntil)
    (enough : ¬ counted fw.read chunkToRead n < readUntil) :
    (Traced.loop (readTurn fw file chunkToRead readUntil blob) (1 + n)
        (stateAt fw.read chunkToRead file blob m 0)).val =
      some (counted fw.read chunkToRead n, memAt fw.read chunkToRead file blob m n) := by
  rw [Traced.loop_val, loop_along fun k less => readTurn_again (runs k less)]
  exact loop_done (readTurn_done enough)

theorem readLoop_runs (never : ∀ k, counted fw.read chunkToRead k < readUntil) (fuel : ℕ) :
    (Traced.loop (readTurn fw file chunkToRead readUntil blob) fuel
        (stateAt fw.read chunkToRead file blob m 0)).val = none := by
  rw [Traced.loop_val, ← Nat.zero_add fuel, loop_along fun k _ => readTurn_again (never k)]
  rfl

/-- A turn stores inside the buffer if it stores nothing or what is left holds it. -/
theorem readTurn_only (less : counted fw.read chunkToRead k < readUntil) :
    Traced.Only (WritesIn blob readUntil.toNat)
        (readTurn fw file chunkToRead readUntil blob (stateAt fw.read chunkToRead file blob m k)) ↔
      storedBy fw.read chunkToRead k = 0 ∨
        (counted fw.read chunkToRead k).toNat + storedBy fw.read chunkToRead k ≤ readUntil.toNat := by
  rw [readTurn]
  have goes : (stateAt fw.read chunkToRead file blob m k).szCnt < readUntil := less
  rw [if_pos goes, Traced.only_bind, Traced.only_emit, writesIn_write, and_iff_left Traced.only_pure, List.length_map,
    List.length_range]
  exact covers_fits readUntil.isLt

/-- Where a byte of the memory comes from: its place in the file, if it was read. -/
def origin (results : ℕ → ReadResult) (chunkToRead : SizeT) (blob : UIntPtr) : ℕ → UIntPtr → Option ℕ
  | 0, _ => none
  | k + 1, x =>
      let i := (x - (blob + counted results chunkToRead k)).toNat
      if i < storedBy results chunkToRead k then some (given results chunkToRead k + i)
      else origin results chunkToRead blob k x

theorem getD_map_range (f : ℕ → Byte) (n i : ℕ) (d : Byte) :
    ((List.range n).map f).getD i d = if i < n then f i else d := by
  rw [List.getD_eq_getElem?_getD, List.getElem?_map]
  split
  · next below => rw [List.getElem?_range below, Option.map_some, Option.getD_some]
  · next beyond =>
      rw [List.getElem?_eq_none (by rw [List.length_range]; omega), Option.map_none, Option.getD_none]

theorem memAt_origin : memAt results chunkToRead file blob m k x =
    (origin results chunkToRead blob k x).elim (m x) file := by
  induction k with
  | zero => rfl
  | succ k ih =>
      rw [memAt, origin, write, ih, getD_map_range]
      split <;> rfl

theorem origin_round {p : ℕ} (known : origin results chunkToRead blob n x = some p) : ∃ k < n,
    given results chunkToRead k ≤ p ∧ p < given results chunkToRead (k + 1) ∧
      x = blob + counted results chunkToRead k + BitVec.ofNat 64 (p - given results chunkToRead k) := by
  induction n with
  | zero => cases known
  | succ n ih =>
      rw [origin] at known
      split at known
      · next inside =>
          obtain rfl := Option.some.inj known
          refine ⟨n, Nat.lt_succ_self n, Nat.le_add_right _ _, Nat.add_lt_add_left inside _, ?_⟩
          rw [Nat.add_sub_cancel_left, BitVec.ofNat_toNat, BitVec.setWidth_eq, BitVec.add_comm, BitVec.sub_add_cancel]
      · obtain ⟨k, less, place⟩ := ih known
        exact ⟨k, Nat.lt_succ_of_lt less, place⟩

/-- What a call stored is what the byte comes from, or what a later one stored. -/
theorem origin_later (gives : 0 < storedBy results chunkToRead k) (less : k < n) : ∃ p,
    origin results chunkToRead blob n (blob + counted results chunkToRead k) = some p ∧
      given results chunkToRead k ≤ p := by
  induction n, less using Nat.le_induction with
  | base =>
      refine ⟨given results chunkToRead k, ?_, le_rfl⟩
      have start : (0#64).toNat = 0 := rfl
      rw [origin, BitVec.sub_self, start, if_pos gives, Nat.add_zero]
  | succ n less ih =>
      rw [origin]
      split
      · exact ⟨_, rfl, (given_le results chunkToRead (Nat.le_of_succ_le less)).trans (Nat.le_add_right _ _)⟩
      · exact ih

/-- The buffer holds the file whatever that holds, so every byte comes from its place. -/
theorem origin_exact (holds : ∀ file m, read (memAt results chunkToRead file blob m n) blob readUntil.toNat =
    (List.range readUntil.toNat).map file) {i : ℕ} (below : i < readUntil.toNat) :
    origin results chunkToRead blob n (blob + BitVec.ofNat 64 i) = some i := by
  have byte (file : ℕ → Byte) (m : Memory) :
      (origin results chunkToRead blob n (blob + BitVec.ofNat 64 i)).elim (m (blob + BitVec.ofNat 64 i)) file =
        file i := by
    have same := congrArg (·[i]?) (holds file m)
    simp only [ByteMem.read, List.getElem?_map, List.getElem?_range below, Option.map_some, Option.some.injEq] at same
    rwa [memAt_origin] at same
  cases known : origin results chunkToRead blob n (blob + BitVec.ofNat 64 i) with
  | none =>
      have same := byte (fun _ => 1) fun _ => 0
      rw [known] at same
      cases same
  | some p =>
      have same := byte (fun q => if q = i then 1 else 0) fun _ => 0
      rw [known] at same
      by_contra other
      have differ : p ≠ i := fun equal => other (congrArg some equal)
      simp only [Option.elim_some, if_neg differ, if_true] at same
      cases same

theorem counted_given (exact : ∀ i < readUntil.toNat,
    origin results chunkToRead blob n (blob + BitVec.ofNat 64 i) = some i) (less : k < n)
    (short : counted results chunkToRead k < readUntil) (gives : 0 < storedBy results chunkToRead k) :
    (counted results chunkToRead k).toNat = given results chunkToRead k := by
  have place : blob + counted results chunkToRead k = blob + BitVec.ofNat 64 (counted results chunkToRead k).toNat := by
    rw [BitVec.ofNat_toNat, BitVec.setWidth_eq]
  have bound := readUntil.isLt
  -- What lies where the call stored is its own byte or a later one.
  obtain ⟨p, known, later⟩ := @origin_later results chunkToRead blob k n gives less
  rw [place, exact _ short] at known
  obtain rfl := Option.some.inj known
  -- So the first byte that it gave belongs to the file, and only this call gave it.
  have before : (counted results chunkToRead k).toNat < readUntil.toNat := short
  obtain ⟨k', -, low, high, here⟩ := origin_round (exact (given results chunkToRead k) (by omega))
  have same : k' = k := by
    rcases Nat.lt_trichotomy k' k with earlier | equal | after
    · have more := given_le results chunkToRead (show k' + 1 ≤ k from earlier)
      omega
    · exact equal
    · have more := given_le results chunkToRead (show k + 1 ≤ k' from after)
      have grows : given results chunkToRead (k + 1) =
          given results chunkToRead k + storedBy results chunkToRead k := rfl
      omega
  subst same
  rw [Nat.sub_self, BitVec.add_zero, BitVec.add_right_inj] at here
  rw [← here, BitVec.toNat_ofNat, Nat.mod_eq_of_lt (by omega)]

/-- The calls of a run that comes to its end and does what it is for. -/
theorem complete_of_run (runs : ∀ k < n, counted results chunkToRead k < readUntil)
    (inside : ∀ k < n, storedBy results chunkToRead k = 0 ∨
      (counted results chunkToRead k).toNat + storedBy results chunkToRead k ≤ readUntil.toNat)
    (holds : ∀ file m, read (memAt results chunkToRead file blob m n) blob readUntil.toNat =
      (List.range readUntil.toNat).map file) (positive : 0 < readUntil.toNat) :
    Complete results chunkToRead readUntil := by
  have exact {i : ℕ} (below : i < readUntil.toNat) := origin_exact holds below
  have places (k : ℕ) (less : k < n) := counted_given (fun i below => exact below) less (runs k less)
  have atMost (k : ℕ) (le : k ≤ n) : given results chunkToRead k ≤ readUntil.toNat := by
    induction k with
    | zero => exact Nat.zero_le _
    | succ k ih =>
        rw [given]
        rcases Nat.eq_zero_or_pos (storedBy results chunkToRead k) with none | gives
        · rw [none]
          exact ih (by omega)
        · have same := places k le gives
          have fits := inside k le
          omega
  refine ⟨n, Nat.le_antisymm (atMost n le_rfl) ?_, fun k less => ⟨runs k less, places k less⟩⟩
  obtain ⟨k, less, -, high, -⟩ := origin_round (exact (show readUntil.toNat - 1 < readUntil.toNat by omega))
  have more := given_le results chunkToRead (show k + 1 ≤ n from less)
  omega

/-- The bytes that were given lie at the beginning of the buffer. -/
theorem read_given (bound : given results chunkToRead k < 2 ^ 64)
    (places : ∀ j < k, 0 < storedBy results chunkToRead j →
      (counted results chunkToRead j).toNat = given results chunkToRead j) :
    read (memAt results chunkToRead file blob m k) blob (given results chunkToRead k) =
      (List.range (given results chunkToRead k)).map file := by
  induction k with
  | zero => rfl
  | succ k ih =>
      rw [given] at bound
      have earlier := ih (by omega) fun j less => places j (Nat.lt_succ_of_lt less)
      rw [given, memAt]
      rcases Nat.eq_zero_or_pos (storedBy results chunkToRead k) with none | gives
      · rw [none, Nat.add_zero]
        exact earlier
      · have place : counted results chunkToRead k = BitVec.ofNat 64 (given results chunkToRead k) := by
          rw [← places k (Nat.lt_succ_self k) gives, BitVec.ofNat_toNat, BitVec.setWidth_eq]
        have start : blob + BitVec.ofNat 64 0 = blob := BitVec.add_zero blob
        have apart := @Apart.of_offsets 64 blob (given results chunkToRead k) (storedBy results chunkToRead k) 0
          (given results chunkToRead k) (by omega) (by omega)
        rw [start] at apart
        rw [place, read_add, List.range_add, List.map_append]
        have bytes := @read_write_same 64 (memAt results chunkToRead file blob m k)
          (blob + BitVec.ofNat 64 (given results chunkToRead k))
          ((List.range (storedBy results chunkToRead k)).map fun i => file (given results chunkToRead k + i))
          (by rw [List.length_map, List.length_range]; omega)
        rw [List.length_map, List.length_range] at bytes
        rw [bytes, List.map_map]
        refine congrArg (· ++ _) ?_
        rw [← earlier]
        refine read_congr (by omega) fun x inside => write_outside fun later => ?_
        rw [List.length_map, List.length_range] at later
        exact apart x inside later

/-- Complete calls count exactly what there is to read when they have given it. -/
theorem counted_complete (complete : given results chunkToRead n = readUntil.toNat)
    (places : ∀ k < n, counted results chunkToRead k < readUntil ∧ (0 < storedBy results chunkToRead k →
      (counted results chunkToRead k).toNat = given results chunkToRead k)) (positive : 0 < readUntil.toNat) :
    counted results chunkToRead n = readUntil := by
  have bound := readUntil.isLt
  -- The call that gives the last byte is the last one, as the loop ends behind it.
  have reached : ∃ k, given results chunkToRead k = readUntil.toNat := ⟨n, complete⟩
  have last := Nat.find_spec reached
  have least (k : ℕ) (less : k < Nat.find reached) := Nat.find_min reached less
  have early := Nat.find_min' reached complete
  generalize Nat.find reached = k' at last least early
  cases k' with
  | zero =>
      rw [given] at last
      omega
  | succ k =>
      have other := least k (Nat.lt_succ_self k)
      rw [given] at last
      have gives : 0 < storedBy results chunkToRead k := by
        by_contra none
        exact other (by omega)
      have same := (places k (by omega)).2 gives
      have total : counted results chunkToRead (k + 1) = readUntil := by
        apply BitVec.eq_of_toNat_eq
        rw [counted_succ gives, BitVec.toNat_add, BitVec.toNat_ofNat,
          Nat.mod_eq_of_lt (by omega : storedBy _ _ k < 2 ^ 64), Nat.mod_eq_of_lt (by omega)]
        omega
      rcases Nat.eq_or_lt_of_le early with equal | less
      · rwa [← equal]
      · have short := (places (k + 1) less).1
        rw [total] at short
        exact absurd short (BitVec.lt_irrefl _)

end Loop

/-! ## The whole function -/

section Whole
variable {fw : FileServices} {self : BootFileReader} {readUntil chunkToRead : SizeT} {outAddress blob : UIntPtr}
  {file : ℕ → Byte} {m : Memory} {n : ℕ}

theorem readAll_loop (some : fw.size readUntil ≠ 0) (found : self.buffer fw (fw.size readUntil) outAddress = .some blob)
    (fuel : ℕ) : self.readAll fw file readUntil chunkToRead outAddress m fuel = (do
      let ended ← Traced.loop (readTurn fw file chunkToRead (fw.size readUntil) blob) fuel
        (stateAt fw.read chunkToRead file blob m 0)
      pure (ended.map fun (szCnt, m) => .some (⟨kOperationOkay, blob, szCnt⟩, m))) := by
  rw [BootFileReader.readAll]
  dsimp only
  rw [if_neg some, found]
  rfl

theorem readAll_empty (none : fw.size readUntil = 0) : ReadsAll fw self readUntil chunkToRead outAddress := by
  intro file m
  have result (fuel : ℕ) : self.readAll fw file readUntil chunkToRead outAddress m fuel =
      pure (some (some ({ self with mErrorCode := kNotSupported }, m))) := by
    rw [BootFileReader.readAll]
    exact if_pos none
  constructor
  · refine ⟨0, _, by rw [result, Traced.val_pure], fun reader m' same okay => ?_⟩
    obtain ⟨rfl, rfl⟩ := Prod.mk.inj (Option.some.inj same)
    have differ : kNotSupported ≠ kOperationOkay := by decide
    exact absurd okay differ
  · intro fuel blob _
    rw [result]
    exact Traced.only_pure

theorem readAll_stops (some : fw.size readUntil ≠ 0) (none : self.buffer fw (fw.size readUntil) outAddress = .none) :
    ReadsAll fw self readUntil chunkToRead outAddress := by
  intro file m
  constructor
  · refine ⟨0, .none, ?_, nofun⟩
    rw [BootFileReader.readAll]
    dsimp only
    rw [if_neg some, none, Traced.val_pure]
  · intro fuel blob found
    cases found.symm.trans none

section Buffer
variable (some : fw.size readUntil ≠ 0) (found : self.buffer fw (fw.size readUntil) outAddress = .some blob)
include some found

/-- Complete calls end the loop with the file in the buffer. -/
theorem readsAll_of_complete (complete : Complete fw.read chunkToRead (fw.size readUntil)) :
    ReadsAll fw self readUntil chunkToRead outAddress := by
  have positive : 0 < (fw.size readUntil).toNat := Nat.pos_of_ne_zero fun zero => some (BitVec.eq_of_toNat_eq zero)
  have bound := (fw.size readUntil).isLt
  obtain ⟨n, total, places⟩ := complete
  have reached := counted_complete total places positive
  intro file m
  have enough : ¬ counted fw.read chunkToRead n < fw.size readUntil := by
    rw [reached]
    exact BitVec.lt_irrefl _
  have turns (k : ℕ) (less : k < n) :=
    @readTurn_again fw file chunkToRead (fw.size readUntil) blob m k (places k less).1
  have ends := @readTurn_done fw file chunkToRead (fw.size readUntil) blob m n enough
  constructor
  · refine ⟨1 + n, .some (⟨kOperationOkay, blob, counted fw.read chunkToRead n⟩,
      memAt fw.read chunkToRead file blob m n), ?_, ?_⟩
    · rw [readAll_loop some found, Traced.val_bind, Traced.val_pure,
        readLoop_ends (fun k less => (places k less).1) enough]
      rfl
    · intro reader m' same _
      obtain ⟨rfl, rfl⟩ := Prod.mk.inj (Option.some.inj same)
      dsimp only
      rw [← total]
      exact read_given (by omega) fun j less => (places j less).2
  · intro fuel blob' found'
    obtain rfl := Option.some.inj (found.symm.trans found')
    rw [readAll_loop some found, Traced.only_bind, and_iff_left Traced.only_pure]
    refine (Traced.only_loop_ends turns ends).mpr (fun j below => ?_) fuel
    rcases Nat.eq_or_lt_of_le below with rfl | less
    · have stops : ¬ (stateAt fw.read chunkToRead file blob m j).szCnt < fw.size readUntil := enough
      rw [readTurn, if_neg stops]
      exact Traced.only_pure
    · refine (readTurn_only (places j less).1).mpr ?_
      rcases Nat.eq_zero_or_pos (storedBy fw.read chunkToRead j) with none | gives
      · exact .inl none
      · have same := (places j less).2 gives
        have more := given_le fw.read chunkToRead (show j + 1 ≤ n from less)
        rw [given] at more
        right
        omega

/-- The loop comes to its end at the first call before which enough is counted. -/
theorem complete_of_readsAll (meets : ReadsAll fw self readUntil chunkToRead outAddress) :
    Complete fw.read chunkToRead (fw.size readUntil) := by
  have positive : 0 < (fw.size readUntil).toNat := Nat.pos_of_ne_zero fun zero => some (BitVec.eq_of_toNat_eq zero)
  have reached : ∃ n, ¬ counted fw.read chunkToRead n < fw.size readUntil := by
    by_contra never
    obtain ⟨⟨fuel, ended, result, -⟩, -⟩ := meets (fun _ => 0) fun _ => 0
    rw [readAll_loop some found, Traced.val_bind, Traced.val_pure,
      readLoop_runs fun k => not_not.mp fun enough => never ⟨k, enough⟩] at result
    cases result
  have enough := Nat.find_spec reached
  have runs (k : ℕ) (less : k < Nat.find reached) := not_not.mp (Nat.find_min reached less)
  generalize Nat.find reached = n at enough runs
  refine @complete_of_run _ _ _ blob _ runs (fun k less => ?_) (fun file m => ?_) positive
  · have log := (meets (fun _ => 0) fun _ => 0).2 (1 + n) blob found
    have turns (k : ℕ) (less : k < n) :=
      @readTurn_again fw (fun _ => 0) chunkToRead (fw.size readUntil) blob (fun _ => 0) k (runs k less)
    rw [readAll_loop some found, Traced.only_bind, and_iff_left Traced.only_pure, Traced.only_loop_along turns] at log
    exact (readTurn_only (runs k less)).mp (log.1 k less)
  · obtain ⟨⟨fuel, ended, result, holds⟩, -⟩ := meets file m
    have out := @readLoop_ends fw file chunkToRead (fw.size readUntil) blob m n runs enough
    rw [readAll_loop some found, Traced.val_bind, Traced.val_pure] at result
    obtain ⟨r, last, rfl⟩ := Option.map_eq_some_iff.mp result
    rw [Traced.loop_val] at last out
    obtain rfl := (loop_steady _ _).unique out last
    exact holds _ _ rfl rfl

end Buffer

end Whole

/-- The reading does what it is for exactly if there is nothing to read, or nowhere to, or the calls are complete. -/
theorem readAll_meets_iff (fw : FileServices) (self : BootFileReader) (readUntil chunkToRead : SizeT)
    (outAddress : UIntPtr) : ReadsAll fw self readUntil chunkToRead outAddress ↔
      fw.size readUntil = 0 ∨ self.buffer fw (fw.size readUntil) outAddress = none ∨
        Complete fw.read chunkToRead (fw.size readUntil) := by
  by_cases empty : fw.size readUntil = 0
  · exact iff_of_true (readAll_empty empty) (.inl empty)
  rw [or_iff_right empty]
  cases found : self.buffer fw (fw.size readUntil) outAddress with
  | none => exact iff_of_true (readAll_stops empty found) (.inl rfl)
  | some blob =>
      rw [or_iff_right (Option.some_ne_none blob)]
      exact ⟨complete_of_readsAll empty found, readsAll_of_complete empty found⟩

/-- A file of one byte, of which every call gives the same. -/
def sameAnswer (result : ReadResult) : FileServices := ⟨some 1, fun _ => some 0x1000, fun _ => result⟩

/-- A firmware that gives nothing keeps the loop going, and one whose device fails with the buffer size as it was makes
it succeed with nothing read. -/
theorem readAll_meets_fails : ¬ ReadsAll (sameAnswer (.read 0)) ⟨0, 0, 0⟩ 0 4096 0 ∧
    ¬ ReadsAll (sameAnswer (.failed 7 4096)) ⟨0, 0, 0⟩ 0 4096 0 := by
  have none (result : ReadResult) (empty : ∀ asked, result.stored asked = 0) :
      ¬ ReadsAll (sameAnswer result) ⟨0, 0, 0⟩ 0 4096 0 := by
    intro meets
    have some : (sameAnswer result).size 0 ≠ 0 := by
      change (1 : SizeT) ≠ 0
      decide
    have found : (BootFileReader.mk 0 0 0).buffer (sameAnswer result) ((sameAnswer result).size 0) 0 =
        Option.some 0x1000 := rfl
    obtain ⟨n, total, -⟩ := complete_of_readsAll some found meets
    have nothing (k : ℕ) : given (sameAnswer result).read 4096 k = 0 := by
      induction k with
      | zero => rfl
      | succ k ih =>
          rw [given, ih, storedBy, Nat.zero_add]
          exact empty _
    rw [nothing] at total
    cases total
  refine ⟨none _ fun asked => ?_, none _ fun asked => rfl⟩
  have least : (0 : SizeT) ≤ asked := Nat.zero_le asked.toNat
  rw [ReadResult.stored, if_pos least]
  rfl

end Ne.Kernel.Boot
