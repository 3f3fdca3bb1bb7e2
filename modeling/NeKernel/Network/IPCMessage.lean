import NeKernel.Lib.Loop
import NeKernel.Lib.Moves
import NeKernel.Machine

/-!
# Passing a message

`IPC_MSG::Pass` waits until the lock word of its target is a multiple of `kIPCLockUsed`, and copies
the source's data over the target's. Its timeout never grows, and the lock word that
`ipc_construct_packet` stores is odd.
-/

namespace Ne.Kernel.IPC
open ByteMem Loops

structure IPC_ADDR where
  UserProcessID : BitVec 64
  UserProcessTeam : BitVec 64

structure IPC_MSG where
  IpcHeaderMagic : BitVec 32
  IpcEndianess : BitVec 8
  IpcPacketSize : SizeT
  IpcFrom : IPC_ADDR
  IpcTo : IPC_ADDR
  IpcLock : BitVec 32
  IpcSize : SizeT
  IpcData : UIntPtr

def kIPCHeaderMagic : BitVec 32 := 0x4950434
def kIPCLockFree : BitVec 32 := 1
def kIPCLockUsed : BitVec 32 := 2
def kEndianBig : BitVec 8 := 1
def kLimitTimeout : BitVec 64 := 1000000

/-- `ipc_construct_packet` on a packet that is there. `RTL_ENDIAN` compares its first byte with itself. -/
def ipcConstructPacket (pckt : IPC_MSG) : IPC_MSG :=
  { pckt with
    IpcHeaderMagic := kIPCHeaderMagic
    IpcEndianess := kEndianBig
    IpcPacketSize := 80
    IpcTo := ⟨0, 0⟩
    IpcFrom := ⟨0, 0⟩
    IpcLock := kIPCLockFree }

/-- The headers by their addresses, and the memory the data is in. -/
structure IpcState where
  msgs : UIntPtr → IPC_MSG
  mem : Memory

def rtSetMemorySafe (dst : UIntPtr) (value : BitVec 32) (len dstSize : SizeT) (mem : Memory) :
    UIntPtr × Memory :=
  if dst = 0 ∨ len > dstSize then (0, mem)
  else (dst, ByteMem.write mem dst (List.replicate len.toNat (value.setWidth 8)))

def rtCopyMemorySafe (src dst : UIntPtr) (len dstSize : SizeT) (mem : Memory) : BitVec 32 × Memory :=
  if src = 0 ∨ dst = 0 ∨ len > dstSize then
    (-1, if dst ≠ 0 ∧ dstSize ≠ 0 then (rtSetMemorySafe dst 0 dstSize dstSize mem).2 else mem)
  else (len.setWidth 32, (copyWords 1 len.toNat dst src mem).val)

/-- A round of the loop that waits: how many tests failed, and `timeout`. `lock i` is what the `i`th test
finds in the lock word. -/
def waitRound (lock : ℕ → BitVec 32) (s : ℕ × BitVec 64) : Turn (ℕ × BitVec 64) (Option ℕ) :=
  if lock s.1 % kIPCLockUsed = 0 then .done (some s.1)
  else if s.2 > kLimitTimeout then .done none
  else .again (s.1 + 1, s.2)

/-- `IPC_MSG::Pass`. Fuel counts the tests of the lock word. -/
def pass (lock : ℕ → BitVec 32) (fuel : ℕ) (src target : UIntPtr) (σ : IpcState) : Option (Bool × IpcState) :=
  if src ≠ 0 ∧ target ≠ 0 ∧ target ≠ src then
    if (σ.msgs target).IpcSize > (σ.msgs src).IpcSize then some (false, σ)
    else (loop (waitRound lock) fuel (0, 0)).map fun
      | none => (false, σ)
      | some i =>
          let held := { σ.msgs target with IpcLock := lock i + 1 }
          let copied := rtCopyMemorySafe (σ.msgs src).IpcData held.IpcData (σ.msgs src).IpcSize
            held.IpcSize σ.mem
          (true, ⟨Function.update σ.msgs target { held with IpcLock := held.IpcLock - 1 }, copied.2⟩)
  else some (false, σ)

/-- The messages `Pass` does not look further at. -/
def Refused (msgs : UIntPtr → IPC_MSG) (src target : UIntPtr) : Prop :=
  src = 0 ∨ target = 0 ∨ target = src ∨ (msgs target).IpcSize > (msgs src).IpcSize

section Waiting
variable {lock : ℕ → BitVec 32} {fuel i : ℕ} {src target : UIntPtr} {σ τ : IpcState} {yes : Bool}

/-- The wait ends at the first test that finds an even lock word, and in no other way. -/
theorem wait_iff {r : Option ℕ} : loop (waitRound lock) fuel (i, 0) = some r ↔
    ∃ j < fuel, lock (i + j) % kIPCLockUsed = 0 ∧ (∀ k < j, lock (i + k) % kIPCLockUsed ≠ 0) ∧
      r = some (i + j) := by
  induction fuel generalizing i with
  | zero =>
      constructor
      · intro ends
        cases ends
      · rintro ⟨j, less, -⟩
        exact absurd less (Nat.not_lt_zero j)
  | succ fuel ih =>
      by_cases free : lock i % kIPCLockUsed = 0
      · have round : waitRound lock (i, 0) = .done (some i) := if_pos free
        rw [loop_done round]
        constructor
        · intro same
          cases same
          exact ⟨0, Nat.succ_pos _, free, fun k less => absurd less (Nat.not_lt_zero k), rfl⟩
        · rintro ⟨j, -, -, before, rfl⟩
          cases j with
          | zero => rfl
          | succ j => exact absurd free (before 0 (Nat.succ_pos j))
      · have round : waitRound lock (i, 0) = .again (i + 1, 0) := by
          have early : ¬ (0 : BitVec 64) > kLimitTimeout := by decide
          exact (if_neg free).trans (if_neg early)
        rw [loop_again round, ih]
        constructor
        · rintro ⟨j, less, even, before, rfl⟩
          refine ⟨j + 1, by omega, by rwa [Nat.add_assoc, Nat.add_comm 1] at even, fun k earlier => ?_,
            by rw [Nat.add_assoc, Nat.add_comm 1]⟩
          cases k with
          | zero => exact free
          | succ k =>
              rw [Nat.add_comm k, ← Nat.add_assoc]
              exact before k (by omega)
        · rintro ⟨j, less, even, before, rfl⟩
          cases j with
          | zero => exact absurd even free
          | succ j =>
              have shift (k : ℕ) : i + 1 + k = i + (k + 1) := by omega
              simp only [shift]
              exact ⟨j, by omega, even, fun k earlier => before (k + 1) (by omega), rfl⟩

theorem pass_refused (refused : Refused σ.msgs src target) : pass lock fuel src target σ = some (false, σ) := by
  unfold pass
  split
  · next live =>
      rcases refused with null | null | same | larger
      · exact absurd null live.1
      · exact absurd null live.2.1
      · exact absurd same live.2.2
      · exact if_pos larger
  · rfl

theorem pass_waits (taken : ¬ Refused σ.msgs src target) :
    pass lock fuel src target σ = some (yes, τ) ↔
      ∃ i < fuel, lock i % kIPCLockUsed = 0 ∧ (∀ k < i, lock k % kIPCLockUsed ≠ 0) ∧ yes = true ∧
        τ = ⟨Function.update σ.msgs target { σ.msgs target with IpcLock := lock i },
          (rtCopyMemorySafe (σ.msgs src).IpcData (σ.msgs target).IpcData (σ.msgs src).IpcSize
            (σ.msgs target).IpcSize σ.mem).2⟩ := by
  unfold Refused at taken
  have live : src ≠ 0 ∧ target ≠ 0 ∧ target ≠ src :=
    ⟨fun null => taken (.inl null), fun null => taken (.inr (.inl null)),
      fun same => taken (.inr (.inr (.inl same)))⟩
  have size : ¬ (σ.msgs target).IpcSize > (σ.msgs src).IpcSize :=
    fun larger => taken (.inr (.inr (.inr larger)))
  rw [pass, if_pos live, if_neg size, Option.map_eq_some_iff]
  constructor
  · rintro ⟨r, waited, same⟩
    obtain ⟨i, less, even, before, rfl⟩ := wait_iff.mp waited
    simp only [Nat.zero_add, BitVec.add_sub_cancel, Prod.mk.injEq] at same even before
    exact ⟨i, less, even, before, same.1.symm, same.2.symm⟩
  · rintro ⟨i, less, even, before, rfl, rfl⟩
    refine ⟨some i, wait_iff.mpr ⟨i, less, by rwa [Nat.zero_add], ?_, by rw [Nat.zero_add]⟩, ?_⟩
    · simpa only [Nat.zero_add] using before
    · simp only [BitVec.add_sub_cancel]

end Waiting

/-- `Pass` returns within so many tests, and refuses when none of them ever finds the lock released. -/
def Returns (bound : ℕ) (lock : ℕ → BitVec 32) (σ : IpcState) (src target : UIntPtr) : Prop :=
  ∃ yes τ, pass lock bound src target σ = some (yes, τ) ∧
    ((∀ i, lock i % kIPCLockUsed ≠ 0) → yes = false)

theorem pass_returns_iff (bound : ℕ) (lock : ℕ → BitVec 32) (σ : IpcState) (src target : UIntPtr) :
    Returns bound lock σ src target ↔
      Refused σ.msgs src target ∨ ∃ i < bound, lock i % kIPCLockUsed = 0 := by
  constructor
  · rintro ⟨yes, τ, returned, -⟩
    by_cases refused : Refused σ.msgs src target
    · exact .inl refused
    · obtain ⟨i, less, even, -⟩ := (pass_waits refused).mp returned
      exact .inr ⟨i, less, even⟩
  · intro ends
    by_cases refused : Refused σ.msgs src target
    · exact ⟨false, σ, pass_refused refused, fun _ => rfl⟩
    · obtain ⟨i, less, even⟩ := ends.resolve_left refused
      -- The wait ends at the first of these tests.
      have some_even : ∃ i, lock i % kIPCLockUsed = 0 := ⟨i, even⟩
      have first : Nat.find some_even ≤ i := Nat.find_min' some_even even
      refine ⟨true, _, (pass_waits refused).mpr ⟨Nat.find some_even, by omega, Nat.find_spec some_even,
        fun k earlier => Nat.find_min some_even earlier, rfl, rfl⟩, fun never => absurd even (never i)⟩

/-- The messages at 1 and 2 are as `ipc_construct_packet` leaves them. -/
def constructed : IpcState :=
  ⟨fun _ => ipcConstructPacket ⟨0, 0, 0, ⟨0, 0⟩, ⟨0, 0⟩, 0, 0, 0⟩, fun _ => 0⟩

/-- Nobody releases the lock of a constructed packet. -/
theorem pass_not_bounded : ¬ ∃ bound, ∀ (lock : ℕ → BitVec 32) (σ : IpcState) (src target : UIntPtr),
    Returns bound lock σ src target := by
  rintro ⟨bound, returns⟩
  obtain ⟨yes, τ, returned, -⟩ := returns (fun _ => (constructed.msgs 2).IpcLock) constructed 1 2
  have taken : ¬ Refused constructed.msgs 1 2 := by
    unfold Refused
    decide
  obtain ⟨i, -, even, -⟩ := (pass_waits taken).mp returned
  exact absurd even (by decide)

/-- `Pass` while nobody else touches the messages. -/
def passAlone (fuel : ℕ) (src target : UIntPtr) (σ : IpcState) : Option (Bool × IpcState) :=
  pass (fun _ => (σ.msgs target).IpcLock) fuel src target σ

def IpcState.data (σ : IpcState) (a : UIntPtr) : List Byte :=
  ByteMem.read σ.mem (σ.msgs a).IpcData (σ.msgs a).IpcSize.toNat

structure Delivers (σ : IpcState) (src target : UIntPtr) : Prop where
  delivered : ∀ fuel τ, passAlone fuel src target σ = some (true, τ) →
    σ.data src <+: τ.data target ∧ (τ.msgs target).IpcLock = (σ.msgs target).IpcLock
  spared : ∀ fuel τ, passAlone fuel src target σ = some (false, τ) →
    τ.msgs target = σ.msgs target ∧ τ.data target = σ.data target

section Delivery
variable {msgs : UIntPtr → IPC_MSG} {mem : Memory} {σ τ : IpcState} {fuel : ℕ} {src target : UIntPtr}
  {yes : Bool}

theorem passAlone_taken (taken : ¬ Refused σ.msgs src target) :
    passAlone fuel src target σ = some (yes, τ) ↔
      0 < fuel ∧ (σ.msgs target).IpcLock % kIPCLockUsed = 0 ∧ yes = true ∧
        τ = ⟨σ.msgs, (rtCopyMemorySafe (σ.msgs src).IpcData (σ.msgs target).IpcData (σ.msgs src).IpcSize
          (σ.msgs target).IpcSize σ.mem).2⟩ := by
  rw [passAlone, pass_waits taken, Function.update_eq_self]
  constructor
  · rintro ⟨i, less, even, -, returned⟩
    exact ⟨by omega, even, returned⟩
  · rintro ⟨positive, even, returned⟩
    exact ⟨0, positive, even, fun k earlier => absurd earlier (Nat.not_lt_zero k), returned⟩

theorem spared_of_refused (refused : Refused σ.msgs src target) : Delivers σ src target := by
  have returned (fuel : ℕ) : passAlone fuel src target σ = some (false, σ) := pass_refused refused
  constructor
  · intro fuel τ yes
    rw [returned] at yes
    cases yes
  · intro fuel τ no
    rw [returned] at no
    cases no
    exact ⟨rfl, rfl⟩

/-- A buffer of no bytes may be anywhere. -/
def ValidData (msg : IPC_MSG) : Prop := msg.IpcData ≠ 0 ∨ msg.IpcSize = 0

theorem data_length : (σ.data src).length = (σ.msgs src).IpcSize.toNat := read_length

theorem rtCopyMemorySafe_same {s t : IPC_MSG} (source : ValidData s) (dest : ValidData t)
    (size : s.IpcSize = t.IpcSize) :
    (rtCopyMemorySafe s.IpcData t.IpcData s.IpcSize t.IpcSize mem).2 =
      (copyWords 1 s.IpcSize.toNat t.IpcData s.IpcData mem).val := by
  unfold rtCopyMemorySafe
  split
  · next off =>
      have empty : s.IpcSize = 0 := by
        rcases off with null | null | larger
        · exact source.resolve_left (fun live => live null)
        · exact size.trans (dest.resolve_left fun live => live null)
        · exact absurd larger (by rw [size]; exact BitVec.lt_irrefl _)
      have none : t.IpcSize = 0 := size.symm.trans empty
      rw [empty, none]
      simp [copyWords]
  · rfl

theorem delivers_of_apart (source : ValidData (σ.msgs src)) (dest : ValidData (σ.msgs target))
    (size : (σ.msgs src).IpcSize = (σ.msgs target).IpcSize)
    (apart : ¬ Ahead (σ.msgs src).IpcData (σ.msgs target).IpcData (σ.msgs src).IpcSize.toNat)
    (taken : ¬ Refused σ.msgs src target) : Delivers σ src target := by
  constructor
  · intro fuel τ returned
    obtain ⟨-, -, -, rfl⟩ := (passAlone_taken taken).mp returned
    refine ⟨?_, rfl⟩
    have small := (σ.msgs src).IpcSize.isLt
    have moved := @moved_write 64 σ.mem (σ.msgs target).IpcData (σ.msgs src).IpcData
      (σ.msgs src).IpcSize.toNat small.le
    have copied := @copyWords_moves (σ.msgs target).IpcData (σ.msgs src).IpcData
      (σ.msgs src).IpcSize.toNat 1 σ.mem (by omega) (by rwa [Nat.mul_one])
    rw [Nat.mul_one] at copied
    have held := moved.holds
    rw [← copied, ← rtCopyMemorySafe_same source dest size, size] at held
    unfold IpcState.data
    rw [size]
    exact held ▸ List.prefix_rfl
  · intro fuel τ returned
    obtain ⟨-, -, no, -⟩ := (passAlone_taken taken).mp returned
    cases no

end Delivery

/-- For every content of the buffers. The copy goes upwards, so the target's buffer may not begin inside
the source's. -/
theorem pass_delivers_iff {msgs : UIntPtr → IPC_MSG} {src target : UIntPtr}
    (source : ValidData (msgs src)) (dest : ValidData (msgs target)) :
    (∀ mem, Delivers ⟨msgs, mem⟩ src target) ↔
      Refused msgs src target ∨ (msgs target).IpcLock % kIPCLockUsed ≠ 0 ∨
      ((msgs src).IpcSize = (msgs target).IpcSize ∧
        ¬ Ahead (msgs src).IpcData (msgs target).IpcData (msgs src).IpcSize.toNat) := by
  by_cases refused : Refused msgs src target
  · exact iff_of_true (fun mem => spared_of_refused refused) (.inl refused)
  by_cases even : (msgs target).IpcLock % kIPCLockUsed = 0
  case neg =>
    refine iff_of_true (fun mem => ?_) (.inr (.inl even))
    have waits {fuel : ℕ} {yes : Bool} {τ : IpcState} :
        passAlone fuel src target ⟨msgs, mem⟩ ≠ some (yes, τ) := by
      intro returned
      obtain ⟨-, found, -⟩ := (passAlone_taken refused).mp returned
      exact even found
    exact ⟨fun fuel τ returned => absurd returned waits, fun fuel τ returned => absurd returned waits⟩
  constructor
  · intro delivers
    refine .inr (.inr ?_)
    have passed (mem : Memory) := (delivers mem).delivered 1 _
      ((passAlone_taken refused).mpr ⟨Nat.one_pos, even, rfl, rfl⟩)
    have size : (msgs src).IpcSize = (msgs target).IpcSize := by
      have short := (passed fun _ => 0).1.length_le
      rw [data_length, data_length] at short
      unfold Refused at refused
      bv_omega
    refine ⟨size, fun ahead => ?_⟩
    obtain ⟨mem, spoilt⟩ := copyWords_spoils ahead (msgs src).IpcSize.isLt.le
    have arrived := (passed mem).1.eq_of_length (by
      rw [data_length, data_length]
      exact congrArg BitVec.toNat size)
    unfold IpcState.data at arrived
    dsimp only at arrived
    rw [rtCopyMemorySafe_same source dest size, ← size] at arrived
    exact spoilt arrived.symm
  · rintro (no | no | ⟨size, apart⟩) mem
    · exact absurd no refused
    · exact absurd even no
    · exact delivers_of_apart source dest size apart refused

/-- At 1 a message with `size` bytes of data, at 2 one with four; nobody holds their locks. -/
def pair (size : SizeT) : UIntPtr → IPC_MSG := fun a =>
  if a = 1 then ⟨kIPCHeaderMagic, kEndianBig, 80, ⟨1, 1⟩, ⟨2, 1⟩, kIPCLockUsed, size, 0x1000⟩
  else ⟨kIPCHeaderMagic, kEndianBig, 80, ⟨2, 1⟩, ⟨1, 1⟩, kIPCLockUsed, 4, 0x2000⟩

theorem pass_delivers_iff_four : Delivers ⟨pair 4, fun _ => 7⟩ 1 2 :=
  (pass_delivers_iff (.inl (by decide)) (.inl (by decide))).mpr
    (.inr (.inr ⟨by decide, fun ahead => absurd ahead.2 (by decide)⟩)) _

/-- Eight bytes into four: the four are cleared, and `Pass` says yes. -/
theorem pass_clears : ¬ ∀ (σ : IpcState) (src target : UIntPtr),
    ValidData (σ.msgs src) → ValidData (σ.msgs target) → Delivers σ src target := by
  intro delivers
  have taken : ¬ Refused (pair 8) 1 2 := by
    unfold Refused
    decide
  obtain ⟨begins, -⟩ := (delivers ⟨pair 8, fun _ => 1⟩ 1 2 (.inl (by decide)) (.inl (by decide))).delivered 1 _
    ((passAlone_taken taken).mpr ⟨Nat.one_pos, by decide, rfl, rfl⟩)
  have short := begins.length_le
  rw [data_length, data_length] at short
  exact absurd short (by decide)

end Ne.Kernel.IPC
