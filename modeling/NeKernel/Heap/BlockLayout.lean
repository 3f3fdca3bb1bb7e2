import NeKernel.Heap.BitMapWalk
import NeKernel.Lib.Runs
import Mathlib.Order.Interval.Set.Basic
import Mathlib.Order.Interval.Set.Disjoint
import Mathlib.Order.CompletePartialOrder

/-!
# Layout of the bitmap blocks over a run

A run pairs the allocator's state with the record of the blocks it handed out. The stride between
two headers is the payload plus `kAlign`, eight bytes short of the payload plus the three-word
header, so the layout is sound exactly as long as one block is handed out.
-/

namespace Ne.Kernel
open ByteMem Runs

structure BitMapBlock where
  ptr : UIntPtr
  size : SizeT
  pad : SizeT
  live : Bool

def BitMapBlock.payload (b : BitMapBlock) : Set Nat :=
  Set.Ico b.ptr.toNat (b.ptr.toNat + (b.size.toNat + b.pad.toNat))

def BitMapBlock.header (b : BitMapBlock) : Set Nat :=
  Set.Ico (b.ptr - 24).toNat ((b.ptr - 24).toNat + 24)

def BitMapBlock.release (pagePtr : UIntPtr) (b : BitMapBlock) : BitMapBlock :=
  if b.ptr = pagePtr then { b with live := false } else b

inductive BitMapCall
  | find (size : SizeT) (wr user : Bool) (pad : SizeT)
  | free (pagePtr : UIntPtr)

structure BitMapRun where
  state : BitMapState
  blocks : List BitMapBlock

def BitMapStep (pool : KernelBitMp) : BitMapCall → BitMapRun → BitMapRun → Prop
  | .find size wr user pad, r, r' => ∃ fuel p,
      findBitMap fuel pool.kKernelBitMpStart size wr user pad r.state = some (p, r'.state) ∧
      r'.blocks = if p = 0 then r.blocks else ⟨p, size, pad, true⟩ :: r.blocks
  | .free q, r, r' => r'.state = (freeBitMap q r.state).2 ∧
      r'.blocks = if (freeBitMap q r.state).1 then r.blocks.map (·.release q) else r.blocks

/-- No payload of a live block meets the payload of another live block or any block's header. -/
def BlocksDisjoint (blocks : List BitMapBlock) : Prop :=
  blocks.Pairwise (fun b c => b.live → c.live → Disjoint b.payload c.payload) ∧
  ∀ b ∈ blocks, b.live → ∀ c ∈ blocks, Disjoint b.payload c.header

/-- The pool as the platform hands it over: cleared, inside the address space, and with room for
the headers of one block. -/
structure ZeroedPool (pool : KernelBitMp) (mem : Memory) : Prop where
  zero : ∀ x, Within pool.kKernelBitMpStart pool.kKernelBitMpSize.toNat x → mem x = 0
  fits : pool.kKernelBitMpStart.toNat + pool.kKernelBitMpSize.toNat ≤ 2 ^ 64
  room : 128 ≤ pool.kKernelBitMpSize.toNat

def bootRun (mem : Memory) : BitMapRun := ⟨⟨mem, 0, 0⟩, []⟩

/-- A `FindBitMap` is refused for its size, or it is the first to hand out a block. -/
def FirstBlock : BitMapCall → BitMapRun → Prop
  | .find size _ _ _, r => refused size ∨ r.blocks = []
  | .free _, _ => True

section Single
variable {pool : KernelBitMp} {mem : Memory} {r r' : BitMapRun} {calls : List BitMapCall}

theorem bitSet_zero {mem : Memory} {base idx : UIntPtr}
    (zero : ∀ x, Within (base + idx * 8) 8 x → mem x = 0) : bitSet mem base idx = 0 :=
  load64_zero zero

/-- While the cursor is at the start of a cleared pool the first request takes the first header. -/
theorem findBitMap_first {σ σ' : BitMapState} {fuel : Nat} {size pad : SizeT} {wr user : Bool}
    {p : UIntPtr} (pristine : ZeroedPool pool σ.mem) (atStart : σ.kBitMapCursor = 0)
    (yes : ¬ refused size)
    (returned : findBitMap fuel pool.kKernelBitMpStart size wr user pad σ = some (p, σ')) :
    p = pool.kKernelBitMpStart + 24 ∧ σ' = takeSlot pool.kKernelBitMpStart size pad σ := by
  rw [findBitMap_accepted yes, atStart] at returned
  simp only [BitVec.ofNat_eq_ofNat, BitVec.add_zero] at returned
  obtain ⟨slot, found, hp, hσ⟩ := findBitMapFrom_sound returned
  have room := pristine.room
  have free : bitSet σ.mem pool.kKernelBitMpStart kBitMapUsedIdx = 0 :=
    bitSet_zero fun x inside =>
      pristine.zero x (Within.of_offset 16 inside (by omega))
  have first := found.unique (.here free)
  subst first
  exact ⟨hp, hσ⟩

/-- Nothing handed out yet, or one block at the start of the pool. -/
def SingleBlock (pool : KernelBitMp) (r : BitMapRun) : Prop :=
  (r.blocks = [] ∧ ZeroedPool pool r.state.mem ∧ r.state.kBitMapCursor = 0) ∨
  ∃ size pad live, r.blocks = [⟨pool.kKernelBitMpStart + 24, size, pad, live⟩]

theorem singleBlock_step (call : BitMapCall) (r r' : BitMapRun) (single : SingleBlock pool r)
    (step : Guarded FirstBlock (BitMapStep pool) call r r') : SingleBlock pool r' := by
  obtain ⟨guard, step⟩ := step
  cases call with
  | find size wr user pad =>
      obtain ⟨fuel, p, returned, blocks⟩ := step
      by_cases no : refused size
      · rw [findBitMap_refused no, Option.some.injEq, Prod.mk.injEq] at returned
        obtain ⟨rfl, same⟩ := returned
        rw [if_pos rfl] at blocks
        unfold SingleBlock
        rw [blocks, ← same]
        exact single
      · have empty := guard.resolve_left no
        rcases single with ⟨-, pristine, atStart⟩ | ⟨_, _, _, one⟩
        · obtain ⟨rfl, -⟩ := findBitMap_first pristine atStart no returned
          have fits := pristine.fits
          have room := pristine.room
          rw [if_neg (by bv_omega), empty] at blocks
          exact .inr ⟨size, pad, true, blocks⟩
        · rw [one] at empty
          cases empty
  | free q =>
      obtain ⟨state, blocks⟩ := step
      rcases single with ⟨empty, pristine, atStart⟩ | ⟨size, pad, live, one⟩
      · refine .inl ⟨by rw [blocks, empty]; simp, ⟨?_, pristine.fits, pristine.room⟩, ?_⟩
        · intro x inside
          rw [state]
          exact freeBitMap_zero (pristine.zero x inside)
        · rw [state]
          exact freeBitMap_cursor_zero atStart
      · refine .inr ⟨size, pad, if (freeBitMap q r.state).1 then
          (BitMapBlock.release q ⟨pool.kKernelBitMpStart + 24, size, pad, live⟩).live else live, ?_⟩
        rw [blocks, one]
        unfold BitMapBlock.release
        split <;> [(simp only [List.map_cons, List.map_nil]; split <;> rfl); rfl]

theorem singleBlock_disjoint (fits : pool.kKernelBitMpStart.toNat + 24 < 2 ^ 64)
    (single : SingleBlock pool r) : BlocksDisjoint r.blocks := by
  rcases single with ⟨empty, -, -⟩ | ⟨size, pad, live, one⟩
  · simp [BlocksDisjoint, empty]
  · rw [one]
    refine ⟨List.pairwise_singleton _ _, ?_⟩
    intro b hb _ c hc
    rw [List.mem_singleton] at hb hc
    subst hb hc
    rw [Set.disjoint_left]
    intro x inPayload inHeader
    have low := inPayload.1
    have high := inHeader.2
    dsimp only at low high
    bv_omega

/-- In every run in which no accepted request follows the first block, the blocks are disjoint. -/
theorem blocks_disjoint_of_first (pool : KernelBitMp) (mem : Memory) (pristine : ZeroedPool pool mem)
    (calls : List BitMapCall) (r : BitMapRun)
    (run : Run (Guarded FirstBlock (BitMapStep pool)) (bootRun mem) calls r) :
    BlocksDisjoint r.blocks := by
  have fits := pristine.fits
  have room := pristine.room
  exact singleBlock_disjoint (by omega)
    (run.invariant singleBlock_step (.inl ⟨rfl, pristine, rfl⟩))

end Single

/-- A cleared pool of one mebibyte at one mebibyte. -/
def megabytePool : KernelBitMp := ⟨0x100000, 0x100000⟩

theorem megabytePool_zeroed : ZeroedPool megabytePool (fun _ => 0) where
  zero _ _ := rfl
  fits := by decide
  room := by decide

theorem megabytePool_find (r : BitMapRun) (size : SizeT) (base : UIntPtr) (accepted : ¬ refused size)
    (cursor : 0x100000 + r.state.kBitMapCursor = base) (nonnull : base + 24 ≠ 0)
    (blank : bitSet r.state.mem base kBitMapUsedIdx = 0) :
    BitMapStep megabytePool (.find size true false 0) r
      ⟨takeSlot base size 0 r.state, ⟨base + 24, size, 0, true⟩ :: r.blocks⟩ := by
  have slot : FreeSlot r.state.mem size 0 base base := .here blank
  obtain ⟨fuel, found⟩ := findBitMapFrom_complete (σ := r.state) slot
  refine ⟨fuel, base + 24, ?_, by rw [if_neg nonnull]⟩
  have start : megabytePool.kKernelBitMpStart = 0x100000 := rfl
  rw [findBitMap_accepted accepted, start, cursor]
  rw [found]

theorem megabytePool_first : Run (Guarded FirstBlock (BitMapStep megabytePool)) (bootRun fun _ => 0)
    [.find 16 true false 0]
    ⟨takeSlot 0x100000 16 0 ⟨fun _ => 0, 0, 0⟩, [⟨0x100000 + 24, 16, 0, true⟩]⟩ :=
  .single ⟨.inr rfl, megabytePool_find _ _ 0x100000 (by decide) (by decide) (by decide)
    (bitSet_zero fun _ _ => rfl)⟩

theorem blocks_disjoint_of_first_megabyte :
    BlocksDisjoint [⟨0x100000 + 24, 16, 0, true⟩] :=
  blocks_disjoint_of_first megabytePool (fun _ => 0) megabytePool_zeroed _ _ megabytePool_first

/-! ## A second block always overlaps the first -/

/-- From an all-zero memory: at most one block, live, and nothing but its header is non-zero. -/
def BlankBlock (pool : KernelBitMp) (r : BitMapRun) : Prop :=
  (r.blocks = [] ∧ r.state.mem = (fun _ => 0) ∧ r.state.kBitMapCursor = 0) ∨
  ∃ size pad, r.blocks = [⟨pool.kKernelBitMpStart + 24, size, pad, true⟩] ∧ ¬ refused size ∧
    r.state.kBitMapCursor = size + pad + kAlign ∧
    SameOutside pool.kKernelBitMpStart 24 (fun _ => 0) r.state.mem

section Second
variable {pool : KernelBitMp} {r r' : BitMapRun}

/-- A pointer is freed only if both its own word and the word three words below are non-zero. -/
theorem freeBitMap_blank {start q : UIntPtr} {σ : BitMapState}
    (header : SameOutside start 24 (fun _ => 0) σ.mem) : freeBitMap q σ = (false, σ) := by
  rcases freeBitMap_cases q σ with same | ⟨here, below, -⟩
  · exact same
  · have low (a : UIntPtr) (magic : bitSet σ.mem a kBitMapMagIdx = kBitMapMagic) :
        Within start 24 a := by
      by_contra outside
      have byte := load64_low σ.mem (a + kBitMapMagIdx * 8)
      have same : a + kBitMapMagIdx * 8 = a := by simp [kBitMapMagIdx]
      unfold bitSet at magic
      rw [magic, same, header a outside] at byte
      simp [kBitMapMagic] at byte
    have first := low q here
    have second := low (q - 24) below
    unfold Within at first second
    bv_omega

theorem blankBlock_step (roomy : ZeroedPool pool (fun _ => 0)) (call : BitMapCall)
    (r r' : BitMapRun) (blank : BlankBlock pool r)
    (step : Guarded FirstBlock (BitMapStep pool) call r r') : BlankBlock pool r' := by
  obtain ⟨guard, step⟩ := step
  cases call with
  | find size wr user pad =>
      obtain ⟨fuel, p, returned, blocks⟩ := step
      by_cases no : refused size
      · rw [findBitMap_refused no, Option.some.injEq, Prod.mk.injEq] at returned
        obtain ⟨rfl, same⟩ := returned
        rw [if_pos rfl] at blocks
        unfold BlankBlock
        rw [blocks, ← same]
        exact blank
      · have empty := guard.resolve_left no
        rcases blank with ⟨-, zero, atStart⟩ | ⟨_, _, one, -⟩
        · obtain ⟨rfl, taken⟩ := findBitMap_first (by rw [zero]; exact roomy) atStart no returned
          have fits := roomy.fits
          have room := roomy.room
          rw [if_neg (by bv_omega), empty] at blocks
          refine .inr ⟨size, pad, blocks, no, ?_, ?_⟩
          · rw [taken, takeSlot_cursor, atStart]
            simp
          · have frame : SameOutside pool.kKernelBitMpStart 24 r.state.mem
                (takeSlot pool.kKernelBitMpStart size pad r.state).mem := takeSlot_sameOutside
            rwa [zero, ← taken] at frame
        · rw [one] at empty
          cases empty
  | free q =>
      obtain ⟨state, blocks⟩ := step
      have header : SameOutside pool.kKernelBitMpStart 24 (fun _ => 0) r.state.mem := by
        rcases blank with ⟨-, zero, -⟩ | ⟨_, _, -, -, -, header⟩
        · rw [zero]
          exact .refl
        · exact header
      rw [freeBitMap_blank header] at state blocks
      simp only [Bool.false_eq_true, if_false] at blocks
      unfold BlankBlock
      rw [state, blocks]
      exact blank

/-- The header of a block placed behind the first one covers the last eight payload bytes of it,
or the whole payload when that is shorter. -/
theorem second_block_overlaps (pool : KernelBitMp) (roomy : ZeroedPool pool (fun _ => 0))
    (calls : List BitMapCall) (r r' : BitMapRun) (b : BitMapBlock) (size pad : SizeT)
    (wr user : Bool) (run : Run (Guarded FirstBlock (BitMapStep pool)) (bootRun fun _ => 0) calls r)
    (one : r.blocks = [b]) (fits : b.ptr.toNat + (b.size.toNat + b.pad.toNat) + 40 ≤ 2 ^ 64)
    (yes : ¬ refused size) (step : BitMapStep pool (.find size wr user pad) r r') :
    ¬ BlocksDisjoint r'.blocks := by
  have start := roomy.fits
  have room := roomy.room
  rcases run.invariant (blankBlock_step roomy) (.inl ⟨rfl, rfl, rfl⟩) with
    ⟨empty, -⟩ | ⟨size₁, pad₁, blocks₁, yes₁, cursor, header⟩
  · rw [one] at empty
    cases empty
  rw [blocks₁, List.cons.injEq] at one
  obtain ⟨rfl, -⟩ := one
  dsimp only at fits
  have positive : size₁ ≠ 0 := fun zero => yes₁ (.inl zero)
  obtain ⟨fuel, p, returned, blocks⟩ := step
  rw [findBitMap_accepted yes, cursor] at returned
  obtain ⟨slot, found, rfl, -⟩ := findBitMapFrom_sound returned
  have base : slot = pool.kKernelBitMpStart + (size₁ + pad₁ + kAlign) := by
    refine found.unique (.here (bitSet_zero fun x inside => header x fun inHeader => ?_))
    unfold Within kAlign kBitMapUsedIdx at *
    bv_omega
  unfold kAlign at base
  rw [if_neg (by bv_omega), blocks₁] at blocks
  intro layout
  have apart := layout.2 ⟨pool.kKernelBitMpStart + 24, size₁, pad₁, true⟩ (by simp [blocks]) rfl
    ⟨slot + 24, size, pad, true⟩ (by simp [blocks])
  have inPayload : slot.toNat + 7 ∈ (⟨pool.kKernelBitMpStart + 24, size₁, pad₁, true⟩ :
      BitMapBlock).payload := by
    constructor <;> dsimp only <;> bv_omega
  have inHeader : slot.toNat + 7 ∈ (⟨slot + 24, size, pad, true⟩ : BitMapBlock).header := by
    constructor <;> dsimp only <;> bv_omega
  exact Set.disjoint_left.mp apart inPayload inHeader

end Second

theorem two_finds_not_disjoint : ¬ ∀ calls r,
    Run (BitMapStep megabytePool) (bootRun fun _ => 0) calls r → BlocksDisjoint r.blocks := by
  intro claim
  have blank : bitSet (takeSlot 0x100000 16 0 ⟨fun _ => 0, 0, 0⟩).mem 0x100020 kBitMapUsedIdx = 0 := by
    refine bitSet_zero fun x inside => takeSlot_sameOutside x ?_
    unfold Within kBitMapUsedIdx at *
    bv_omega
  have second := megabytePool_find ⟨takeSlot 0x100000 16 0 ⟨fun _ => 0, 0, 0⟩,
    [⟨0x100000 + 24, 16, 0, true⟩]⟩ 16 0x100020 (by decide) (by rw [takeSlot_cursor]; decide)
    (by decide) blank
  exact second_block_overlaps megabytePool megabytePool_zeroed _ _ _ ⟨0x100000 + 24, 16, 0, true⟩
    16 0 true false megabytePool_first rfl (by decide) (by decide) second
    (claim _ _ (megabytePool_first.unguarded.append (.single second)))

end Ne.Kernel
