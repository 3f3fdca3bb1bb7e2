import NeKernel.Hal.FrameRuns

/-!
# The frame allocator on several cores

Each core runs `pmmi_alloc_frame` and `pmmi_free_frame` one load, store or flag operation at a time. Both
functions have a static flag of their own.
-/

namespace Ne.Kernel.HAL
open ByteMem Runs

/-- The next access of a core inside one of the two functions, with the locals it has by then. -/
inductive Point
  | allocSpin
  | testHead
  | loadHead
  | loadLink (frame : UIntPtr)
  | storeHead (frame link : UIntPtr)
  | testCursor
  | compareCursor
  | compareEnd (cursor : UIntPtr)
  | takeCursor
  | loadCursor (frame : UIntPtr)
  | storeCursor (frame cursor : UIntPtr)
  /-- `rt_set_memory` has cleared the bytes below `i`. -/
  | clearByte (frame : UIntPtr) (i : Nat)
  | loadFree (frame : UIntPtr)
  | storeFree (frame : UIntPtr) (count : SizeT)
  | loadUsed (frame : UIntPtr)
  | storeUsed (frame : UIntPtr) (count : SizeT)
  | allocClear (frame : UIntPtr)
  | testBase (frame : UIntPtr)
  | testPassed (frame : UIntPtr)
  | freeSpin (frame : UIntPtr)
  | readHead (frame : UIntPtr)
  | storeLink (frame head : UIntPtr)
  | pushHead (frame : UIntPtr)
  | freeLoadFree
  | freeStoreFree (count : SizeT)
  | freeLoadUsed
  | freeStoreUsed (count : SizeT)
  | freeClear

/-- The static `kLocked` of each function. -/
inductive Lock
  | alloc
  | free
  deriving DecidableEq

/-- The lock whose section the access is in, from the end of the spin to the clear of the flag. -/
def Point.within : Point → Option Lock
  | .testHead | .loadHead | .loadLink _ | .storeHead .. | .testCursor | .compareCursor | .compareEnd _ => some .alloc
  | .takeCursor | .loadCursor _ | .storeCursor .. | .clearByte .. | .loadFree _ | .storeFree .. => some .alloc
  | .loadUsed _ | .storeUsed .. | .allocClear _ => some .alloc
  | .readHead _ | .storeLink .. | .pushHead _ | .freeLoadFree | .freeStoreFree _ => some .free
  | .freeLoadUsed | .freeStoreUsed _ | .freeClear => some .free
  | _ => none

/-- The lock that is spun on. -/
def Point.spins : Point → Option Lock
  | .allocSpin => some .alloc
  | .freeSpin _ => some .free
  | _ => none

/-- The frame that is off the list and in the hands of the call: taken and not yet returned, or given and not
yet linked. -/
def Point.carried : Point → List UIntPtr
  | .clearByte frame _ | .loadFree frame | .storeFree frame _ | .loadUsed frame | .storeUsed frame _ => [frame]
  | .allocClear frame => if frame = 0 then [] else [frame]
  | .testBase frame | .testPassed frame | .freeSpin frame | .readHead frame | .storeLink frame _ => [frame]
  | .pushHead frame => [frame]
  | _ => []

/-- Behind the choice of a frame. -/
def found (frame : UIntPtr) : Point := if frame = 0 then .allocClear 0 else .clearByte frame 0

namespace Point

/-- What an access stores, the flags apart. -/
def store (σ : PmmState) : Point → PmmState
  | .storeHead _ link => { σ with kPmmFreeHead := link }
  | .storeCursor _ cursor => { σ with kPmmCursor := cursor + BitVec.ofNat 64 kPageSize }
  | .clearByte frame i =>
    if i < kPageSize then { σ with mem := Function.update σ.mem (frame + BitVec.ofNat 64 i) 0 } else σ
  | .storeFree _ count => { σ with kPmmFree := count - 1 }
  | .storeUsed _ count => { σ with kPmmUsed := count + 1 }
  | .storeLink frame head => { σ with mem := store64 σ.mem frame head }
  | .pushHead frame => { σ with kPmmFreeHead := frame }
  | .freeStoreFree count => { σ with kPmmFree := count + 1 }
  | .freeStoreUsed count => { σ with kPmmUsed := count - 1 }
  | _ => σ

/-- Where an access that is not to a flag leads, `none` for a return. -/
def next (σ : PmmState) : Point → Option Point
  | .testHead => some (if σ.kPmmFreeHead ≠ 0 then .loadHead else .testCursor)
  | .loadHead => some (.loadLink σ.kPmmFreeHead)
  | .loadLink frame => some (.storeHead frame (load64 σ.mem frame))
  | .storeHead frame _ => some (found frame)
  | .testCursor => some (if σ.kPmmCursor ≠ 0 then .compareCursor else .allocClear 0)
  | .compareCursor => some (.compareEnd σ.kPmmCursor)
  | .compareEnd cursor => some (if cursor < σ.kPmmEnd then .takeCursor else .allocClear 0)
  | .takeCursor => some (.loadCursor σ.kPmmCursor)
  | .loadCursor frame => some (.storeCursor frame σ.kPmmCursor)
  | .storeCursor frame _ => some (found frame)
  | .clearByte frame i => some (if i < kPageSize then .clearByte frame (i + 1) else .loadFree frame)
  | .loadFree frame => some (.storeFree frame σ.kPmmFree)
  | .storeFree frame _ => some (.loadUsed frame)
  | .loadUsed frame => some (.storeUsed frame σ.kPmmUsed)
  | .storeUsed frame _ => some (.allocClear frame)
  | .testBase frame => if frame < σ.kPmmBase then none else some (.testPassed frame)
  | .testPassed frame => if frame ≥ σ.kPmmCursor then none else some (.freeSpin frame)
  | .readHead frame => some (.storeLink frame σ.kPmmFreeHead)
  | .storeLink frame _ => some (.pushHead frame)
  | .pushHead _ => some .freeLoadFree
  | .freeLoadFree => some (.freeStoreFree σ.kPmmFree)
  | .freeStoreFree _ => some .freeLoadUsed
  | .freeLoadUsed => some (.freeStoreUsed σ.kPmmUsed)
  | .freeStoreUsed _ => some .freeClear
  | _ => none

end Point

/-- The statics and the memory, both flags, what each core is doing, the frames it got and has not given back,
and the frames that were given back so far. -/
structure Cores (ι : Type*) where
  pmm : PmmState
  locked : Lock → Bool
  points : ι → Option Point
  held : ι → List UIntPtr
  freed : List UIntPtr

/-- A core calls one of the functions, or makes its next access, or writes to a frame it holds. -/
inductive CoreStep (ι : Type*)
  | alloc (core : ι)
  | free (core : ι) (frame : UIntPtr)
  | write (core : ι) (x : UIntPtr) (value : Byte)
  | next (core : ι)

namespace Cores
variable {ι : Type*} [DecidableEq ι]

def boot (mem : Memory) (base : UIntPtr) (sz : SizeT) : Cores ι :=
  ⟨pmmiInit base sz (pmmBoot mem), fun _ => false, fun _ => none, fun _ => [], []⟩

/-- A core goes on to a point, or returns. -/
def goTo (s : Cores ι) (core : ι) (point : Option Point) : Cores ι :=
  { s with points := Function.update s.points core point }

def setLock (s : Cores ι) (lock : Lock) (value : Bool) : Cores ι :=
  { s with locked := Function.update s.locked lock value }

/-- One access. -/
def after (s : Cores ι) (core : ι) (point : Point) : Cores ι :=
  match point with
  | .allocSpin => (s.setLock .alloc true).goTo core (some (if s.locked .alloc then .allocSpin else .testHead))
  | .freeSpin frame =>
    (s.setLock .free true).goTo core (some (if s.locked .free then .freeSpin frame else .readHead frame))
  | .allocClear frame =>
    let taken := if frame = 0 then s.held core else frame :: s.held core
    { s.setLock .alloc false with held := Function.update s.held core taken }.goTo core none
  | .freeClear => (s.setLock .free false).goTo core none
  | point => { s with pmm := point.store s.pmm }.goTo core (point.next s.pmm)

/-- A frame passes from the core's hands to a call of `pmmi_free_frame`. -/
def give (s : Cores ι) (core : ι) (frame : UIntPtr) : Cores ι :=
  { s with
    held := Function.update s.held core ((s.held core).erase frame)
    freed := frame :: s.freed }

/-- A step, `none` where the core cannot make it. A core gives back only a frame it holds. -/
def run (s : Cores ι) : CoreStep ι → Option (Cores ι)
  | .alloc core => if (s.points core).isSome then none else some (s.goTo core (some .allocSpin))
  | .free core frame =>
    if (s.points core).isSome ∨ frame ∉ s.held core then none
    else some ((s.give core frame).goTo core
      (if frame = 0 ∨ frame &&& kPmmAlign ≠ 0 then none else some (.testBase frame)))
  | .write core x value =>
    if ∃ frame ∈ s.held core, Within frame kPageSize x then
      some { s with pmm := { s.pmm with mem := Function.update s.pmm.mem x value } }
    else none
  | .next core => (s.points core).map (s.after core)

def Takes (step : CoreStep ι) (s s' : Cores ι) : Prop := s.run step = some s'

/-- The frames in a core's hands. -/
def frames (s : Cores ι) (core : ι) : List UIntPtr := ((s.points core).elim [] Point.carried) ++ s.held core

/-- No frame is with two cores, and a frame that was given back is on the list or with a core. -/
structure OwnedOnce (s : Cores ι) : Prop where
  exclusive : ∀ p q frame, frame ∈ s.frames p → frame ∈ s.frames q → p = q
  kept : ∀ frame ∈ s.freed, Listed s.pmm frame ∨ ∃ p, frame ∈ s.frames p

/-- A core that gets one lock finds the other one clear. -/
def LocksApart (step : CoreStep ι) (s : Cores ι) : Prop :=
  ∀ core point lock, step = .next core → s.points core = some point → point.spins = some lock →
    s.locked lock = false → ∀ other, s.locked other = false

end Cores

/-! ## The accesses of one section -/

/-- What a core has read since it got its flag still holds. -/
def Point.Read (σ : PmmState) : Point → Prop
  | .loadHead => σ.kPmmFreeHead ≠ 0
  | .loadLink frame => σ.kPmmFreeHead ≠ 0 ∧ frame = σ.kPmmFreeHead
  | .storeHead frame link =>
    σ.kPmmFreeHead ≠ 0 ∧ frame = σ.kPmmFreeHead ∧ link = load64 σ.mem σ.kPmmFreeHead
  | .testCursor => σ.kPmmFreeHead = 0
  | .compareCursor => σ.kPmmFreeHead = 0 ∧ σ.kPmmCursor ≠ 0
  | .compareEnd cursor => σ.kPmmFreeHead = 0 ∧ σ.kPmmCursor ≠ 0 ∧ cursor = σ.kPmmCursor
  | .takeCursor => σ.kPmmFreeHead = 0 ∧ σ.kPmmCursor ≠ 0 ∧ σ.kPmmCursor < σ.kPmmEnd
  | .loadCursor frame =>
    σ.kPmmFreeHead = 0 ∧ σ.kPmmCursor ≠ 0 ∧ σ.kPmmCursor < σ.kPmmEnd ∧ frame = σ.kPmmCursor
  | .storeCursor frame cursor =>
    σ.kPmmFreeHead = 0 ∧ σ.kPmmCursor ≠ 0 ∧ σ.kPmmCursor < σ.kPmmEnd ∧ frame = σ.kPmmCursor ∧ cursor = σ.kPmmCursor
  | .storeLink _ head => head = σ.kPmmFreeHead
  | .pushHead frame => load64 σ.mem frame = σ.kPmmFreeHead
  | _ => True

section Accesses
variable {σ : PmmState} {point new : Point} {held free : List UIntPtr} {frame : UIntPtr}

theorem found_read : (found frame).Read σ := by
  unfold found
  split <;> trivial

theorem Point.Read.next (reads : point.Read σ) (leads : point.next σ = some new) : new.Read (point.store σ) := by
  cases point with
  | testHead =>
      cases leads
      split
      · next listed => exact listed
      · next empty => exact not_not.mp empty
  | loadHead =>
      cases leads
      exact ⟨reads, rfl⟩
  | loadLink frame =>
      cases leads
      obtain ⟨listed, rfl⟩ := reads
      exact ⟨listed, rfl, rfl⟩
  | storeHead frame link =>
      cases leads
      exact found_read
  | testCursor =>
      cases leads
      split
      · next nonnull => exact ⟨reads, nonnull⟩
      · trivial
  | compareCursor =>
      cases leads
      exact ⟨reads.1, reads.2, rfl⟩
  | compareEnd cursor =>
      cases leads
      obtain ⟨empty, nonnull, rfl⟩ := reads
      split
      · next room => exact ⟨empty, nonnull, room⟩
      · trivial
  | takeCursor =>
      cases leads
      exact ⟨reads.1, reads.2.1, reads.2.2, rfl⟩
  | loadCursor frame =>
      cases leads
      exact ⟨reads.1, reads.2.1, reads.2.2.1, reads.2.2.2, rfl⟩
  | storeCursor frame cursor =>
      cases leads
      exact found_read
  | clearByte frame i =>
      cases leads
      split <;> trivial
  | testBase frame =>
      obtain ⟨-, same⟩ := Option.ite_none_left_eq_some.mp leads
      cases same
      trivial
  | testPassed frame =>
      obtain ⟨-, same⟩ := Option.ite_none_left_eq_some.mp leads
      cases same
      trivial
  | readHead frame =>
      cases leads
      rfl
  | storeLink frame head =>
      cases leads
      exact load64_store64_same.trans reads
  | allocSpin | allocClear | freeSpin | freeClear => cases leads
  | loadFree | storeFree | loadUsed | storeUsed | pushHead | freeLoadFree | freeStoreFree | freeLoadUsed
  | freeStoreUsed =>
      cases leads
      trivial

/-- Outside of both sections nothing is known of the statics, and nothing is stored. -/
theorem read_outside (outside : point.within = none) : point.Read σ := by
  cases point <;> trivial

theorem store_outside_section (outside : point.within = none) : point.store σ = σ := by
  cases point with
  | allocSpin | allocClear | testBase | testPassed | freeSpin => rfl
  | _ => cases outside

theorem next_within (leads : point.next σ = some new) : new.within = point.within := by
  cases point with
  | storeHead frame link | storeCursor frame link =>
      cases leads
      unfold found
      split <;> rfl
  | testBase frame | testPassed frame =>
      obtain ⟨-, same⟩ := Option.ite_none_left_eq_some.mp leads
      cases same
      rfl
  | testHead | testCursor | compareEnd cursor | clearByte frame i =>
      cases leads
      split <;> rfl
  | _ =>
      cases leads
      try rfl

end Accesses

/-! ## The pool behind the accesses -/

/-- The frames the cursor has passed are on the list or handed out, whatever the counters say. -/
def Pool (σ : PmmState) (held free : List UIntPtr) : Prop :=
  ∃ total left used, FrameInv total ⟨{ σ with kPmmFree := left, kPmmUsed := used }, held⟩ free

section Pool
variable {σ : PmmState} {point : Point} {held free : List UIntPtr} {frame f : UIntPtr} {mem : Memory}

theorem Pool.nodup (pool : Pool σ held free) : (free ++ held).Nodup := by
  obtain ⟨total, left, used, inv⟩ := pool
  exact inv.owned

theorem Pool.chain (pool : Pool σ held free) : Chain σ.mem σ.kPmmFreeHead free := by
  obtain ⟨total, left, used, inv⟩ := pool
  exact inv.chain

theorem Pool.isFrame (pool : Pool σ held free) (member : f ∈ held) : IsFrame σ f := by
  obtain ⟨total, left, used, inv⟩ := pool
  exact inv.isFrame_of_held member

theorem Pool.write (pool : Pool σ held free) (member : frame ∈ held)
    (same : SameOutside frame kPageSize σ.mem mem) : Pool { σ with mem := mem } held free := by
  obtain ⟨total, left, used, inv⟩ := pool
  refine ⟨total, left, used, inv.rewrite fun f listed x inside => same x fun inFrame => ?_⟩
  have distinct : f ≠ frame := fun equal => inv.not_held_of_free listed (equal ▸ member)
  exact frames_apart (inv.isFrame_of_free listed).2.1 (inv.isFrame_of_held member).2.1 distinct x
    (inside.mono (by decide)) inFrame

theorem Pool.pop (pool : Pool σ held free) (listed : σ.kPmmFreeHead ≠ 0) :
    ∃ rest, free = σ.kPmmFreeHead :: rest ∧
      Pool { σ with kPmmFreeHead := load64 σ.mem σ.kPmmFreeHead } (σ.kPmmFreeHead :: held) rest := by
  obtain ⟨total, left, used, inv⟩ := pool
  obtain ⟨rest, rfl, chain⟩ := inv.head listed
  have popped := inv.pop chain
  refine ⟨rest, rfl, total, left - 1, used + 1, ?_⟩
  refine popped.rewrite fun f member x inside => ?_
  have distinct : f ≠ σ.kPmmFreeHead := fun equal =>
    popped.not_held_of_free (equal ▸ member) (List.mem_cons_self ..)
  have aligned := (inv.isFrame_of_free (List.mem_cons_self ..)).2.1
  exact (rtSetMemory_outside fun inHead => frames_apart (popped.isFrame_of_free member).2.1 aligned distinct x
    (inside.mono (by decide)) inHead).symm

theorem Pool.head_free (pool : Pool σ held free) (listed : σ.kPmmFreeHead ≠ 0) :
    IsFrame σ σ.kPmmFreeHead ∧ σ.kPmmFreeHead ∉ held := by
  obtain ⟨rest, -, popped⟩ := pool.pop listed
  have fresh := (List.nodup_append.mp popped.nodup).2.1
  exact ⟨popped.isFrame (List.mem_cons_self ..), (List.nodup_cons.mp fresh).1⟩

theorem Pool.bump (pool : Pool σ held free) (empty : σ.kPmmFreeHead = 0) (nonnull : σ.kPmmCursor ≠ 0)
    (room : σ.kPmmCursor < σ.kPmmEnd) : free = [] ∧
      Pool { σ with kPmmCursor := σ.kPmmCursor + BitVec.ofNat 64 kPageSize } (σ.kPmmCursor :: held) [] := by
  obtain ⟨total, left, used, inv⟩ := pool
  obtain ⟨none, -, bumped⟩ := inv.bump empty nonnull room
  refine ⟨none, total, left - 1, used + 1, bumped.rewrite fun f member => ?_⟩
  cases member

theorem Pool.push (pool : Pool σ held free) (member : frame ∈ held) (linked : load64 σ.mem frame = σ.kPmmFreeHead) :
    Pool { σ with kPmmFreeHead := frame } (held.erase frame) (frame :: free) := by
  obtain ⟨total, left, used, inv⟩ := pool
  refine ⟨total, left + 1, used - 1, ?_⟩
  have pushed := inv.push member
  dsimp only at pushed
  rwa [← linked, store64_load64] at pushed

/-- What an access does to the frames of its core. -/
def Moves (point new : Point) (held held' : List UIntPtr) : Prop :=
  (held' = held ∧ new.carried = point.carried) ∨
  (∃ frame, frame ∉ held ∧ held' = frame :: held ∧ point.carried = [] ∧ new.carried = [frame]) ∨
  (∃ frame, held' = held.erase frame ∧ point.carried = [frame] ∧ new.carried = [])

theorem found_carried (nonnull : frame ≠ 0) : (found frame).carried = [frame] := by
  rw [found, if_neg nonnull]
  rfl

theorem clearByte_outside {i : Nat} (bound : i < kPageSize) :
    SameOutside frame kPageSize mem (Function.update mem (frame + BitVec.ofNat 64 i) 0) := by
  intro x outside
  apply Function.update_of_ne
  rintro rfl
  exact outside (within_add i (by unfold kPageSize at bound; omega) bound)

/-- An access takes the frame it carries off the pool, gives it back, or leaves the pool alone. -/
theorem Pool.access {new : Point} (pool : Pool σ held free) (reads : point.Read σ)
    (own : ∀ f ∈ point.carried, f ∈ held) (leads : point.next σ = some new) :
    ∃ held' free', Pool (point.store σ) held' free' ∧ Moves point new held held' ∧
      ∀ f, f ∈ free ∨ f ∈ held → f ∈ free' ∨ f ∈ held' := by
  cases point with
  | storeHead frame link =>
      cases leads
      obtain ⟨listed, rfl, rfl⟩ := reads
      obtain ⟨rest, rfl, popped⟩ := pool.pop listed
      have fresh := (List.nodup_append.mp popped.nodup).2.1
      refine ⟨_, rest, popped, .inr (.inl ⟨_, (List.nodup_cons.mp fresh).1, rfl, rfl, found_carried listed⟩), ?_⟩
      intro f member
      simp only [List.mem_cons] at member ⊢
      tauto
  | storeCursor frame cursor =>
      cases leads
      obtain ⟨empty, nonnull, room, rfl, rfl⟩ := reads
      obtain ⟨rfl, bumped⟩ := pool.bump empty nonnull room
      have fresh := (List.nodup_append.mp bumped.nodup).2.1
      refine ⟨_, [], bumped, .inr (.inl ⟨_, (List.nodup_cons.mp fresh).1, rfl, rfl, found_carried nonnull⟩), ?_⟩
      intro f member
      simp only [List.mem_cons] at member ⊢
      tauto
  | clearByte frame i =>
      cases leads
      have mine : frame ∈ held := own frame (List.mem_singleton.mpr rfl)
      by_cases more : i < kPageSize
      · refine ⟨held, free, ?_, .inl ⟨rfl, by rw [if_pos more]; rfl⟩, fun f member => member⟩
        simp only [Point.store, if_pos more]
        exact pool.write mine (clearByte_outside more)
      · refine ⟨held, free, ?_, .inl ⟨rfl, by rw [if_neg more]; rfl⟩, fun f member => member⟩
        simpa only [Point.store, if_neg more] using pool
  | storeUsed frame count =>
      cases leads
      have nonnull : frame ≠ 0 := (pool.isFrame (own frame (List.mem_singleton.mpr rfl))).1
      exact ⟨held, free, pool, .inl ⟨rfl, if_neg nonnull⟩, fun f member => member⟩
  | storeLink frame head =>
      cases leads
      have mine : frame ∈ held := own frame (List.mem_singleton.mpr rfl)
      refine ⟨held, free, pool.write mine fun x outside => ?_, .inl ⟨rfl, rfl⟩, fun f member => member⟩
      exact store64_outside fun inside => outside (inside.mono (by decide))
  | pushHead frame =>
      cases leads
      have mine : frame ∈ held := own frame (List.mem_singleton.mpr rfl)
      refine ⟨_, _, pool.push mine reads, .inr (.inr ⟨frame, rfl, rfl, rfl⟩), fun f member => ?_⟩
      by_cases same : f = frame
      · exact .inl (by simp [same])
      · rcases member with listed | out
        · exact .inl (List.mem_cons_of_mem _ listed)
        · exact .inr ((List.mem_erase_of_ne same).mpr out)
  | testBase frame | testPassed frame =>
      obtain ⟨-, same⟩ := Option.ite_none_left_eq_some.mp leads
      cases same
      exact ⟨held, free, pool, .inl ⟨rfl, rfl⟩, fun f member => member⟩
  | testHead | testCursor | compareEnd cursor =>
      cases leads
      exact ⟨held, free, pool, .inl ⟨rfl, by split <;> rfl⟩, fun f member => member⟩
  | _ =>
      cases leads
      try exact ⟨held, free, pool, .inl ⟨rfl, rfl⟩, fun f member => member⟩

theorem Pool.stops (pool : Pool σ held free) (own : ∀ f ∈ point.carried, f ∈ held)
    (plain : point.next σ = none) : point = .allocSpin ∨ (∃ frame, point = .freeSpin frame) ∨
      (∃ frame, point = .allocClear frame) ∨ point = .freeClear := by
  cases point with
  | testBase frame =>
      have low := (pool.isFrame (own frame (List.mem_singleton.mpr rfl))).2.2.1
      simp only [Point.next, ite_eq_left_iff, reduceCtorEq, imp_false, not_not] at plain
      exact absurd (BitVec.lt_def.mp plain) (Nat.not_lt.mpr low)
  | testPassed frame =>
      have passed := (pool.isFrame (own frame (List.mem_singleton.mpr rfl))).2.2.2
      simp only [Point.next, ite_eq_left_iff, reduceCtorEq, imp_false, not_not] at plain
      exact absurd (BitVec.le_def.mp plain) (Nat.not_le.mpr passed)
  | allocSpin => exact .inl rfl
  | freeSpin frame => exact .inr (.inl ⟨frame, rfl⟩)
  | allocClear frame => exact .inr (.inr (.inl ⟨frame, rfl⟩))
  | freeClear => exact .inr (.inr (.inr rfl))
  | _ => cases plain

/-- A write to a frame that is handed out is not seen by the calls under way. -/
theorem Point.Read.write (reads : point.Read σ) (pool : Pool σ held free) (member : frame ∈ held)
    (other : ∀ g ∈ point.carried, g ∈ held ∧ g ≠ frame) (same : SameOutside frame kPageSize σ.mem mem) :
    point.Read { σ with mem := mem } := by
  have apart {g : UIntPtr} (isFrame : IsFrame σ g) (distinct : g ≠ frame) : load64 mem g = load64 σ.mem g :=
    same.load64_eq ((frames_apart isFrame.2.1 (pool.isFrame member).2.1 distinct).mono (by decide) (by decide))
  cases point with
  | storeHead head link =>
      obtain ⟨listed, rfl, rfl⟩ := reads
      obtain ⟨isFrame, unlisted⟩ := pool.head_free listed
      have distinct : σ.kPmmFreeHead ≠ frame := fun equal => unlisted (equal ▸ member)
      exact ⟨listed, rfl, (apart isFrame distinct).symm⟩
  | pushHead g =>
      obtain ⟨out, distinct⟩ := other g (List.mem_singleton.mpr rfl)
      exact (apart (pool.isFrame out) distinct).trans reads
  | _ => exact reads

end Pool

end Ne.Kernel.HAL
