import NeKernel.Hal.FrameOwnership

/-!
# Runs of the frame allocator

`pmmi_free_frame` compares its argument with the page size, the base and the cursor. These checks
stop every bad address but one that is on the free list already.
-/

namespace Ne.Kernel.HAL
open ByteMem Runs

def Listed (σ : PmmState) (frame : UIntPtr) : Prop :=
  ∃ nodes, Chain σ.mem σ.kPmmFreeHead nodes ∧ frame ∈ nodes

def FreesUnlisted : FrameCall → FrameRun → Prop
  | .free frame, r => ¬ Listed r.state frame
  | _, _ => True

def FreesHeld : FrameCall → FrameRun → Prop
  | .free frame, r => frame ∈ r.held
  | _, _ => True

def frameCount (base : UIntPtr) (sz : SizeT) : Nat :=
  (base.toNat + sz.toNat) / kPageSize - (base.toNat + (kPageSize - 1)) / kPageSize

section Boot
variable {base : UIntPtr} {sz : SizeT}

theorem pmmiInit_cases (mem : Memory) (base : UIntPtr) (sz : SizeT) :
    pmmiInit base sz (pmmBoot mem) = pmmBoot mem ∨
    ∃ start stop : UIntPtr, start < stop ∧
      start.toNat = (base + kPmmAlign).toNat - (base + kPmmAlign).toNat % kPageSize ∧
      stop.toNat = (base + sz).toNat - (base + sz).toNat % kPageSize ∧
      pmmiInit base sz (pmmBoot mem) =
        ⟨mem, start, start, stop, 0, (stop - start) / BitVec.ofNat 64 kPageSize, 0⟩ := by
  unfold pmmiInit
  by_cases empty : (base + sz) &&& ~~~kPmmAlign ≤ (base + kPmmAlign) &&& ~~~kPmmAlign
  · exact .inl (if_pos empty)
  · exact .inr ⟨_, _, BitVec.not_le.mp empty, and_not_kPmmAlign _, and_not_kPmmAlign _, if_neg empty⟩

theorem frameInv_boot (mem : Memory) (base : UIntPtr) (sz : SizeT) :
    FrameInv (bootFrames mem base sz).state.kPmmFree.toNat (bootFrames mem base sz) [] := by
  unfold bootFrames
  rcases pmmiInit_cases mem base sz with booted | ⟨start, stop, room, hstart, hstop, booted⟩
  · rw [booted]
    constructor
    case chain => exact .nil
    all_goals simp [pmmBoot, IsFrame]
  · have alignedStart : start.toNat % kPageSize = 0 := by
      unfold kPageSize at *
      omega
    have alignedStop : stop.toNat % kPageSize = 0 := by
      unfold kPageSize at *
      omega
    have span : (stop - start).toNat = stop.toNat - start.toNat := by bv_omega
    rw [booted]
    exact {
      chain := .nil
      owned := by simp
      frames := fun f => by
        simp only [List.append_nil, List.not_mem_nil, false_iff]
        rintro ⟨-, -, low, high⟩
        exact absurd high (Nat.not_lt.mpr low)
      baseAligned := alignedStart
      cursorAligned := alignedStart
      endAligned := alignedStop
      started := le_rfl
      bounded := Nat.le_of_lt (BitVec.lt_def.mp room)
      left := by
        dsimp only
        rw [BitVec.toNat_udiv, span]
        simp [kPageSize]
      used := rfl
      balance := rfl
      small := BitVec.isLt _ }

theorem boot_frameCount (mem : Memory) (ends : base.toNat + sz.toNat < 2 ^ 64)
    (rounds : base.toNat + (kPageSize - 1) < 2 ^ 64) :
    (bootFrames mem base sz).state.kPmmFree.toNat = frameCount base sz := by
  have hsum : (base + sz).toNat = base.toNat + sz.toNat := by bv_omega
  have hround : (base + kPmmAlign).toNat = base.toNat + (kPageSize - 1) := by
    unfold kPmmAlign kPageSize at *
    bv_omega
  unfold bootFrames frameCount pmmiInit
  dsimp only
  have hstart := and_not_kPmmAlign (base + kPmmAlign)
  have hstop := and_not_kPmmAlign (base + sz)
  rw [hround] at hstart
  rw [hsum] at hstop
  split
  · rename_i empty
    unfold kPageSize at *
    change 0 = _
    rw [BitVec.le_def] at empty
    omega
  · rename_i room
    dsimp only
    have size : (BitVec.ofNat 64 kPageSize).toNat = kPageSize := by decide
    rw [BitVec.toNat_udiv, size]
    have span : ((base + sz &&& ~~~kPmmAlign) - (base + kPmmAlign &&& ~~~kPmmAlign)).toNat =
        (base + sz &&& ~~~kPmmAlign).toNat - (base + kPmmAlign &&& ~~~kPmmAlign).toNat := by bv_omega
    rw [span, hstart, hstop]
    unfold kPageSize at *
    omega

/-- The frames the allocator can hand out lie inside the region it was given. -/
theorem boot_region (mem : Memory) (ends : base.toNat + sz.toNat < 2 ^ 64)
    (rounds : base.toNat + (kPageSize - 1) < 2 ^ 64) :
    (bootFrames mem base sz).state.kPmmEnd = 0 ∨
    (base.toNat ≤ (bootFrames mem base sz).state.kPmmBase.toNat ∧
      (bootFrames mem base sz).state.kPmmEnd.toNat ≤ base.toNat + sz.toNat) := by
  have hsum : (base + sz).toNat = base.toNat + sz.toNat := by bv_omega
  have hround : (base + kPmmAlign).toNat = base.toNat + (kPageSize - 1) := by
    unfold kPmmAlign kPageSize at *
    bv_omega
  unfold bootFrames
  rcases pmmiInit_cases mem base sz with booted | ⟨start, stop, room, hstart, hstop, booted⟩
  · rw [booted]
    exact .inl rfl
  · rw [booted]
    refine .inr ⟨?_, ?_⟩ <;> dsimp only <;> unfold kPageSize at * <;> omega

end Boot

section Runs
variable {total : Nat} {r r' : FrameRun} {call : FrameCall} {lo hi : UIntPtr}

theorem region_step (call : FrameCall) (r r' : FrameRun)
    (region : r.state.kPmmBase = lo ∧ r.state.kPmmEnd = hi) (step : FrameStep call r r') :
    r'.state.kPmmBase = lo ∧ r'.state.kPmmEnd = hi := by
  cases call with
  | alloc =>
      rw [step]
      rcases pmmiAllocFrame_cases r.state with ⟨-, taken⟩ | ⟨-, -, -, taken⟩ | ⟨-, taken⟩ <;>
        rw [taken] <;> exact region
  | free frame =>
      rw [step]
      rcases pmmiFreeFrame_cases frame r.state with ⟨-, freed⟩ | ⟨-, freed⟩ <;>
        rw [freed] <;> exact region
  | write mem =>
      rw [step.2]
      exact region

theorem frameInv_step (call : FrameCall) (r r' : FrameRun) (inv : ∃ free, FrameInv total r free)
    (step : Guarded FreesUnlisted FrameStep call r r') : ∃ free, FrameInv total r' free := by
  obtain ⟨guard, step⟩ := step
  obtain ⟨free, inv⟩ := inv
  cases call with
  | alloc =>
      unfold FrameStep at step
      rcases inv.alloc with taken | ⟨f, τ, free', taken, nonnull, -, -, -, next⟩
      · rw [step, taken, if_pos rfl]
        exact ⟨free, inv⟩
      · rw [step, taken, if_neg nonnull]
        exact ⟨free', next⟩
  | free frame =>
      unfold FrameStep at step
      rcases pmmiFreeFrame_cases frame r.state with ⟨bad, freed⟩ | ⟨good, freed⟩
      · have notHeld : frame ∉ r.held := fun held => bad (inv.isFrame_of_held held)
        rw [step, freed, List.erase_of_not_mem notHeld]
        exact ⟨free, inv⟩
      · have held : frame ∈ r.held :=
          (List.mem_append.mp ((inv.frames frame).mpr good)).resolve_left fun listed =>
            guard ⟨free, inv.chain, listed⟩
        rw [step, freed]
        exact ⟨frame :: free, inv.push held⟩
  | write mem =>
      rw [step.2]
      exact ⟨free, inv.write step.1⟩

theorem freesHeld_step (call : FrameCall) (r r' : FrameRun) (inv : ∃ free, FrameInv total r free)
    (step : Guarded FreesHeld FrameStep call r r') : ∃ free, FrameInv total r' free := by
  refine frameInv_step call r r' inv ⟨?_, step.2⟩
  obtain ⟨free, inv⟩ := inv
  cases call with
  | free frame =>
      rintro ⟨nodes, chain, listed⟩
      rw [chain.unique inv.chain] at listed
      exact inv.not_held_of_free listed step.1
  | alloc => trivial
  | write mem => trivial

theorem alloc_fresh {free : List UIntPtr} {f : UIntPtr} {σ' : PmmState} (inv : FrameInv total r free)
    (taken : pmmiAllocFrame r.state = (f, σ')) (nonnull : f ≠ 0) :
    f ∉ r.held ∧ f.toNat % kPageSize = 0 ∧ σ'.kPmmBase.toNat ≤ f.toNat ∧
      f.toNat < σ'.kPmmEnd.toNat ∧ ∀ x, Within f kPageSize x → σ'.mem x = 0 := by
  obtain ⟨fresh, -, zero, free', next⟩ := FrameInv.alloc_taken inv taken nonnull
  obtain ⟨-, aligned, low, high⟩ := next.isFrame_of_held (List.mem_cons_self ..)
  exact ⟨fresh, aligned, low, Nat.lt_of_lt_of_le high next.bounded, zero⟩

theorem free_listed_changes {free : List UIntPtr} {frame : UIntPtr} (inv : FrameInv total r free)
    (listed : frame ∈ free) : pmmiFreeFrame frame r.state ≠ r.state := by
  rcases pmmiFreeFrame_cases frame r.state with ⟨bad, -⟩ | ⟨-, freed⟩
  · exact absurd (inv.isFrame_of_free listed) bad
  · rw [freed]
    intro same
    have counter := congrArg PmmState.kPmmFree same
    dsimp only at counter
    bv_omega

end Runs

section Regions
variable (mem : Memory) (base : UIntPtr) (sz : SizeT) (calls : List FrameCall) (r : FrameRun)

theorem frames_exclusive (ends : base.toNat + sz.toNat < 2 ^ 64)
    (rounds : base.toNat + (kPageSize - 1) < 2 ^ 64)
    (run : Run (Guarded FreesHeld FrameStep) (bootFrames mem base sz) calls r) :
    (∀ f σ', pmmiAllocFrame r.state = (f, σ') → f ≠ 0 →
      f.toNat % kPageSize = 0 ∧ base.toNat ≤ f.toNat ∧ f.toNat + kPageSize ≤ base.toNat + sz.toNat ∧
      (∀ x, Within f kPageSize x → σ'.mem x = 0) ∧ f ∉ r.held) ∧
    r.state.kPmmFree.toNat + r.state.kPmmUsed.toNat = frameCount base sz ∧
    ∃ free, Chain r.state.mem r.state.kPmmFreeHead free ∧ r.state.kPmmFree.toNat =
      free.length + (r.state.kPmmEnd.toNat - r.state.kPmmCursor.toNat) / kPageSize := by
  obtain ⟨free, inv⟩ := run.invariant freesHeld_step ⟨[], frameInv_boot mem base sz⟩
  obtain ⟨sameBase, sameEnd⟩ := run.unguarded.invariant region_step ⟨rfl, rfl⟩
  refine ⟨fun f σ' taken nonnull => ?_, ?_, free, inv.chain, inv.left⟩
  · obtain ⟨fresh, aligned, low, high, zero⟩ := alloc_fresh inv taken nonnull
    have endAligned := inv.endAligned
    have step : FrameStep .alloc r ⟨σ', if f = 0 then r.held else f :: r.held⟩ := by
      simp only [FrameStep, taken]
    obtain ⟨nextBase, nextEnd⟩ := region_step .alloc r _ ⟨sameBase, sameEnd⟩ step
    dsimp only at nextBase nextEnd
    rw [nextBase] at low
    rw [nextEnd] at high
    rw [sameEnd] at endAligned
    rcases boot_region mem ends rounds with empty | ⟨start, stop⟩
    · rw [empty] at high
      exact absurd high (Nat.not_lt_zero _)
    · refine ⟨aligned, start.trans low, ?_, zero, fresh⟩
      unfold kPageSize at *
      omega
  · rw [inv.balance, boot_frameCount mem ends rounds]

theorem free_frame_iff_unlisted
    (run : Run (Guarded FreesUnlisted FrameStep) (bootFrames mem base sz) calls r) :
    (∀ frame, frame ∉ r.held →
      (pmmiFreeFrame frame r.state = r.state ↔ ¬ Listed r.state frame)) ∧
    ∀ f σ', pmmiAllocFrame r.state = (f, σ') → f ≠ 0 → f ∉ r.held := by
  obtain ⟨free, inv⟩ := run.invariant frameInv_step ⟨[], frameInv_boot mem base sz⟩
  refine ⟨fun frame notHeld => ⟨?_, fun unlisted => ?_⟩, fun f σ' taken nonnull =>
    (alloc_fresh inv taken nonnull).1⟩
  · rintro same ⟨nodes, chain, listed⟩
    rw [chain.unique inv.chain] at listed
    exact free_listed_changes inv listed same
  · rcases pmmiFreeFrame_cases frame r.state with ⟨-, same⟩ | ⟨good, -⟩
    · exact same
    · rcases List.mem_append.mp ((inv.frames frame).mpr good) with listed | held
      · exact absurd ⟨free, inv.chain, listed⟩ unlisted
      · exact absurd held notHeld

end Regions

section TwoFrames
variable (mem : Memory)

def twoFramesOneHeld : FrameRun :=
  ⟨⟨rtSetMemory 0x1000 0 kPageSize mem, 0x1000, 0x2000, 0x3000, 0, 1, 1⟩, [0x1000]⟩

theorem twoFrames_boot : bootFrames mem 0x1000 0x2000 = ⟨⟨mem, 0x1000, 0x1000, 0x3000, 0, 2, 0⟩, []⟩ := by
  unfold bootFrames pmmiInit
  rw [if_neg (by decide)]
  rfl

theorem twoFrames_alloc (guard : FrameCall → FrameRun → Prop)
    (allowed : guard .alloc (bootFrames mem 0x1000 0x2000)) :
    Run (Guarded guard FrameStep) (bootFrames mem 0x1000 0x2000) [.alloc] (twoFramesOneHeld mem) := by
  refine .single ⟨allowed, ?_⟩
  rw [twoFrames_boot]
  simp [FrameStep, pmmiAllocFrame, pmmiTake, twoFramesOneHeld, kPageSize]

end TwoFrames

theorem frames_exclusive_twoFrames : (2 : Nat) = frameCount 0x1000 0x2000 :=
  (frames_exclusive (fun _ => 0) 0x1000 0x2000 [.alloc] _ (by decide) (by decide)
    (twoFrames_alloc (fun _ => 0) _ trivial)).2.1

theorem free_frame_iff_unlisted_twoFrames :
    pmmiFreeFrame 0x2000 (twoFramesOneHeld fun _ => 0).state = (twoFramesOneHeld fun _ => 0).state ↔
      ¬ Listed (twoFramesOneHeld fun _ => 0).state 0x2000 :=
  (free_frame_iff_unlisted (fun _ => 0) 0x1000 0x2000 [.alloc] _
    (twoFrames_alloc (fun _ => 0) _ trivial)).1 0x2000 (by simp [twoFramesOneHeld])

/-- The second of two frees of one frame is taken. -/
theorem double_free_not_rejected : ¬ ∀ mem base sz calls r,
    Run FrameStep (bootFrames mem base sz) calls r →
    ∀ frame, frame ∉ r.held → pmmiFreeFrame frame r.state = r.state := by
  intro claim
  have taken := (twoFrames_alloc (fun _ => 0) (fun _ _ => True) trivial).unguarded
  obtain ⟨r, freed, state, held⟩ : ∃ r, FrameStep (.free 0x1000) (twoFramesOneHeld fun _ => 0) r ∧
      pmmiFreeFrame 0x1000 r.state ≠ r.state ∧ r.held = [] := by
    refine ⟨_, rfl, ?_, by simp [twoFramesOneHeld]⟩
    intro same
    have counter := congrArg PmmState.kPmmFree same
    simp [pmmiFreeFrame, twoFramesOneHeld, kPmmAlign, kPageSize] at counter
  exact state (claim (fun _ => 0) 0x1000 0x2000 _ _ (taken.append (.single freed)) 0x1000
    (by simp [held]))

end Ne.Kernel.HAL
