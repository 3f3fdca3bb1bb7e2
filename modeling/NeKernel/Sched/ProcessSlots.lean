import NeKernel.Sched.UserProcessScheduler

/-!
# Which slot a process is put in

The count of a team goes down with every exit, whichever slot became free. It names a free slot as
long as no live process is left in the last counted one.
-/

namespace Ne.Kernel.Sched
open Runs

/-- The checks of `Spawn` before it counts the process. -/
def Rejects (name : Option (List ByteMem.Byte)) (code : VoidPtr) (team : UserProcessTeam) : Prop :=
  name = none ∨ code = 0 ∨ name = some [] ∨ team.mProcessCur > kCPSProcessLimitPerTeam

instance (name : Option (List ByteMem.Byte)) (code : VoidPtr) (team : UserProcessTeam) :
    Decidable (Rejects name code team) :=
  inferInstanceAs (Decidable (_ ∨ _ ∨ _ ∨ _))

/-- The checks after that. -/
def Granted (name : List ByteMem.Byte) (heap : Grants) (process : UserProcess) : Prop :=
  name.length ≤ kCPSNameLen ∧ heap.stackFrame = true ∧ (process.FileTree = true ∨ heap.fileTree = true)

instance (name : List ByteMem.Byte) (heap : Grants) (process : UserProcess) : Decidable (Granted name heap process) :=
  inferInstanceAs (Decidable (_ ∧ _ ∧ (_ ∨ _)))

section Calls
variable {vm code image : VoidPtr} {name : Option (List ByteMem.Byte)} {imageSz : SizeT} {heap : Grants}
  {team team' : UserProcessTeam} {pid slot : ProcessID} {returns : Returns} {exitCode : Int}

theorem put_same {process : UserProcess} : (team.put pid process).mProcessList pid = process := if_pos rfl

theorem put_other {process : UserProcess} (other : slot ≠ pid) :
    (team.put pid process).mProcessList slot = team.mProcessList slot := if_neg other

theorem fault_negative : -kErrorProcessFault < 0 := by decide

theorem memory_negative : -kErrorHeapOutOfMemory < 0 := by decide

section Filled
variable {text : List ByteMem.Byte} {process filled : UserProcess} {result : ProcessID}

/-- Where the heap grants what is asked of it, the process is filled in to the end. -/
theorem fill_filled (granted : Granted text heap process) :
    fill vm pid text code image imageSz heap process = (pid, { process with
      Image := ⟨code, image, imageSz⟩
      Name := text ++ process.Name.drop text.length
      VMRegister := vm
      StackFrame := some ⟨code, ⟨pid, process.StackSize⟩⟩
      StackSize := kCPSMaxStackSz
      Parent := true
      ProcessId := pid
      Status := .kRunning
      PTime := 0
      Affinity := .kStandard
      RTime := 0
      UTime := 0
      STime := 0
      FileTree := true }) := by
  obtain ⟨short, frame, tree⟩ := granted
  cases has : process.FileTree with
  | true => simp [fill, Nat.not_lt.mpr short, frame, has]
  | false =>
      have grant : heap.fileTree = true := tree.resolve_left (by simp [has])
      simp [fill, Nat.not_lt.mpr short, frame, has, grant]

theorem fill_granted (granted : Granted text heap process)
    (taken : fill vm pid text code image imageSz heap process = (result, filled)) :
    result = pid ∧ filled.Status = .kRunning ∧ filled.ProcessId = pid := by
  rw [fill_filled granted] at taken
  obtain ⟨rfl, rfl⟩ := Prod.ext_iff.mp taken
  exact ⟨rfl, rfl, rfl⟩

theorem fill_refused (refused : ¬ Granted text heap process)
    (taken : fill vm pid text code image imageSz heap process = (result, filled)) : result < 0 := by
  obtain ⟨rfl, rfl⟩ := Prod.ext_iff.mp taken
  by_cases short : text.length ≤ kCPSNameLen
  · cases frame : heap.stackFrame with
    | false => simpa [fill, Nat.not_lt.mpr short, frame] using fault_negative
    | true =>
        have none : ¬ (process.FileTree = true ∨ heap.fileTree = true) := fun tree => refused ⟨short, frame, tree⟩
        obtain ⟨has, grant⟩ := not_or.mp none
        simpa [fill, Nat.not_lt.mpr short, frame, has, grant] using memory_negative
  · simpa [fill, Nat.not_le.mp short] using fault_negative

end Filled

/-- The slot `Spawn` counts is the only one it touches. -/
def Counts (team team' : UserProcessTeam) : Prop :=
  team'.mProcessCur = team.mProcessCur + 1 ∧
    ∀ slot, slot ≠ team.mProcessCur → team'.mProcessList slot = team.mProcessList slot

theorem Spawn_put (taken : Spawn vm name code image imageSz heap team = some (pid, team')) :
    (Rejects name code team ∧ pid < 0 ∧ team' = team) ∨
    (¬ Rejects name code team ∧ 0 ≤ team.mProcessCur ∧ ∃ text filled, name = some text ∧
      fill vm team.mProcessCur text code image imageSz heap (team.mProcessList team.mProcessCur) = (pid, filled) ∧
      team' = { team with mProcessCur := team.mProcessCur + 1 }.put team.mProcessCur filled) := by
  cases name with
  | none =>
      obtain ⟨rfl, rfl⟩ := Prod.ext_iff.mp (Option.some.inj taken)
      exact .inl ⟨.inl rfl, fault_negative, rfl⟩
  | some text =>
      unfold Spawn at taken
      dsimp only at taken
      by_cases null : code = 0
      · rw [if_pos null] at taken
        obtain ⟨rfl, rfl⟩ := Prod.ext_iff.mp (Option.some.inj taken)
        exact .inl ⟨.inr (.inl null), fault_negative, rfl⟩
      by_cases empty : text = []
      · rw [if_neg null, if_pos empty] at taken
        obtain ⟨rfl, rfl⟩ := Prod.ext_iff.mp (Option.some.inj taken)
        exact .inl ⟨.inr (.inr (.inl (by rw [empty]))), fault_negative, rfl⟩
      by_cases full : team.mProcessCur > kCPSProcessLimitPerTeam
      · rw [if_neg null, if_neg empty, if_pos full] at taken
        obtain ⟨rfl, rfl⟩ := Prod.ext_iff.mp (Option.some.inj taken)
        exact .inl ⟨.inr (.inr (.inr full)), fault_negative, rfl⟩
      by_cases negative : team.mProcessCur < 0
      · rw [if_neg null, if_neg empty, if_neg full, if_pos negative] at taken
        cases taken
      rw [if_neg null, if_neg empty, if_neg full, if_neg negative] at taken
      have accepted : ¬ Rejects (some text) code team := by
        rintro (none | zero | blank | high)
        · cases none
        · exact null zero
        · exact empty (Option.some.inj blank)
        · exact full high
      obtain ⟨rfl, rfl⟩ := Prod.ext_iff.mp (Option.some.inj taken)
      exact .inr ⟨accepted, not_lt.mp negative, text, _, rfl, rfl, rfl⟩

theorem Spawn_cases (taken : Spawn vm name code image imageSz heap team = some (pid, team')) :
    (Rejects name code team ∧ pid < 0 ∧ team' = team) ∨
    (¬ Rejects name code team ∧ 0 ≤ team.mProcessCur ∧ Counts team team' ∧ ∃ text, name = some text ∧
      (¬ Granted text heap (team.mProcessList team.mProcessCur) ∧ pid < 0 ∨
        Granted text heap (team.mProcessList team.mProcessCur) ∧ pid = team.mProcessCur ∧
          (team'.mProcessList pid).Status = .kRunning ∧ (team'.mProcessList pid).ProcessId = pid)) := by
  rcases Spawn_put taken with rejected | ⟨accepted, low, text, filled, rfl, put, rfl⟩
  · exact .inl rejected
  · refine .inr ⟨accepted, low, ⟨rfl, fun _ other => put_other other⟩, text, rfl, ?_⟩
    by_cases granted : Granted text heap (team.mProcessList team.mProcessCur)
    · obtain ⟨rfl, running, named⟩ := fill_granted granted put
      refine .inr ⟨granted, rfl, ?_, ?_⟩ <;> rw [put_same]
      · exact running
      · exact named
    · exact .inl ⟨granted, fill_refused granted put⟩

/-- Once every check has passed, `Exit` writes the one slot and counts it away. -/
theorem Exit_put (taken : Exit exitCode returns pid team = some team') :
    team' = { team.put pid { team.mProcessList pid with
      LastExitCode := exitCode
      HeapTree := false
      FileTree := false
      Image := { (team.mProcessList pid).Image with fCode := 0, fBlob := 0 }
      StackFrame := none
      DylibDelegate := if (team.mProcessList pid).Kind = .kExecutableDylibKind then false
        else (team.mProcessList pid).DylibDelegate
      ProcessId := 0
      Status := .kFinished } with mProcessCur := team.mProcessCur - 1 } := by
  unfold Exit at taken
  dsimp only at taken
  split at taken
  · cases taken
  split at taken
  · cases taken
  split at taken
  · cases taken
  · exact (Option.some.inj taken).symm

theorem Exit_cases (taken : Exit exitCode returns pid team = some team') :
    team'.mProcessCur = team.mProcessCur - 1 ∧
      ∀ slot, slot ≠ pid → team'.mProcessList slot = team.mProcessList slot := by
  obtain rfl := Exit_put taken
  exact ⟨rfl, fun slot other => put_other other⟩

end Calls

/-! ## Steps of a history -/

section Steps
variable {call : SchedCall} {h h' h'' : History}

theorem step_functional (call : SchedCall) (h h' h'' : History) (first : SchedStep call h h')
    (second : SchedStep call h h'') : h' = h'' := Option.some.inj (first.symm.trans second)

/-- A process went through `Exit`. -/
def Leaves (h h' : History) (pid : ProcessID) : Prop :=
  h'.team.mProcessCur = h.team.mProcessCur - 1 ∧
    (∀ slot, slot ≠ pid → h'.team.mProcessList slot = h.team.mProcessList slot) ∧ h'.live = h.live.erase pid

/-- `Spawn` took the call, and its result is counted among the live if it is an identifier. -/
def Spawns (call : SchedCall) (h h' : History) : Prop :=
  ∃ vm name code image imageSz heap pid, call = .spawn vm name code image imageSz heap ∧
    Spawn vm name code image imageSz heap h.team = some (pid, h'.team) ∧
    h'.live = if pid < 0 then h.live else pid :: h.live

theorem step_cases (taken : SchedStep call h h') :
    (call.leaves h.team = none ∧ ((∃ returns pid, call = .remove returns pid) ∧ h' = h ∨ Spawns call h h')) ∨
    ∃ pid, call.leaves h.team = some pid ∧ Leaves h h' pid := by
  cases call with
  | spawn vm name code image imageSz heap =>
      obtain ⟨⟨pid, team⟩, spawned, rfl⟩ := Option.map_eq_some_iff.mp taken
      exact .inl ⟨rfl, .inr ⟨vm, name, code, image, imageSz, heap, pid, rfl, spawned, rfl⟩⟩
  | remove returns processId =>
      obtain ⟨team, removed, rfl⟩ := Option.map_eq_some_iff.mp taken
      unfold SchedCall.left
      unfold Remove at removed
      unfold SchedCall.leaves
      by_cases outside : processId < 0 ∨ processId > kCPSProcessLimitPerTeam
      · rw [if_pos outside] at removed
        obtain rfl := Option.some.inj removed
        simp [outside]
      by_cases unused : (h.team.mProcessList processId).Status = .kInvalid
      · rw [if_neg outside, if_pos unused] at removed
        obtain rfl := Option.some.inj removed
        simp [outside, unused]
      · rw [if_neg outside, if_neg unused] at removed
        obtain ⟨count, others⟩ := Exit_cases removed
        refine .inr ⟨processId, ?_, count, others, ?_⟩ <;> simp [outside, unused]
  | exit exitCode returns pid =>
      obtain ⟨team, exited, rfl⟩ := Option.map_eq_some_iff.mp taken
      obtain ⟨count, others⟩ := Exit_cases exited
      exact .inr ⟨pid.val, rfl, count, others, rfl⟩

end Steps

/-! ## Ownership of slots -/

/-- A `Spawn` from here returns no live identifier and leaves the live processes as they are. -/
def SpawnsApart (h : History) : Prop :=
  ∀ vm name code image imageSz heap pid team', Spawn vm name code image imageSz heap h.team = some (pid, team') →
    pid ∉ h.live ∧ ∀ slot ∈ h.live, team'.mProcessList slot = h.team.mProcessList slot

/-- Live processes run in slots of their own. -/
def Owned (h : History) : Prop :=
  h.live.Nodup ∧ (∀ slot ∈ h.live, (h.team.mProcessList slot).Status = .kRunning ∧
    (h.team.mProcessList slot).ProcessId = slot) ∧ SpawnsApart h

/-- No live process stays in the last slot counted when a process leaves. -/
def LastLeaves (call : SchedCall) (h : History) : Prop :=
  ∀ pid, call.leaves h.team = some pid → h.team.mProcessCur - 1 ∉ h.live.erase pid

/-- The live processes lie below the count. -/
structure Stacked (h : History) : Prop where
  nodup : h.live.Nodup
  running : ∀ slot ∈ h.live, (h.team.mProcessList slot).Status = .kRunning ∧
    (h.team.mProcessList slot).ProcessId = slot
  inTeam : ∀ slot ∈ h.live, 0 ≤ slot ∧ slot ≤ kCPSProcessLimitPerTeam
  below : ∀ slot ∈ h.live, slot < h.team.mProcessCur

section Ownership
variable {call : SchedCall} {h h' : History}

theorem start_stacked : Stacked start := by
  constructor
  · exact List.nodup_nil
  all_goals
    intro slot member
    cases member

theorem spawnsApart_of_free (free : h.team.mProcessCur ∉ h.live) (inTeam : ∀ slot ∈ h.live, 0 ≤ slot) :
    SpawnsApart h := by
  intro vm name code image imageSz heap pid team' spawned
  have failed (negative : pid < 0) : pid ∉ h.live := fun member => absurd (inTeam pid member) (not_le.mpr negative)
  rcases Spawn_cases spawned with ⟨-, negative, rfl⟩ | ⟨-, -, counts, text, -, result⟩
  · exact ⟨failed negative, fun _ _ => rfl⟩
  · refine ⟨?_, fun slot member => counts.2 slot fun same => free (same ▸ member)⟩
    rcases result with ⟨-, negative⟩ | ⟨-, rfl, -⟩
    · exact failed negative
    · exact free

/-- Any live process in the slot named by the count is overwritten by the next `Spawn`. -/
theorem not_spawnsApart (taken : h.team.mProcessCur ∈ h.live)
    (inTeam : ∀ slot ∈ h.live, 0 ≤ slot ∧ slot ≤ kCPSProcessLimitPerTeam) : ¬ SpawnsApart h := by
  intro apart
  obtain ⟨low, high⟩ := inTeam _ taken
  cases spawned : Spawn 0 (some [65]) 1 0 0 ⟨true, true⟩ h.team with
  | none => simp [Spawn, not_lt.mpr low, not_lt.mpr high] at spawned
  | some result =>
      obtain ⟨pid, team'⟩ := result
      have fresh := (apart _ _ _ _ _ _ _ _ spawned).1
      rcases Spawn_cases spawned with ⟨rejected, -, -⟩ | ⟨-, -, -, text, named, result⟩
      · rcases rejected with none | zero | blank | past
        · cases none
        · cases zero
        · cases blank
        · exact absurd high (not_le.mpr past)
      · obtain rfl := Option.some.inj named
        rcases result with ⟨refused, -⟩ | ⟨-, rfl, -⟩
        · exact refused ⟨by decide, rfl, .inr rfl⟩
        · exact fresh taken

theorem Stacked.owned (stacked : Stacked h) : Owned h :=
  ⟨stacked.nodup, stacked.running, spawnsApart_of_free
    (fun member => lt_irrefl _ (stacked.below _ member)) fun slot member => (stacked.inTeam slot member).1⟩

theorem Stacked.leave {pid : ProcessID} (stacked : Stacked h) (leaves : Leaves h h' pid)
    (last : h.team.mProcessCur - 1 ∉ h.live.erase pid) : Stacked h' := by
  obtain ⟨count, others, live⟩ := leaves
  have old {slot : ProcessID} (member : slot ∈ h'.live) : slot ∈ h.live ∧ slot ≠ pid := by
    rw [live] at member
    exact ⟨List.mem_of_mem_erase member, fun same => stacked.nodup.not_mem_erase (same ▸ member)⟩
  constructor
  · rw [live]
    exact stacked.nodup.erase pid
  · intro slot member
    rw [others slot (old member).2]
    exact stacked.running slot (old member).1
  · exact fun slot member => stacked.inTeam slot (old member).1
  · intro slot member
    have before := stacked.below slot (old member).1
    have apart : slot ≠ h.team.mProcessCur - 1 := by
      rintro rfl
      rw [live] at member
      exact last member
    rw [count]
    exact lt_of_le_of_ne (Int.le_sub_one_of_lt before) apart

theorem Stacked.spawn (stacked : Stacked h) (spawns : Spawns call h h') : Stacked h' := by
  obtain ⟨vm, name, code, image, imageSz, heap, pid, -, spawned, live⟩ := spawns
  rcases Spawn_cases spawned with ⟨-, negative, same⟩ | ⟨accepted, low, counts, text, -, result⟩
  · rw [if_pos negative] at live
    obtain ⟨nodup, running, inTeam, below⟩ := stacked
    constructor <;> rw [live]
    · exact nodup
    · rwa [same]
    · exact inTeam
    · rwa [same]
  · have kept {slot : ProcessID} (member : slot ∈ h.live) :
        h'.team.mProcessList slot = h.team.mProcessList slot :=
      counts.2 slot (stacked.below slot member).ne
    have up {slot : ProcessID} (member : slot ∈ h.live) : slot < h'.team.mProcessCur := by
      rw [counts.1]
      exact Int.lt_add_one_of_le (stacked.below slot member).le
    rcases result with ⟨-, negative⟩ | ⟨-, rfl, running, named⟩
    · rw [if_pos negative] at live
      constructor <;> rw [live]
      · exact stacked.nodup
      · intro slot member
        rw [kept member]
        exact stacked.running slot member
      · exact stacked.inTeam
      · exact fun slot => up
    · rw [if_neg (not_lt.mpr low)] at live
      have fresh : h.team.mProcessCur ∉ h.live := fun member => lt_irrefl _ (stacked.below _ member)
      constructor <;> rw [live]
      · exact List.nodup_cons.mpr ⟨fresh, stacked.nodup⟩
      · intro slot member
        rcases List.mem_cons.mp member with rfl | old
        · exact ⟨running, named⟩
        · rw [kept old]
          exact stacked.running slot old
      · intro slot member
        rcases List.mem_cons.mp member with rfl | old
        · exact ⟨low, not_lt.mp fun past => accepted (.inr (.inr (.inr past)))⟩
        · exact stacked.inTeam slot old
      · intro slot member
        rcases List.mem_cons.mp member with rfl | old
        · rw [counts.1]
          exact Int.lt_add_one_of_le le_rfl
        · exact up old

theorem owned_iff_lastLeaves (stacked : Stacked h) (taken : SchedStep call h h') :
    (Owned h' ↔ LastLeaves call h) ∧ (Owned h' → Stacked h') := by
  rcases step_cases taken with ⟨stays, ⟨-, rfl⟩ | spawns⟩ | ⟨pid, goes, leaves⟩
  · have guard : LastLeaves call h' := fun pid goes => by
      rw [stays] at goes
      cases goes
    exact ⟨⟨fun _ => guard, fun _ => stacked.owned⟩, fun _ => stacked⟩
  · have guard : LastLeaves call h := fun pid goes => by
      rw [stays] at goes
      cases goes
    have next := stacked.spawn spawns
    exact ⟨⟨fun _ => guard, fun _ => next.owned⟩, fun _ => next⟩
  · have last (owned : Owned h') : h.team.mProcessCur - 1 ∉ h.live.erase pid := by
      intro member
      refine not_spawnsApart ?_ ?_ owned.2.2
      · rw [leaves.1, leaves.2.2]
        exact member
      · intro slot old
        rw [leaves.2.2] at old
        exact stacked.inTeam slot (List.mem_of_mem_erase old)
    refine ⟨⟨fun owned pid' goes' => ?_, fun guard => (stacked.leave leaves (guard pid goes)).owned⟩,
      fun owned => stacked.leave leaves (last owned)⟩
    obtain rfl := Option.some.inj (goes.symm.trans goes')
    exact last owned

end Ownership

end Ne.Kernel.Sched
