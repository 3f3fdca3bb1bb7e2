import NeKernel.Lib.Separators
import NeKernel.Sched.RoundRobin

/-!
# What a spawn leaves behind

`Spawn` counts the process and writes to its slot before the checks that can still fail, and takes over
what the slot holds of its previous process: the rest of a longer name, and the size of its stack.
-/

namespace Ne.Kernel.Sched
open ByteMem Runs Separators

/-- What `rtl_create_user_process` sets in the slot of a process it has spawned. -/
def rtlCreateUserProcess (kind : ExecutableKind) (stackSize : SizeT) (process : UserProcess) : UserProcess :=
  { process with
    Kind := kind
    StackSize := if stackSize > kCPSMaxStackSz then kCPSMaxStackSz else stackSize }

inductive TeamEvent where
  | sched (event : SchedEvent)
  | load (kind : ExecutableKind) (stackSize : SizeT) (slot : Fin (kCPSProcessLimitPerTeam + 1))

def TeamEvent.step (event : TeamEvent) (s : Scheduler) : Option Scheduler :=
  match event with
  | .sched event => event.step s
  | .load kind stackSize slot => some (s.store slot (rtlCreateUserProcess kind stackSize (s.slot slot)))

def TeamStep (event : TeamEvent) (s s' : Scheduler) : Prop := event.step s = some s'

/-! ## Failures -/

/-- If the event is a call of `Spawn` that returns an error, the team is as before. -/
def FailsClean (event : TeamEvent) (s : Scheduler) : Prop :=
  ∀ vm name code image imageSz heap, event = .sched (.spawn vm name code image imageSz heap) →
    ∀ pid team', Spawn vm name code image imageSz heap s.team = some (pid, team') → pid < 0 → team' = s.team

/-- A `Spawn` that gets past the checks before the count gets past those behind it. -/
def FailsEarly (event : TeamEvent) (s : Scheduler) : Prop :=
  ∀ vm text code image imageSz heap, event = .sched (.spawn vm (some text) code image imageSz heap) →
    ¬ Rejects (some text) code s.team → 0 ≤ s.team.mProcessCur →
      Granted text heap (s.team.mProcessList s.team.mProcessCur)

section Failures
variable {vm code image : VoidPtr} {name : Option (List Byte)} {text : List Byte} {imageSz : SizeT} {heap : Grants}
  {team team' : UserProcessTeam} {pid : ProcessID} {event : TeamEvent} {s : Scheduler}

theorem Spawn_counted (accepted : ¬ Rejects (some text) code team) (low : 0 ≤ team.mProcessCur) :
    ∃ pid team', Spawn vm (some text) code image imageSz heap team = some (pid, team') := by
  obtain ⟨-, nonnull, nonempty, few⟩ : _ ∧ _ ∧ _ ∧ _ := by simpa only [Rejects, not_or] using accepted
  have named : text ≠ [] := fun empty => nonempty (by rw [empty])
  unfold Spawn
  dsimp only
  rw [if_neg nonnull, if_neg named, if_neg few, if_neg (not_lt.mpr low)]
  exact ⟨_, _, rfl⟩

theorem failsClean_iff : FailsClean event s ↔ FailsEarly event s := by
  constructor
  · rintro clean vm text code image imageSz heap rfl accepted low
    obtain ⟨pid, team', spawned⟩ : ∃ pid team', Spawn vm (some text) code image imageSz heap s.team =
        some (pid, team') := Spawn_counted accepted low
    rcases Spawn_cases spawned with ⟨rejected, -, -⟩ | ⟨-, -, counts, text, ⟨⟩, result⟩
    · exact absurd rejected accepted
    · rcases result with ⟨-, negative⟩ | ⟨granted, -, -⟩
      · have same := clean vm _ code image imageSz heap rfl pid team' spawned negative
        have more := counts.1
        rw [same] at more
        exact absurd more (lt_add_one _).ne
      · exact granted
  · rintro early vm name code image imageSz heap rfl pid team' spawned negative
    rcases Spawn_cases spawned with ⟨-, -, same⟩ | ⟨accepted, low, -, text, rfl, result⟩
    · exact same
    · rcases result with ⟨refused, -⟩ | ⟨-, rfl, -⟩
      · exact absurd (early vm text code image imageSz heap rfl accepted low) refused
      · exact absurd low (not_le.mpr negative)

end Failures

/-- A `Spawn` that returns an error leaves the team as it was, exactly as long as none fails behind the count. -/
theorem failed_spawns_clean_iff (s : Scheduler) (events : List TeamEvent) :
    AllSteps TeamStep FailsClean s events ↔ AllSteps TeamStep FailsEarly s events :=
  @allSteps_iff _ _ _ _ _ _ _ (fun _ => True) trivial (fun _ _ _ => failsClean_iff) fun _ _ _ _ _ _ => trivial

/-- A name of 129 characters is refused, and counted. -/
theorem long_name_counted : ¬ ∀ behind events, AllSteps TeamStep FailsClean (.start behind) events := by
  intro every
  let long := List.replicate 129 (97 : Byte)
  have clean := every zeroProcess [.sched (.spawn 0 (some long) 1 0 0 ⟨true, true⟩)] [] _ [] rfl _ (.nil _)
  have granted := failsClean_iff.mp clean 0 long 1 0 0 ⟨true, true⟩ rfl (by decide) (by decide)
  have short : long.length ≤ kCPSNameLen := granted.1
  rw [List.length_replicate] at short
  exact absurd short (by decide)

/-! ## Successes -/

def StackAddress.address (reserve : ProcessID → UIntPtr) (sp : StackAddress) : UIntPtr := reserve sp.slot + sp.offset

/-- An array of characters read as a string; `none` if it ends without a zero. -/
def cString (chars : List Byte) : Option (List Byte) :=
  if 0 ∈ chars then some (chars.takeWhile (· ≠ 0)) else none

/-- The slot is that of a process `text` starting at `code`, wherever the reserves of the slots lie. -/
structure WellFormed (text : List Byte) (code : VoidPtr) (pid : ProcessID) (process : UserProcess) : Prop where
  named : cString process.Name = some text
  framed : ∃ frame, process.StackFrame = some frame ∧ frame.IP = code ∧
    ∀ reserve, frame.SP.address reserve = reserve pid + process.StackSize

/-- If the event is a call of `Spawn` that succeeds, the process it leaves is well formed. -/
def SpawnsWell (event : TeamEvent) (s : Scheduler) : Prop :=
  ∀ vm text code image imageSz heap, event = .sched (.spawn vm (some text) code image imageSz heap) → 0 ∉ text →
    ∀ pid team', Spawn vm (some text) code image imageSz heap s.team = some (pid, team') → 0 ≤ pid →
      WellFormed text code pid (team'.mProcessList pid)

/-- A slot given to a process has a zero where the new name ends, and its stack was of the size it will have. -/
def SlotFits (event : TeamEvent) (s : Scheduler) : Prop :=
  ∀ vm text code image imageSz heap, event = .sched (.spawn vm (some text) code image imageSz heap) → 0 ∉ text →
    ¬ Rejects (some text) code s.team → 0 ≤ s.team.mProcessCur →
      Granted text heap (s.team.mProcessList s.team.mProcessCur) →
        (s.team.mProcessList s.team.mProcessCur).Name[text.length]? = some 0 ∧
          (s.team.mProcessList s.team.mProcessCur).StackSize = kCPSMaxStackSz

section Successes
variable {vm code image : VoidPtr} {text rest : List Byte} {imageSz : SizeT} {heap : Grants}
  {process filled : UserProcess} {pid result : ProcessID} {event : TeamEvent} {s : Scheduler}

theorem cString_append (plain : 0 ∉ text) : cString (text ++ rest) = some text ↔ rest.head? = some 0 := by
  have taken : (text ++ rest).takeWhile (· ≠ 0) = text ++ rest.takeWhile (· ≠ 0) :=
    List.takeWhile_append_of_pos (ne_of_absent plain)
  unfold cString
  rw [taken]
  cases rest with
  | nil =>
      rw [List.append_nil, if_neg plain]
      simp
  | cons c rest =>
      by_cases zero : c = 0
      · subst zero
        simp
      · have more : (c :: rest).takeWhile (· ≠ 0) = c :: rest.takeWhile (· ≠ 0) :=
          List.takeWhile_cons_of_pos (decide_eq_true zero)
        rw [more]
        have longer : ¬ text ++ c :: rest.takeWhile (· ≠ 0) = text := by simp
        have first : ¬ (c :: rest).head? = some 0 := fun same => zero (Option.some.inj same)
        refine iff_of_false (fun same => ?_) first
        split at same
        · exact longer (Option.some.inj same)
        · cases same

theorem fill_slot (granted : Granted text heap process)
    (taken : fill vm pid text code image imageSz heap process = (result, filled)) :
    filled.Name = text ++ process.Name.drop text.length ∧ filled.StackSize = kCPSMaxStackSz ∧
      filled.StackFrame = some ⟨code, ⟨pid, process.StackSize⟩⟩ := by
  rw [fill_filled granted] at taken
  obtain ⟨-, rfl⟩ := Prod.ext_iff.mp taken
  exact ⟨rfl, rfl, rfl⟩

theorem fill_wellFormed (plain : 0 ∉ text) (granted : Granted text heap process)
    (taken : fill vm pid text code image imageSz heap process = (result, filled)) :
    WellFormed text code pid filled ↔ process.Name[text.length]? = some 0 ∧ process.StackSize = kCPSMaxStackSz := by
  obtain ⟨name, size, frame⟩ := fill_slot granted taken
  have named : cString filled.Name = some text ↔ process.Name[text.length]? = some 0 := by
    rw [name, cString_append plain, List.head?_drop]
  constructor
  · rintro ⟨text, _, same, -, pointer⟩
    obtain rfl := Option.some.inj (frame.symm.trans same)
    have offset := pointer fun _ => 0
    rw [size] at offset
    exact ⟨named.mp text, by simpa [StackAddress.address] using offset⟩
  · rintro ⟨ended, full⟩
    refine ⟨named.mpr ended, _, frame, rfl, fun reserve => ?_⟩
    rw [size, ← full]
    rfl

theorem spawnsWell_iff : SpawnsWell event s ↔ SlotFits event s := by
  constructor
  · rintro well vm text code image imageSz heap rfl plain accepted low granted
    obtain ⟨pid, team', spawned⟩ : ∃ pid team', Spawn vm (some text) code image imageSz heap s.team =
        some (pid, team') := Spawn_counted accepted low
    rcases Spawn_put spawned with ⟨rejected, -, -⟩ | ⟨-, -, text, filled, ⟨⟩, put, rfl⟩
    · exact absurd rejected accepted
    · obtain ⟨rfl, -, -⟩ := fill_granted granted put
      have formed := well vm text code image imageSz heap rfl plain _ _ spawned low
      rw [put_same] at formed
      exact (fill_wellFormed plain granted put).mp formed
  · rintro fits vm text code image imageSz heap rfl plain pid team' spawned valid
    rcases Spawn_put spawned with ⟨-, negative, -⟩ | ⟨accepted, low, text, filled, ⟨⟩, put, rfl⟩
    · exact absurd valid (not_le.mpr negative)
    · have granted : Granted text heap (s.team.mProcessList s.team.mProcessCur) := by
        by_contra refused
        exact absurd valid (not_le.mpr (fill_refused refused put))
      obtain ⟨rfl, -, -⟩ := fill_granted granted put
      rw [put_same]
      exact (fill_wellFormed plain granted put).mpr
        (fits vm text code image imageSz heap rfl plain accepted low granted)

end Successes

/-- Every process that is spawned is well formed, exactly as long as the slots it is put in fit. -/
theorem spawned_well_formed_iff (s : Scheduler) (events : List TeamEvent) :
    AllSteps TeamStep SpawnsWell s events ↔ AllSteps TeamStep SlotFits s events :=
  @allSteps_iff _ _ _ _ _ _ _ (fun _ => True) trivial (fun _ _ _ => spawnsWell_iff) fun _ _ _ _ _ _ => trivial

/-- The first process of a slot starts with its stack pointer at the lower end of the reserve. -/
theorem first_stack_empty : ¬ ∀ behind events, AllSteps TeamStep SpawnsWell (.start behind) events := by
  intro every
  have well := every zeroProcess [.sched (.spawn 0 (some [97]) 1 0 0 ⟨true, true⟩)] [] _ [] rfl _ (.nil _)
  have fits := spawnsWell_iff.mp well 0 [97] 1 0 0 ⟨true, true⟩ rfl (by decide) (by decide) (by decide) (by decide)
  exact absurd fits.2 (by decide)

end Ne.Kernel.Sched
