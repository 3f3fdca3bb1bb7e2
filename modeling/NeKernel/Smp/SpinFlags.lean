import NeKernel.Machine
import NeKernel.Lib.Runs
import NeKernel.Lib.SpinFlag

/-!
# Flags that are spun on

Three functions take a static flag each with `while (!flg.test_and_set());`. The loop ends when the flag
was found set. A caller is one activation of such a function; one that never comes back takes no more steps.
-/

namespace Ne.Kernel.Smp
open Runs SpinFlag

def kMIBMaxIpcMsg : SizeT := 512 * 1024 * 1024

structure StackFrame where
  IP : UIntPtr
  SP : UIntPtr

def halCheckTask (frame : StackFrame) : Bool := frame.SP > 0 ∧ frame.IP > 0

/-- Where each `flg` is a static of. -/
inductive Flag where
  | Switch
  | ipc_write_to_file
  | ipc_read_from_file
  deriving DecidableEq

/-- A function with what its parameters say: the hardware thread and its frame, whether there is a stream, and
whether there is data. -/
inductive SpinCall where
  | Switch (thread : Nat) (frame : Option StackFrame)
  | ipc_write_to_file (fs dat : Bool)
  | ipc_read_from_file (fs : Bool)

def SpinCall.flag : SpinCall → Flag
  | .Switch .. => .Switch
  | .ipc_write_to_file .. => .ipc_write_to_file
  | .ipc_read_from_file .. => .ipc_read_from_file

inductive Point where
  | entry
  | spin
  | test
  | bound
  | store
  | register
  | clear (transfers : Bool)
  | after (transfers : Bool)
  /-- Behind a check that did not pass, with the flag or without it. -/
  | stop (held : Bool)

/-- From the end of the loop to the clear of the flag. -/
def Point.inside : Point → Bool
  | .test => true
  | .bound => true
  | .store => true
  | .register => true
  | .clear _ => true
  | .stop held => held
  | _ => false

/-- The first statement behind the loop. -/
def SpinCall.first : SpinCall → Point
  | .Switch .. => .store
  | _ => .test

/-- What a step may read: the length behind the reference, and whether the canary was read. -/
structure Reads where
  len : SizeT
  canary : Bool

/-- Where a step of `HardwareThread::Switch` leads, the loop apart. `none` is its return. -/
def switchNext (frame : Option StackFrame) : Point → Option Point
  | .entry =>
      match frame with
      | none => none
      | some frame =>
          if !halCheckTask frame then none
          else if frame.IP = 0 ∨ frame.SP = 0 then none
          else some .spin
  | .store => some .register
  | .register => some (.clear false)
  | _ => none

/-- The same for the two functions of `IPCAddress.cpp`, which differ in what has to be given. -/
def ipcNext (given : Bool) (reads : Reads) : Point → Option Point
  | .entry => some .spin
  | .test => if given ∧ reads.len ≠ 0 then some .bound else some (.clear false)
  | .bound => if reads.len < kMIBMaxIpcMsg then some (.clear true) else some (.stop true)
  | .clear transfers => some (.after transfers)
  | .after true => none
  | .after false => if reads.canary then none else some (.stop false)
  | _ => none

def SpinCall.next (reads : Reads) : SpinCall → Point → Option Point
  | .Switch _ frame => switchNext frame
  | .ipc_write_to_file fs dat => ipcNext (fs && dat) reads
  | .ipc_read_from_file fs => ipcNext fs reads

structure Cores (ι : Type*) where
  flags : Flag → Bool
  calls : ι → Option (SpinCall × Point)
  fStack : Nat → Option StackFrame

inductive CoreStep (ι : Type*) where
  | begin (caller : ι) (call : SpinCall)
  | next (caller : ι) (reads : Reads)

section Steps
variable {ι : Type*} [DecidableEq ι]

def Cores.start (fStack : Nat → Option StackFrame) : Cores ι := ⟨fun _ => false, fun _ => none, fStack⟩

def Cores.goTo (s : Cores ι) (caller : ι) (call : SpinCall) (point : Option Point) : Cores ι :=
  { s with calls := Function.update s.calls caller (point.map (call, ·)) }

/-- What a statement does beside going on. -/
def Cores.effect (s : Cores ι) : SpinCall → Point → Cores ι
  | .Switch thread frame, .store => { s with fStack := Function.update s.fStack thread frame }
  | call, .clear _ => { s with flags := Function.update s.flags call.flag false }
  | _, _ => s

def CoreStep.run (step : CoreStep ι) (s : Cores ι) : Option (Cores ι) :=
  match step with
  | .begin caller call => if (s.calls caller).isSome then none else some (s.goTo caller call (some .entry))
  | .next caller reads =>
      match s.calls caller with
      | none => none
      | some (_, .stop _) => none
      | some (call, .spin) =>
          -- test_and_set returns what the flag was
          let s' := { s with flags := Function.update s.flags call.flag true }
          some (s'.goTo caller call (if !s.flags call.flag then some .spin else some call.first))
      | some (call, point) => some ((s.effect call point).goTo caller call (call.next reads point))

def Takes (step : CoreStep ι) (s s' : Cores ι) : Prop := step.run s = some s'

/-- The caller is between the end of its loop and its clear of the flag. -/
def Inside (s : Cores ι) (flag : Flag) (caller : ι) : Prop :=
  ∃ call point, s.calls caller = some (call, point) ∧ call.flag = flag ∧ point.inside = true

def Exclusive (s : Cores ι) : Prop := ∀ flag p q, Inside s flag p → Inside s flag q → p = q

/-- Nobody is inside when the flag is tested. -/
def Alone (step : CoreStep ι) (s : Cores ι) : Prop :=
  ∀ caller reads call, step = .next caller reads → s.calls caller = some (call, .spin) →
    ∀ other, ¬ Inside s call.flag other

end Steps

/-! ## Single steps -/

section Positions
variable {ι : Type*} {s s' : Cores ι} {step : CoreStep ι} {caller q : ι} {call : SpinCall}
  {point : Point} {flag : Flag} {reads : Reads}

theorem effect_calls : (s.effect call point).calls = s.calls := by
  cases call <;> cases point <;> rfl

theorem switchNext_inside {frame : Option StackFrame} {target : Point} (leads : switchNext frame point = some target)
    (held : target.inside = true) : point.inside = true ∧ ∀ transfers, point ≠ .clear transfers := by
  cases point with
  | store | register => exact ⟨rfl, nofun⟩
  | entry =>
      cases frame with
      | none => cases leads
      | some frame =>
          simp only [switchNext, Option.ite_none_left_eq_some] at leads
          obtain ⟨-, -, same⟩ := leads
          cases same
          cases held
  | _ => cases leads

theorem ipcNext_inside {given : Bool} {target : Point} (leads : ipcNext given reads point = some target)
    (held : target.inside = true) : point.inside = true ∧ ∀ transfers, point ≠ .clear transfers := by
  cases point with
  | test | bound => exact ⟨rfl, nofun⟩
  | entry | clear =>
      cases leads
      cases held
  | after transfers =>
      cases transfers with
      | true => cases leads
      | false =>
          obtain ⟨-, same⟩ := Option.ite_none_left_eq_some.mp leads
          cases same
          cases held
  | _ => cases leads

theorem next_inside {target : Point} (leads : call.next reads point = some target) (held : target.inside = true) :
    point.inside = true ∧ ∀ transfers, point ≠ .clear transfers := by
  cases call with
  | Switch thread frame => exact switchNext_inside leads held
  | ipc_write_to_file fs dat => exact ipcNext_inside leads held
  | ipc_read_from_file fs => exact ipcNext_inside leads held

/-- Nobody comes in, and no flag is touched. -/
structure Stays (s s' : Cores ι) : Prop where
  flags : s'.flags = s.flags
  inside : ∀ flag q, Inside s' flag q → Inside s flag q

/-- A test that found the flag clear, and set it. -/
structure Spins (call : SpinCall) (s s' : Cores ι) : Prop where
  clear : s.flags call.flag = false
  flags : s'.flags = Function.update s.flags call.flag true
  inside : ∀ flag q, Inside s' flag q → Inside s flag q

/-- A test that found the flag set. -/
structure Enters (caller : ι) (call : SpinCall) (s s' : Cores ι) : Prop where
  outside : ∀ flag, ¬ Inside s flag caller
  flags : s'.flags = Function.update s.flags call.flag true
  inside : ∀ flag q, Inside s' flag q ↔ (q = caller ∧ flag = call.flag) ∨ Inside s flag q

structure Clears (caller : ι) (call : SpinCall) (s s' : Cores ι) : Prop where
  here : Inside s call.flag caller
  flags : s'.flags = Function.update s.flags call.flag false
  inside : ∀ flag q, Inside s' flag q → Inside s flag q ∧ q ≠ caller

def Tests (step : CoreStep ι) (s : Cores ι) (caller : ι) (call : SpinCall) : Prop :=
  ∃ reads, step = .next caller reads ∧ s.calls caller = some (call, .spin)

def Guarded (s : Cores ι) : Prop := ∀ flag, Guards (s.flags flag) (Inside s flag)

theorem Guarded.exclusive (guarded : Guarded s) : Exclusive s := fun flag => (guarded flag).exclusive

theorem Guarded.update {value : Bool} (guarded : Guarded s) (flags : s'.flags = Function.update s.flags flag value)
    (own : Guards value (Inside s' flag)) (others : ∀ other, other ≠ flag → ∀ q, Inside s' other q → Inside s other q) :
    Guarded s' := by
  intro other
  rw [flags]
  by_cases same : other = flag
  · subst same
    rwa [Function.update_self]
  · rw [Function.update_of_ne same]
    exact (guarded other).mono (others other same)

theorem Guarded.alone_of_clear (guarded : Guarded s) (position : s.calls caller = some (call, .spin))
    (clear : s.flags call.flag = false) : Alone (.next caller reads) s := by
  rintro _ _ call' ⟨⟩ same other
  cases position.symm.trans same
  exact (clear ▸ guarded call.flag).none_of_clear other

theorem Enters.alone_iff (enters : Enters caller call s s') (position : s.calls caller = some (call, .spin))
    (guarded : Guarded s) :
    (Exclusive s' → Alone (.next caller reads) s) ∧ (Alone (.next caller reads) s → Guarded s') := by
  constructor
  · rintro exclusive _ _ call' ⟨⟩ same other here
    cases position.symm.trans same
    have entered := (enters.inside call.flag caller).mpr (.inl ⟨rfl, rfl⟩)
    obtain rfl := exclusive call.flag other caller ((enters.inside call.flag other).mpr (.inr here)) entered
    exact enters.outside _ here
  · intro alone
    refine guarded.update enters.flags (.enter (p := caller) (alone caller reads call rfl position) fun q here => ?_) ?_
    · exact ((enters.inside call.flag q).mp here).imp_left And.left
    · intro other apart q here
      exact ((enters.inside other q).mp here).resolve_left fun own => apart own.2

theorem start_guarded (fStack : Nat → Option StackFrame) : Guarded (.start fStack : Cores ι) :=
  fun _ => .of_none nofun

variable [DecidableEq ι]

theorem inside_goTo {s₀ : Cores ι} {target : Option Point} (same : s₀.calls = s.calls) :
    Inside (s₀.goTo caller call target) flag q ↔
      (q = caller ∧ call.flag = flag ∧ ∃ p, target = some p ∧ p.inside = true) ∨ (q ≠ caller ∧ Inside s flag q) := by
  by_cases own : q = caller
  · subst own
    cases target <;> simp [Inside, Cores.goTo]
  · simp [Inside, Cores.goTo, same, own]

theorem goTo_fewer {s₀ : Cores ι} {target : Option Point} (same : s₀.calls = s.calls)
    (before : ∀ p, target = some p → p.inside = true → Inside s call.flag caller) (flag : Flag) (q : ι)
    (here : Inside (s₀.goTo caller call target) flag q) : Inside s flag q := by
  rcases (inside_goTo same).mp here with ⟨rfl, rfl, p, leads, held⟩ | ⟨-, here⟩
  · exact before p leads held
  · exact here

theorem takes_cases (taken : Takes step s s') :
    (∃ caller call, Tests step s caller call ∧ (Spins call s s' ∨ Enters caller call s s')) ∨
    ((∀ caller call, ¬ Tests step s caller call) ∧ (Stays s s' ∨ ∃ caller call, Clears caller call s s')) := by
  cases step with
  | begin caller call =>
      obtain ⟨-, same⟩ := Option.ite_none_left_eq_some.mp taken
      obtain rfl := Option.some.inj same
      exact .inr ⟨nofun, .inl ⟨rfl, goTo_fewer rfl (by rintro p ⟨⟩ ⟨⟩)⟩⟩
  | next caller reads =>
      unfold Takes CoreStep.run at taken
      dsimp only at taken
      split at taken
      · cases taken
      · cases taken
      · rename_i call position
        obtain rfl := Option.some.inj taken
        refine .inl ⟨caller, call, ⟨reads, rfl, position⟩, ?_⟩
        cases set : s.flags call.flag with
        | false => exact .inl ⟨set, rfl, goTo_fewer rfl (by rintro p ⟨⟩ ⟨⟩)⟩
        | true =>
            have outside (flag : Flag) : ¬ Inside s flag caller := by
              rintro ⟨call, point, same, -, held⟩
              cases position.symm.trans same
              cases held
            have first : call.first.inside = true := by cases call <;> rfl
            refine .inr ⟨outside, rfl, fun flag q => (inside_goTo rfl).trans ⟨?_, ?_⟩⟩
            · rintro (⟨own, same, -⟩ | ⟨-, here⟩)
              · exact .inl ⟨own, same.symm⟩
              · exact .inr here
            · rintro (⟨own, same⟩ | here)
              · exact .inl ⟨own, same.symm, _, rfl, first⟩
              · exact .inr ⟨fun own => outside flag (own ▸ here), here⟩
      · rename_i call point _ notSpin position
        obtain rfl := Option.some.inj taken
        refine .inr ⟨?_, ?_⟩
        · rintro other call' ⟨reads', same, spinning⟩
          cases same
          cases position.symm.trans spinning
          exact notSpin rfl
        by_cases clears : ∃ transfers, point = .clear transfers
        · obtain ⟨transfers, rfl⟩ := clears
          refine .inr ⟨caller, call, ⟨call, _, position, rfl, rfl⟩, by cases call <;> rfl, fun flag q here => ?_⟩
          rcases (inside_goTo effect_calls).mp here with ⟨-, -, p, leads, held⟩ | ⟨other, here⟩
          · exact absurd rfl ((next_inside leads held).2 transfers)
          · exact ⟨here, other⟩
        · have flags : (s.effect call point).flags = s.flags := by
            cases call <;> cases point <;> first | rfl | exact absurd ⟨_, rfl⟩ clears
          exact .inl ⟨flags, goTo_fewer effect_calls fun p leads held =>
            ⟨call, point, position, rfl, (next_inside leads held).1⟩⟩

/-- While the sections have been exclusive, a step keeps them so exactly if it tests no flag that is held. -/
theorem exclusive_step (guarded : Guarded s) (taken : Takes step s s') :
    (Exclusive s' ↔ Alone step s) ∧ (Exclusive s' → Guarded s') := by
  rcases takes_cases taken with ⟨caller, call, ⟨reads, rfl, position⟩, spins | enters⟩ | ⟨never, quiet⟩
  · have next : Guarded s' := by
      refine guarded.update spins.flags (.of_none fun q here => ?_) fun other _ => spins.inside other
      exact (spins.clear ▸ guarded call.flag).none_of_clear q (spins.inside _ q here)
    exact ⟨iff_of_true next.exclusive (guarded.alone_of_clear position spins.clear), fun _ => next⟩
  · have ⟨forth, back⟩ : (Exclusive s' → Alone (.next caller reads) s) ∧
        (Alone (.next caller reads) s → Guarded s') := enters.alone_iff position guarded
    exact ⟨⟨forth, fun alone => (back alone).exclusive⟩, fun exclusive => back (forth exclusive)⟩
  · have alone : Alone step s := fun caller reads call same position =>
      absurd ⟨reads, same, position⟩ (never caller call)
    have next : Guarded s' := by
      rcases quiet with stays | ⟨caller, call, clears⟩
      · exact fun flag => stays.flags ▸ (guarded flag).mono (stays.inside flag)
      · exact guarded.update clears.flags ((guarded call.flag).leave clears.here (clears.inside call.flag))
          fun other _ q here => (clears.inside other q here).1
    exact ⟨iff_of_true next.exclusive alone, fun _ => next⟩

theorem takes_functional (step : CoreStep ι) (s s' s'' : Cores ι) (first : Takes step s s')
    (second : Takes step s s'') : s' = s'' := Option.some.inj (first.symm.trans second)

/-- Every section is exclusive exactly as long as no flag is tested while somebody is inside its section. -/
theorem spin_exclusive_iff {fStack : Nat → Option StackFrame} {steps : List (CoreStep ι)}
    (run : Run Takes (.start fStack) steps s) :
    Everywhere Takes Exclusive (.start fStack) steps ↔ AllSteps Takes Alone (.start fStack) steps :=
  everywhere_iff takes_functional run (start_guarded fStack) (fun _ => Guarded.exclusive)
    (fun _ _ _ guarded taken => (exclusive_step guarded taken).1)
    (fun _ _ _ guarded taken => (exclusive_step guarded taken).2)

end Positions

/-- The first caller tests the flag twice, and the second one comes while it is inside. -/
def twoSwitches : List (CoreStep Bool) :=
  [.begin true (.Switch 0 (some ⟨1, 1⟩)), .next true ⟨0, true⟩, .next true ⟨0, true⟩, .next true ⟨0, true⟩,
    .begin false (.Switch 1 (some ⟨1, 1⟩)), .next false ⟨0, true⟩, .next false ⟨0, true⟩]

theorem twoSwitches_inside : ∃ s, Run Takes (.start fun _ => none) twoSwitches s ∧
    Inside s .Switch true ∧ Inside s .Switch false := by
  have computed : (twoSwitches.foldlM (fun s step => CoreStep.run step s) (Cores.start fun _ => none)).map
      (fun s => ((s.calls true).map fun (call, point) => (call.flag, point.inside),
        (s.calls false).map fun (call, point) => (call.flag, point.inside))) =
      some (some (.Switch, true), some (.Switch, true)) := by
    decide
  obtain ⟨s, taken, values⟩ := Option.map_eq_some_iff.mp computed
  have inside {caller : Bool}
      (position : (s.calls caller).map (fun (call, point) => (call.flag, point.inside)) = some (.Switch, true)) :
      Inside s .Switch caller := by
    obtain ⟨⟨call, point⟩, same, at_⟩ := Option.map_eq_some_iff.mp position
    obtain ⟨flag, held⟩ := Prod.mk.inj at_
    exact ⟨call, point, same, flag, held⟩
  obtain ⟨first, second⟩ := Prod.mk.inj values
  exact ⟨s, run_iff_foldlM.mpr taken, inside first, inside second⟩

theorem twoSwitches_exclusive_iff : Everywhere Takes Exclusive (.start fun _ => none) twoSwitches ↔
    AllSteps Takes Alone (.start fun _ => none) twoSwitches :=
  have ⟨_, run, _⟩ := twoSwitches_inside
  spin_exclusive_iff run

/-- Two callers are inside of `HardwareThread::Switch` at once. -/
theorem switches_not_exclusive : ¬ ∀ (fStack : Nat → Option StackFrame) (steps : List (CoreStep Bool)) s,
    Run Takes (.start fStack) steps s → Exclusive s := by
  intro every
  obtain ⟨s, run, first, second⟩ := twoSwitches_inside
  exact absurd (every _ _ s run .Switch true false first second) nofun

end Ne.Kernel.Smp
