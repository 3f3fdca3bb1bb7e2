import NeKernel.Arch.SystemCalls
import Mathlib.Data.List.TakeWhile

/-!
# Users and the calls that are open to them

`user_init_std` binds the users of the kernel, and the entries of system calls and kernel calls look at the one that is
current.
-/

namespace Ne.Kernel.Arch
open ByteMem Runs Fnv

variable {P : Type*}

/-! ## Users -/

def kMaxUserNameLen : ℕ := 256

inductive UserRingKind where
  | kRingInvalid
  | kRingStdUser
  | kRingSuperUser
  | kRingGuestUser
  | kRingRecoveryUser
  deriving DecidableEq

/-- The text in a user's array of characters, which has room for the terminator. -/
structure UserName where
  text : List Byte
  characters : 0 ∉ text
  short : text.length < kMaxUserNameLen

def userSetName (src : List Byte) : UserName where
  text := (src.takeWhile (· ≠ 0)).take (kMaxUserNameLen - 1)
  characters := by
    intro zero
    have taken := List.mem_takeWhile_imp (List.mem_of_mem_take zero)
    exact absurd rfl (of_decide_eq_true taken)
  short := Nat.lt_succ_of_le (List.length_take_le _ _)

structure User where
  mUserRing : UserRingKind
  mUserName : UserName
  mUserFNV : BitVec 64
  mUserIsAdult : Bool

namespace User

/-- The constructor. A check that fails stops the machine. -/
def make (ringKind : UserRingKind) (userName : List Byte) : Option User :=
  if ringKind = .kRingInvalid ∨ userName.headD 0 = 0 then none
  else some ⟨ringKind, userSetName userName, 0, true⟩

/-- The checks inside hold, so the generator does not stop the machine. -/
def userFnvGenerator (password : Option (List Byte)) : BitVec 64 :=
  if unnamed password then 0 else hashWhile charWord kFNVSeed (password.getD [])

def save (password : Option (List Byte)) (user : User) : Bool × User :=
  if unnamed password then (false, user) else (true, { user with mUserFNV := userFnvGenerator password })

def login (password : Option (List Byte)) (user : User) : Bool :=
  if unnamed password then false else user.mUserFNV = userFnvGenerator password

def isSuperUser (user : User) : Bool := user.mUserRing = .kRingSuperUser

end User

/-- The users on the heap and the pointers to them, beside the table of kernel calls. -/
structure Users (P : Type*) where
  heap : ℕ → Option User
  kCurrentUser : Option ℕ
  kRootUser : Option ℕ
  kGuest : Option ℕ
  kHostUser : Option ℕ
  kKernCalls : SysCalls P

def Users.boot : Users P := ⟨fun _ => none, none, none, none, none, kSysCalls⟩

/-- `NE.APP/MGMT/root` -/
def kRootUserName : List Byte :=
  [0x4E, 0x45, 0x2E, 0x41, 0x50, 0x50, 0x2F, 0x4D, 0x47, 0x4D, 0x54, 0x2F, 0x72, 0x6F, 0x6F, 0x74]

/-- `NE.APP/GUEST/guest` -/
def kGuestUserName : List Byte :=
  [0x4E, 0x45, 0x2E, 0x41, 0x50, 0x50, 0x2F, 0x47, 0x55, 0x45, 0x53, 0x54, 0x2F, 0x67, 0x75, 0x65, 0x73, 0x74]

/-- `NE.APP/GUEST/recov` -/
def kRecoveryUserName : List Byte :=
  [0x4E, 0x45, 0x2E, 0x41, 0x50, 0x50, 0x2F, 0x47, 0x55, 0x45, 0x53, 0x54, 0x2F, 0x72, 0x65, 0x63, 0x6F, 0x76]

/-- `new User`. The heap gives out a place or it has none left. -/
def newUser (place : Option ℕ) (ringKind : UserRingKind) (userName : List Byte) (s : Users P) :
    Option (Option ℕ × Users P) :=
  match place with
  | none => some (none, s)
  | some p => (User.make ringKind userName).map fun user =>
      (some p, { s with heap := Function.update s.heap p (some user) })

/-- The places that the heap gives out for the users. -/
structure UserPlaces where
  root : Option ℕ
  guest : Option ℕ
  recovery : Option ℕ

def bindRoot (places : UserPlaces) (s : Users P) : Option (Users P) :=
  if s.kRootUser.isSome then some s
  else (newUser places.root .kRingSuperUser kRootUserName s).map fun made => { made.2 with kRootUser := made.1 }

def bindGuest (places : UserPlaces) (s : Users P) : Option (Users P) :=
  if s.kGuest.isSome then some s
  else (newUser places.guest .kRingGuestUser kGuestUserName s).map fun made => { made.2 with kGuest := made.1 }

def bindCurrent (recovery : Bool) (places : UserPlaces) (s : Users P) : Option (Users P) :=
  if recovery then
    (newUser places.recovery .kRingRecoveryUser kRecoveryUserName s).map fun made =>
      { made.2 with kCurrentUser := made.1 }
  else some { s with kCurrentUser := s.kGuest }

/-- No result stands for a machine that was stopped. -/
def userInitStd (recovery : Bool) (places : UserPlaces) (s : Users P) : Option (Users P) := do
  let s ← bindRoot places s
  let s ← bindGuest places s
  if s.kRootUser.isNone ∨ s.kGuest.isNone then none
  else
    let s ← bindCurrent recovery places s
    if s.kCurrentUser.isNone then none else some { s with kHostUser := none }

/-! ## The entries -/

/-- The arguments of a call that was entered. -/
structure KernelCall where
  rcxHash : UIntPtr
  cnt : SizeT
  arg : UIntPtr
  sz : SizeT

/-- The scan for a hash, from slot `i` on. The first slot under it ends the scan. -/
def kernelFrom (table : SysCalls P) (hash : UIntPtr) : ℕ → ℕ → Option P
  | 0, _ => none
  | left + 1, i =>
      if (table i).fHooked ∧ hash = (table i).fHash then (table i).fProc else kernelFrom table hash left (i + 1)

/-- The three checks of the users in front of both kernel call entries. -/
def Users.rootIsCurrent (s : Users P) : Prop :=
  s.kRootUser ≠ none ∧ s.kCurrentUser = s.kRootUser ∧ (s.kCurrentUser.bind s.heap).map User.isSuperUser = some true

instance (s : Users P) : Decidable s.rootIsCurrent := inferInstanceAs (Decidable (_ ∧ _ ∧ _))

/-- The procedure that `hal_kernel_call_enter` of AMD64 runs. -/
def halKernelCallEnter (call : KernelCall) (s : Users P) : Option P :=
  if ¬ s.rootIsCurrent then none
  else if call.arg = 0 ∨ call.rcxHash = 0 then none
  else kernelFrom s.kKernCalls call.rcxHash kMaxDispatchCallCount 0

/-- The scans of ARM64 run a procedure and go on. -/
def arm64From (table : SysCalls P) (hash : UIntPtr) (stops : Bool) : ℕ → ℕ → List P
  | 0, _ => []
  | left + 1, i =>
      if (table i).fHooked ∧ hash = (table i).fHash then
        match (table i).fProc with
        | none => if stops then [] else arm64From table hash stops left (i + 1)
        | some proc => proc :: arm64From table hash stops left (i + 1)
      else arm64From table hash stops left (i + 1)

/-- The procedures that `hal_system_call_enter` of ARM64 runs, in order. -/
def halSystemCallEnterArm64 (kCurrentUser : Bool) (rcxHash rdxSyscallArg : UIntPtr) (table : SysCalls P) : List P :=
  if !kCurrentUser then []
  else if rdxSyscallArg = 0 ∨ rcxHash = 0 then []
  else arm64From table rcxHash true kMaxDispatchCallCount 0

def halKernelCallEnterArm64 (call : KernelCall) (s : Users P) : List P :=
  if ¬ s.rootIsCurrent then []
  else if call.arg = 0 ∨ call.rcxHash = 0 then []
  else arm64From s.kKernCalls call.rcxHash false kMaxDispatchCallCount 0

/-- `ke_install_kerncall` does to its table what `ke_install_syscall` does to the other. -/
def keInstallKerncall (name : Option (List Byte)) (proc : Option P) (s : Users P) : Int × Users P :=
  let installed := keInstallSyscall name proc s.kKernCalls
  (installed.1, { s with kKernCalls := installed.2 })

/-! ## Runs -/

inductive UserEvent (P : Type*)
  | init (recovery : Bool) (places : UserPlaces)
  | save (p : ℕ) (password : Option (List Byte))
  | adult (p : ℕ) (adult : Bool)
  | install (name : Option (List Byte)) (proc : Option P)

/-- The heap gives out what is not in use. -/
structure UserPlaces.Free (places : UserPlaces) (s : Users P) : Prop where
  root : ∀ p ∈ places.root, s.heap p = none
  guest : ∀ p ∈ places.guest, s.heap p = none ∧ p ∉ places.root
  recovery : ∀ p ∈ places.recovery, s.heap p = none ∧ p ∉ places.root ∧ p ∉ places.guest

/-- One call. A user is one that was made, and a machine that was stopped takes no further step. -/
def UserStep : UserEvent P → Users P → Users P → Prop
  | .init recovery places, s, t => places.Free s ∧ userInitStd recovery places s = some t
  | .save p password, s, t => ∃ user, s.heap p = some user ∧
      t = { s with heap := Function.update s.heap p (some (user.save password).2) }
  | .adult p adult, s, t => ∃ user, s.heap p = some user ∧
      t = { s with heap := Function.update s.heap p (some { user with mUserIsAdult := adult }) }
  | .install name proc, s, t => t = (keInstallKerncall name proc s).2

section Steps
variable {s t : Users P} {place q : Option ℕ} {places : UserPlaces} {recovery : Bool} {ring : UserRingKind}
  {name : List Byte} {user : User} {p : ℕ} {event : UserEvent P} {events : List (UserEvent P)}

theorem newUser_cases (made : newUser place ring name s = some (q, t)) :
    place = none ∧ q = none ∧ t = s ∨
    ∃ p user, place = some p ∧ q = some p ∧ User.make ring name = some user ∧
      t = { s with heap := Function.update s.heap p (some user) } := by
  cases place with
  | none =>
      obtain ⟨rfl, rfl⟩ := Prod.mk.inj (Option.some.inj made)
      exact .inl ⟨rfl, rfl, rfl⟩
  | some p =>
      obtain ⟨user, built, same⟩ := Option.map_eq_some_iff.mp made
      obtain ⟨rfl, rfl⟩ := Prod.mk.inj same
      exact .inr ⟨p, user, rfl, rfl, built, rfl⟩

theorem make_some (built : User.make ring name = some user) : user.mUserRing = ring ∧ user.mUserFNV = 0 := by
  unfold User.make at built
  split at built
  · cases built
  · obtain rfl := Option.some.inj built
    exact ⟨rfl, rfl⟩

/-- Every user stays where it is and keeps its ring and its password. Others come with neither. -/
structure Grows (s t : Users P) : Prop where
  kept : ∀ p user, s.heap p = some user → t.heap p = some user
  fresh : ∀ p user, t.heap p = some user → s.heap p = none → user.mUserFNV = 0

/-- The user that a pointer leads to. -/
def PointsTo (s : Users P) (pointer : Option ℕ) (rings : List UserRingKind) : Prop :=
  ∀ p ∈ pointer, ∃ user, s.heap p = some user ∧ user.mUserRing ∈ rings

theorem Grows.refl : Grows s s :=
  ⟨fun _ _ here => here, fun p user here none => by rw [here] at none; cases none⟩

theorem Grows.trans {u : Users P} (first : Grows s t) (second : Grows t u) : Grows s u := by
  refine ⟨fun p user here => second.kept p user (first.kept p user here), fun p user here none => ?_⟩
  cases between : t.heap p with
  | none => exact second.fresh p user here between
  | some other =>
      have same := (second.kept p other between).symm.trans here
      obtain rfl := Option.some.inj same
      exact first.fresh p other between none

theorem PointsTo.grows {pointer : Option ℕ} {rings : List UserRingKind} (points : PointsTo s pointer rings)
    (grows : Grows s t) : PointsTo t pointer rings := by
  intro p member
  obtain ⟨user, here, kind⟩ := points p member
  exact ⟨user, grows.kept p user here, kind⟩

theorem newUser_grows (made : newUser place ring name s = some (q, t)) (free : ∀ p ∈ place, s.heap p = none) :
    Grows s t ∧ PointsTo t q [ring] ∧ ∀ p, s.heap p = none → p ∉ place → t.heap p = none := by
  rcases newUser_cases made with ⟨rfl, rfl, rfl⟩ | ⟨p, user, rfl, rfl, built, rfl⟩
  · refine ⟨.refl, ?_, fun _ none _ => none⟩
    intro p member
    cases member
  obtain ⟨kind, unsaved⟩ := make_some built
  have unused := free p rfl
  refine ⟨⟨fun other user' here => ?_, fun other user' here none => ?_⟩, ?_, fun other none apart => ?_⟩
  · have apart : other ≠ p := by
      rintro rfl
      rw [unused] at here
      cases here
    exact (Function.update_of_ne apart _ _).trans here
  · dsimp only at here
    by_cases same : other = p
    · rw [same, Function.update_self] at here
      obtain rfl := Option.some.inj here
      exact unsaved
    · rw [Function.update_of_ne same, none] at here
      cases here
  · rintro _ ⟨⟩
    exact ⟨user, Function.update_self _ _ _, by rw [kind]; exact List.mem_singleton_self _⟩
  · have other' : other ≠ p := fun same => apart (by rw [same]; rfl)
    exact (Function.update_of_ne other' _ _).trans none

/-- The pointers lead to users of their rings. -/
structure Bound (s : Users P) : Prop where
  root : PointsTo s s.kRootUser [.kRingSuperUser]
  guest : PointsTo s s.kGuest [.kRingGuestUser]
  current : PointsTo s s.kCurrentUser [.kRingGuestUser, .kRingRecoveryUser]

theorem Bound.newUser (bound : Bound s) (made : newUser place ring name s = some (q, t))
    (free : ∀ p ∈ place, s.heap p = none) :
    Grows s t ∧ Bound t ∧ PointsTo t q [ring] ∧ ∀ p, s.heap p = none → p ∉ place → t.heap p = none := by
  obtain ⟨grows, points, others⟩ := newUser_grows made free
  refine ⟨grows, ?_, points, others⟩
  have pointers : t.kRootUser = s.kRootUser ∧ t.kGuest = s.kGuest ∧ t.kCurrentUser = s.kCurrentUser := by
    rcases newUser_cases made with ⟨-, -, rfl⟩ | ⟨p, user, -, -, -, rfl⟩ <;> exact ⟨rfl, rfl, rfl⟩
  obtain ⟨root, guest, current⟩ := pointers
  refine ⟨?_, ?_, ?_⟩
  · rw [root]
    exact bound.root.grows grows
  · rw [guest]
    exact bound.guest.grows grows
  · rw [current]
    exact bound.current.grows grows

theorem Bound.bindRoot (bound : Bound s) (made : bindRoot places s = some t)
    (free : ∀ p ∈ places.root, s.heap p = none) :
    Grows s t ∧ Bound t ∧ ∀ p, s.heap p = none → p ∉ places.root → t.heap p = none := by
  unfold Arch.bindRoot at made
  split at made
  · obtain rfl := Option.some.inj made
    exact ⟨.refl, bound, fun _ none _ => none⟩
  · obtain ⟨⟨q, u⟩, new, rfl⟩ := Option.map_eq_some_iff.mp made
    obtain ⟨grows, after, points, others⟩ := bound.newUser new free
    exact ⟨⟨grows.kept, grows.fresh⟩, ⟨points, after.guest, after.current⟩, others⟩

theorem Bound.bindGuest (bound : Bound s) (made : bindGuest places s = some t)
    (free : ∀ p ∈ places.guest, s.heap p = none) :
    Grows s t ∧ Bound t ∧ ∀ p, s.heap p = none → p ∉ places.guest → t.heap p = none := by
  unfold Arch.bindGuest at made
  split at made
  · obtain rfl := Option.some.inj made
    exact ⟨.refl, bound, fun _ none _ => none⟩
  · obtain ⟨⟨q, u⟩, new, rfl⟩ := Option.map_eq_some_iff.mp made
    obtain ⟨grows, after, points, others⟩ := bound.newUser new free
    exact ⟨⟨grows.kept, grows.fresh⟩, ⟨after.root, points, after.current⟩, others⟩

theorem Bound.bindCurrent (bound : Bound s) (made : bindCurrent recovery places s = some t)
    (free : ∀ p ∈ places.recovery, s.heap p = none) : Grows s t ∧ Bound t := by
  unfold Arch.bindCurrent at made
  split at made
  · obtain ⟨⟨q, u⟩, new, rfl⟩ := Option.map_eq_some_iff.mp made
    obtain ⟨grows, after, points, -⟩ := bound.newUser new free
    refine ⟨⟨grows.kept, grows.fresh⟩, ⟨after.root, after.guest, fun p member => ?_⟩⟩
    obtain ⟨user, here, kind⟩ := points p member
    exact ⟨user, here, List.mem_cons_of_mem _ kind⟩
  · obtain rfl := Option.some.inj made
    refine ⟨⟨fun _ _ here => here, Grows.refl.fresh⟩, ⟨bound.root, bound.guest, fun p member => ?_⟩⟩
    obtain ⟨user, here, kind⟩ := bound.guest p member
    exact ⟨user, here, List.mem_cons.mpr (.inl (List.mem_singleton.mp kind))⟩

theorem userInitStd_cases (made : userInitStd recovery places s = some t) : ∃ s₁ s₂ s₃,
    bindRoot places s = some s₁ ∧ bindGuest places s₁ = some s₂ ∧ bindCurrent recovery places s₂ = some s₃ ∧
    s₃.kCurrentUser.isSome = true ∧ t = { s₃ with kHostUser := none } := by
  obtain ⟨s₁, root, made⟩ := Option.bind_eq_some_iff.mp made
  obtain ⟨s₂, guest, made⟩ := Option.bind_eq_some_iff.mp made
  split at made
  · cases made
  obtain ⟨s₃, current, made⟩ := Option.bind_eq_some_iff.mp made
  split at made
  · cases made
  · next some =>
      exact ⟨s₁, s₂, s₃, root, guest, current, by simpa [Option.isSome_iff_ne_none] using some,
        (Option.some.inj made).symm⟩

theorem Bound.init (bound : Bound s) (free : places.Free s) (made : userInitStd recovery places s = some t) :
    Grows s t ∧ Bound t ∧ t.kCurrentUser.isSome = true := by
  obtain ⟨s₁, s₂, s₃, root, guest, current, some, rfl⟩ := userInitStd_cases made
  obtain ⟨grows₁, bound₁, unused₁⟩ := bound.bindRoot root free.root
  obtain ⟨grows₂, bound₂, unused₂⟩ := bound₁.bindGuest guest fun p member =>
    unused₁ p (free.guest p member).1 (free.guest p member).2
  obtain ⟨grows₃, bound₃⟩ := bound₂.bindCurrent current fun p member =>
    unused₂ p (unused₁ p (free.recovery p member).1 (free.recovery p member).2.1) (free.recovery p member).2.2
  obtain ⟨kept, fresh⟩ := (grows₁.trans grows₂).trans grows₃
  exact ⟨⟨kept, fresh⟩, ⟨bound₃.root, bound₃.guest, bound₃.current⟩, some⟩

/-- A user that changes keeps its ring. -/
theorem Bound.update (bound : Bound s) {user' : User} (here : s.heap p = some user)
    (same : user'.mUserRing = user.mUserRing) :
    Bound { s with heap := Function.update s.heap p (some user') } := by
  have points (pointer : Option ℕ) (rings : List UserRingKind) (before : PointsTo s pointer rings) :
      PointsTo { s with heap := Function.update s.heap p (some user') } pointer rings := by
    intro q member
    obtain ⟨other, there, kind⟩ := before q member
    by_cases equal : q = p
    · subst equal
      obtain rfl := Option.some.inj (here.symm.trans there)
      exact ⟨user', Function.update_self _ _ _, by rw [same]; exact kind⟩
    · exact ⟨other, (Function.update_of_ne equal _ _).trans there, kind⟩
  exact ⟨points _ _ bound.root, points _ _ bound.guest, points _ _ bound.current⟩

theorem save_ring {password : Option (List Byte)} : (user.save password).2.mUserRing = user.mUserRing := by
  unfold User.save
  split <;> rfl

theorem Bound.step (bound : Bound s) (step : UserStep event s t) : Bound t := by
  cases event with
  | init recovery places => exact (bound.init step.1 step.2).2.1
  | save p password =>
      obtain ⟨user, here, rfl⟩ := step
      exact bound.update here save_ring
  | adult p adult =>
      obtain ⟨user, here, rfl⟩ := step
      exact bound.update here rfl
  | install name proc =>
      obtain rfl := step
      exact ⟨bound.root, bound.guest, bound.current⟩

theorem bound_boot : Bound (Users.boot : Users P) := by
  refine ⟨?_, ?_, ?_⟩ <;> (intro p member; cases member)

theorem Bound.not_root (bound : Bound s) : ¬ s.rootIsCurrent := by
  rintro ⟨some, same, -⟩
  obtain ⟨p, root⟩ := Option.ne_none_iff_exists'.mp some
  obtain ⟨user, here, super⟩ := bound.root p root
  obtain ⟨user', here', guest⟩ := bound.current p (same.trans root)
  obtain rfl := Option.some.inj (here.symm.trans here')
  rw [List.mem_singleton.mp super] at guest
  exact absurd guest (by decide)

theorem current_step (bound : Bound s) (step : UserStep event s t) : t.kCurrentUser.isSome = true ↔
    s.kCurrentUser.isSome = true ∨ ∃ recovery places, event = .init recovery places := by
  cases event with
  | init recovery places =>
      exact iff_of_true (bound.init step.1 step.2).2.2 (.inr ⟨recovery, places, rfl⟩)
  | save p password =>
      obtain ⟨user, here, rfl⟩ := step
      simp
  | adult p adult =>
      obtain ⟨user, here, rfl⟩ := step
      simp
  | install name proc =>
      obtain rfl := step
      simp [keInstallKerncall]

theorem current_run (run : Run UserStep s events t) (bound : Bound s) : t.kCurrentUser.isSome = true ↔
    s.kCurrentUser.isSome = true ∨ ∃ recovery places, UserEvent.init recovery places ∈ events := by
  induction run with
  | nil => simp
  | cons head _ ih =>
      rw [ih (bound.step head), current_step bound head]
      simp only [List.mem_cons, or_assoc, exists_or]
      simp only [eq_comm]

end Steps

/-- No sequence of initialisations, saved passwords and installed kernel calls lets a kernel call through, on either
machine: the user that is current is never the root user. System calls are let through from the first initialisation
that is not stopped. -/
theorem kernel_calls_ignored (events : List (UserEvent P)) (s : Users P) (run : Run UserStep Users.boot events s) :
    (∀ call, halKernelCallEnter call s = none ∧ halKernelCallEnterArm64 call s = []) ∧
    (s.kCurrentUser.isSome = true ↔ ∃ recovery places, UserEvent.init recovery places ∈ events) ∧
    PointsTo s s.kCurrentUser [.kRingGuestUser, .kRingRecoveryUser] := by
  have bound : Bound s := run.invariant (fun _ _ _ bound step => bound.step step) bound_boot
  refine ⟨fun call => ⟨if_pos bound.not_root, if_pos bound.not_root⟩, ?_, bound.current⟩
  rw [current_run run bound_boot]
  simp [Users.boot]

/-- The users of a machine that was not asked to recover. -/
def guestUsers : Users Bool := (userInitStd false ⟨some 0, some 1, none⟩ .boot).getD .boot

theorem guestUsers_init : UserStep (.init false ⟨some 0, some 1, none⟩) .boot guestUsers :=
  ⟨⟨by simp [Users.boot], by simp [Users.boot], by simp⟩, rfl⟩

theorem kernel_calls_ignored_guest : halKernelCallEnter ⟨1, 0, 1, 0⟩ guestUsers = none :=
  ((kernel_calls_ignored _ guestUsers (.single guestUsers_init)).1 _).1

/-! ## Passwords -/

section Passwords
variable {s t : Users P} {p : ℕ} {event : UserEvent P} {events : List (UserEvent P)} {widen : Byte → BitVec 64}
  {hash hash' : BitVec 64} {front text : List Byte} {c d : Byte} {password : Option (List Byte)} {user : User}

theorem charWord_injective (same : charWord c = charWord d) : c = d := by
  have back (c : Byte) : (charWord c).setWidth 8 = c := by
    revert c
    decide
  rw [← back c, same, back]

theorem hashWhile_front (nonzero : ∀ c ∈ front, c ≠ 0) :
    hashWhile widen hash (front ++ text) = hashWhile widen (hashWhile widen hash front) text := by
  induction front generalizing hash with
  | nil => rfl
  | cons c front ih =>
      have first := nonzero c List.mem_cons_self
      rw [List.cons_append, hashWhile, hashWhile, if_neg first, if_neg first]
      exact ih fun d member => nonzero d (List.mem_cons_of_mem _ member)

/-- What differs before a text differs behind it. -/
theorem hashWhile_injective (same : hashWhile widen hash text = hashWhile widen hash' text) : hash = hash' := by
  induction text generalizing hash hash' with
  | nil => exact same
  | cons c text ih =>
      rw [hashWhile, hashWhile] at same
      split at same
      · exact same
      · have mixed := mul_injective kFNVPrime_unit (ih same)
        rwa [xor_eq_iff, BitVec.xor_self, BitVec.xor_eq_zero_iff] at mixed

/-- A password that differs in one character has another hash. -/
theorem password_apart (nonzero : ∀ c ∈ front, c ≠ 0) (left : c ≠ 0) (right : d ≠ 0) (apart : d ≠ c) :
    User.userFnvGenerator (some (front ++ d :: text)) ≠ User.userFnvGenerator (some (front ++ c :: text)) := by
  have named (e : Byte) (some' : e ≠ 0) : ¬ unnamed (some (front ++ e :: text)) := by
    cases front with
    | nil => exact some'
    | cons c front => exact nonzero c List.mem_cons_self
  unfold User.userFnvGenerator
  rw [if_neg (named d right), if_neg (named c left), Option.getD_some, Option.getD_some, hashWhile_front nonzero,
    hashWhile_front nonzero, hashWhile, hashWhile, if_neg right, if_neg left]
  intro same
  have mixed := mul_injective kFNVPrime_unit (hashWhile_injective same)
  rw [xor_eq_iff, BitVec.xor_self] at mixed
  exact apart (charWord_injective (BitVec.xor_eq_zero_iff.mp mixed.symm))

/-- The hash that a user's place holds. -/
def fnvAt (s : Users P) (p : ℕ) : BitVec 64 := (s.heap p).elim 0 User.mUserFNV

def savedStep (p : ℕ) (hash : BitVec 64) : UserEvent P → BitVec 64
  | .save q password => if q = p ∧ ¬ unnamed password then User.userFnvGenerator password else hash
  | _ => hash

/-- The hash of the last password that was saved for a user and not empty. -/
def savedHash (p : ℕ) (events : List (UserEvent P)) : BitVec 64 := events.foldl (savedStep p) 0

theorem fnvAt_update {user' : User} {q : ℕ} :
    fnvAt { s with heap := Function.update s.heap q (some user') } p = if q = p then user'.mUserFNV else fnvAt s p := by
  unfold fnvAt
  dsimp only
  split
  · next same =>
      rw [same, Function.update_self]
      rfl
  · next apart => rw [Function.update_of_ne (Ne.symm apart)]

theorem fnvAt_step (bound : Bound s) (step : UserStep event s t) : fnvAt t p = savedStep p (fnvAt s p) event := by
  cases event with
  | init recovery places =>
      have grows := (bound.init step.1 step.2).1
      show fnvAt t p = fnvAt s p
      unfold fnvAt
      cases before : s.heap p with
      | some user => rw [grows.kept p user before]
      | none =>
          cases after : t.heap p with
          | none => rfl
          | some user => exact grows.fresh p user after before
  | save q password =>
      obtain ⟨user, here, rfl⟩ := step
      rw [fnvAt_update, savedStep]
      by_cases same : q = p
      · subst same
        have old : fnvAt s q = user.mUserFNV := by
          unfold fnvAt
          rw [here]
          rfl
        rw [if_pos rfl, User.save, old]
        by_cases empty : unnamed password
        · rw [if_pos empty, if_neg fun both => both.2 empty]
        · rw [if_neg empty, if_pos ⟨rfl, empty⟩]
      · rw [if_neg same, if_neg fun both => same both.1]
  | adult q adult =>
      obtain ⟨user, here, rfl⟩ := step
      rw [fnvAt_update]
      split
      · next same =>
          subst same
          show user.mUserFNV = (s.heap q).elim 0 User.mUserFNV
          rw [here]
          rfl
      · rfl
  | install name proc =>
      obtain rfl := step
      rfl

theorem fnvAt_run (run : Run UserStep s events t) (bound : Bound s) :
    fnvAt t p = events.foldl (savedStep p) (fnvAt s p) := by
  induction run with
  | nil => rfl
  | cons head _ ih => rw [ih (bound.step head), fnvAt_step bound head, List.foldl_cons]

theorem login_iff (run : Run UserStep Users.boot events s) (here : s.heap p = some user) :
    user.login password = true ↔ ¬ unnamed password ∧ User.userFnvGenerator password = savedHash p events := by
  have saved := @fnvAt_run P Users.boot s p events run bound_boot
  have hash : user.mUserFNV = savedHash p events := by
    unfold fnvAt at saved
    rw [here] at saved
    exact saved
  unfold User.login
  split
  · next empty => exact iff_of_false (by simp) fun both => both.1 empty
  · next some => rw [decide_eq_true_iff, hash, eq_comm, and_iff_right some]

theorem savedHash_last {before after : List (UserEvent P)} (named : ¬ unnamed password)
    (last : ∀ later, UserEvent.save p later ∈ after → unnamed later) :
    savedHash p (before ++ .save p password :: after) = User.userFnvGenerator password := by
  unfold savedHash
  rw [List.foldl_append, List.foldl_cons, savedStep, if_pos ⟨rfl, named⟩]
  induction after with
  | nil => rfl
  | cons event after ih =>
      have idle : savedStep p (User.userFnvGenerator password) event = User.userFnvGenerator password := by
        cases event with
        | save q later =>
            refine if_neg fun both => both.2 (last later ?_)
            rw [both.1]
            exact List.mem_cons_self
        | _ => rfl
      rw [List.foldl_cons, idle]
      exact ih fun later member => last later (List.mem_cons_of_mem _ member)

end Passwords

/-- In every run a user's password is the last one that was saved and not empty. It is accepted, an empty one is not,
and neither is one that differs from it in a single character. -/
theorem login_meets (before after : List (UserEvent P)) (password : Option (List Byte)) (s : Users P) (p : ℕ)
    (user : User) (run : Run UserStep Users.boot (before ++ .save p password :: after) s)
    (here : s.heap p = some user) (named : ¬ unnamed password)
    (last : ∀ later, UserEvent.save p later ∈ after → unnamed later) :
    user.login password = true ∧ (∀ empty, unnamed empty → user.login empty = false) ∧
    ∀ front c d rest, password = some (front ++ c :: rest) → (∀ e ∈ front, e ≠ 0) → c ≠ 0 → d ≠ 0 → d ≠ c →
      user.login (some (front ++ d :: rest)) = false := by
  have saved := @savedHash_last P p password before after named last
  refine ⟨(login_iff run here).mpr ⟨named, saved.symm⟩, fun empty none => if_pos none, ?_⟩
  rintro front c d rest rfl nonzero left right apart
  refine Bool.eq_false_iff.mpr fun accepted => ?_
  obtain ⟨-, same⟩ := (login_iff run here).mp accepted
  exact password_apart nonzero left right apart (same.trans saved)

theorem login_meets_guest : ∃ user, (user : User).login (some [0x61]) = true := by
  have guest : ∃ user, guestUsers.heap 1 = some user := ⟨_, rfl⟩
  obtain ⟨user, here⟩ := guest
  have saved : Function.update guestUsers.heap 1 (some (user.save (some [0x61])).2) 1 =
      some (user.save (some [0x61])).2 := Function.update_self _ _ _
  refine ⟨(user.save (some [0x61])).2, ?_⟩
  exact (login_meets [.init false ⟨some 0, some 1, none⟩] [] (some [0x61]) _ 1 _
    (.cons guestUsers_init (.single ⟨user, here, rfl⟩)) saved (by decide) (by simp)).1

/-! ## The system calls of ARM64 -/

section Arm64
variable {table next : SysCalls P} {bindings given : List (BitVec 64 × P)} {hash arg : BitVec 64} {stops : Bool}
  {left i : ℕ} {call : Install P} {calls : List (Install P)}

theorem Holds.arm64From_eq (holds : Holds table bindings) : arm64From table hash stops left i =
    (((bindings.drop i).take left).filter fun binding => decide (binding.1 = hash)).map Prod.snd := by
  induction left generalizing i with
  | zero => simp [arm64From]
  | succ left ih =>
      rw [arm64From, ih]
      by_cases inside : i < bindings.length
      · rw [holds.hooked i bindings[i] (by simp [inside]), List.drop_eq_getElem_cons inside, List.take_succ_cons]
        by_cases here : bindings[i].1 = hash
        · simp [here]
        · have apart : ¬ hash = bindings[i].1 := fun same => here same.symm
          simp [here, apart]
      · have none : (table i).fHooked = false := holds.free i (by omega)
        rw [if_neg (by simp [none]), List.drop_eq_nil_of_le (by omega), List.drop_eq_nil_of_le (by omega)]
        simp

/-- What a call of `ke_install_syscall` would bind. -/
def offered (call : Install P) : Option (BitVec 64 × P) :=
  if keHash64 call.name = 0 then none else call.proc.map (keHash64 call.name, ·)

theorem offered_none (none : offered call = none) : (keInstallSyscall call.name call.proc table).2 = table := by
  unfold keInstallSyscall
  dsimp only
  split
  · rfl
  cases isProc : call.proc with
  | none => rw [if_pos (.inr rfl)]
  | some proc =>
      have zero : keHash64 call.name = 0 := by
        by_contra nonzero
        rw [offered, if_neg nonzero, isProc] at none
        cases none
      rw [if_pos (.inl zero)]

theorem Holds.offered_some (holds : Holds table bindings) {binding : BitVec 64 × P}
    (some : offered call = some binding) : (keInstallSyscall call.name call.proc table).2 =
      if bindings.length < kMaxDispatchCallCount then
        Function.update table bindings.length ⟨binding.1, true, Option.some binding.2⟩
      else table := by
  have nonzero : keHash64 call.name ≠ 0 := by
    intro zero
    rw [offered, if_pos zero] at some
    cases some
  rw [offered, if_neg nonzero] at some
  obtain ⟨proc, isProc, rfl⟩ := Option.map_eq_some_iff.mp some
  have named : ¬ unnamed call.name := fun empty => nonzero (if_pos empty)
  have valid : ¬ (keHash64 call.name = 0 ∨ (Option.some proc).isNone = true) := not_or.mpr ⟨nonzero, by simp⟩
  rw [keInstallSyscall, if_neg named, isProc]
  dsimp only
  rw [if_neg valid, holds.freeSlot_eq (Nat.zero_le _) (Nat.zero_add _)]
  by_cases room : bindings.length < kMaxDispatchCallCount
  · rw [if_pos room, if_pos room]
  · rw [if_neg room, if_neg room]

theorem Holds.install (holds : Holds table (given.take kMaxDispatchCallCount)) (step : InstallStep call table next) :
    Holds next ((given ++ (offered call).toList).take kMaxDispatchCallCount) := by
  rw [step]
  cases binds : offered call with
  | none => rwa [offered_none binds, Option.toList_none, List.append_nil]
  | some binding =>
      rw [holds.offered_some binds, List.length_take, Option.toList_some]
      by_cases room : given.length < kMaxDispatchCallCount
      · rw [Nat.min_eq_right room.le, if_pos room, List.take_of_length_le (by rw [List.length_append]; exact room)]
        rw [List.take_of_length_le room.le] at holds
        exact holds.append room
      · rw [Nat.min_eq_left (Nat.le_of_not_lt room), if_neg (lt_irrefl _),
          List.take_append_of_le_length (Nat.le_of_not_lt room)]
        exact holds

theorem Holds.installs (holds : Holds table (given.take kMaxDispatchCallCount))
    (run : Run InstallStep table calls next) :
    Holds next ((given ++ calls.filterMap offered).take kMaxDispatchCallCount) := by
  induction run generalizing given with
  | nil => rwa [List.filterMap_nil, List.append_nil]
  | @cons _ _ _ call calls head _ ih =>
      have later := ih (holds.install head)
      have joined : (call :: calls).filterMap offered = (offered call).toList ++ calls.filterMap offered := by
        rw [List.filterMap_cons]
        cases offered call <;> rfl
      rwa [joined, ← List.append_assoc]

end Arm64

/-- What was bound under a hash by the calls that found a free slot, in order. -/
def boundAll (calls : List (Install P)) (hash : BitVec 64) : List P :=
  (((calls.filterMap offered).take kMaxDispatchCallCount).filter fun binding => decide (binding.1 = hash)).map Prod.snd

/-- Whatever was installed, a system call on ARM64 runs every procedure that was bound under its hash, in the order in
which they were bound. On AMD64 it runs the first of them, and stops the machine if there is none. -/
theorem entries_after_installs (calls : List (Install P)) (table : SysCalls P)
    (run : Run InstallStep kSysCalls calls table) (kCurrentUser : Bool) (hash arg : BitVec 64) :
    halSystemCallEnterArm64 kCurrentUser hash arg table =
      (if kCurrentUser = true ∧ arg ≠ 0 ∧ hash ≠ 0 then boundAll calls hash else []) ∧
    halSystemCallEnter kCurrentUser hash arg table =
      (if kCurrentUser = true ∧ arg ≠ 0 ∧ hash ≠ 0 then
        ((boundAll calls hash).head?.map (Entered.ran · arg)).getD .stopped
      else .ignored) := by
  have holds : Holds table (([] ++ calls.filterMap offered).take kMaxDispatchCallCount) := holds_boot.installs run
  rw [List.nil_append] at holds
  by_cases valid : kCurrentUser = true ∧ arg ≠ 0 ∧ hash ≠ 0
  · rw [if_pos valid, if_pos valid]
    obtain ⟨rfl, argued, some⟩ := valid
    refine ⟨?_, ?_⟩
    · rw [halSystemCallEnterArm64, if_neg (by simp), if_neg (not_or.mpr ⟨argued, some⟩), holds.arm64From_eq,
        List.drop_zero, List.take_of_length_le holds.room, boundAll]
    · rw [holds.enter_eq some argued, bound, boundAll, List.head?_map, List.head?_filter]
  · rw [if_neg valid, if_neg valid]
    refine ⟨?_, enter_ignored valid⟩
    unfold halSystemCallEnterArm64
    split
    · rfl
    split
    · rfl
    · next user argued =>
        refine absurd ⟨by simpa using user, not_or.mp argued⟩ valid

theorem entries_after_installs_one :
    halSystemCallEnterArm64 true 1 1 (keInstallSyscall (some [0x61]) (some true) kSysCalls).2 =
      if true = true ∧ (1 : BitVec 64) ≠ 0 ∧ (1 : BitVec 64) ≠ 0 then boundAll [⟨some [0x61], some true⟩] 1 else [] :=
  (entries_after_installs [⟨some [0x61], some true⟩] _ (.single rfl) true 1 1).1

end Ne.Kernel.Arch
