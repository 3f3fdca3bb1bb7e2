import NeKernel.Hal.FrameCores

/-!
# Frames in the hands of several cores

While the two sections exclude each other, each call goes on with what it has read, and the frames move one
at a time between the free list and the cores.
-/

namespace Ne.Kernel.HAL
open ByteMem Runs

/-! ## The frames of the cores -/

/-- What a core's frames become, and with them the frames handed out. -/
def Passes (mine mine' held held' : List UIntPtr) : Prop :=
  (held' = held ∧ mine'.Perm mine) ∨
  (∃ frame, frame ∉ held ∧ held' = frame :: held ∧ mine'.Perm (frame :: mine)) ∨
  (∃ frame, held' = held.erase frame ∧ mine.Perm (frame :: mine'))

theorem Moves.passes {point new : Point} {held held' : List UIntPtr} (moves : Moves point new held held')
    (rest : List UIntPtr) : Passes (point.carried ++ rest) (new.carried ++ rest) held held' := by
  rcases moves with ⟨rfl, same⟩ | ⟨frame, fresh, rfl, none, one⟩ | ⟨frame, rfl, one, none⟩
  · exact .inl ⟨rfl, by rw [same]⟩
  · exact .inr (.inl ⟨frame, fresh, rfl, by rw [none, one]; rfl⟩)
  · exact .inr (.inr ⟨frame, rfl, by rw [none, one]; rfl⟩)

theorem Passes.out {mine mine' held held' : List UIntPtr} {others : UIntPtr → Prop}
    (passes : Passes mine mine' held held')
    (out : ∀ frame, frame ∈ held ↔ frame ∈ mine ∨ others frame) (apart : ∀ frame ∈ mine, ¬ others frame)
    (single : held.Nodup) (once : mine.Nodup) :
    (∀ frame, frame ∈ held' ↔ frame ∈ mine' ∨ others frame) ∧ (∀ frame ∈ mine', ¬ others frame) ∧ mine'.Nodup := by
  rcases passes with ⟨rfl, same⟩ | ⟨taken, fresh, rfl, more⟩ | ⟨given, rfl, fewer⟩
  · refine ⟨fun frame => ?_, fun frame member => apart frame (same.mem_iff.mp member), same.nodup_iff.mpr once⟩
    rw [out, same.mem_iff]
  · have unowned : taken ∉ mine ∧ ¬ others taken := by
      rwa [out, not_or] at fresh
    refine ⟨fun frame => ?_, fun frame member => ?_, more.nodup_iff.mpr (List.nodup_cons.mpr ⟨unowned.1, once⟩)⟩
    · rw [List.mem_cons, out, more.mem_iff, List.mem_cons, or_assoc]
    · rcases List.mem_cons.mp (more.mem_iff.mp member) with rfl | member
      · exact unowned.2
      · exact apart frame member
  · obtain ⟨gone, once⟩ := List.nodup_cons.mp (fewer.nodup_iff.mp once)
    have mem (frame : UIntPtr) : frame ∈ mine ↔ frame = given ∨ frame ∈ mine' := by
      rw [fewer.mem_iff, List.mem_cons]
    refine ⟨fun frame => ?_, fun frame member => apart frame ((mem frame).mpr (.inr member)), once⟩
    rw [single.mem_erase_iff, out, mem]
    by_cases same : frame = given
    · subst same
      have alone := apart frame ((mem frame).mpr (.inl rfl))
      simp [gone, alone]
    · simp [same]

namespace Cores
variable {ι : Type*}

/-- The frames handed out are those in the cores' hands, each in one. -/
structure Owned (s : Cores ι) (held free : List UIntPtr) : Prop where
  pool : Pool s.pmm held free
  owner : ∀ frame, frame ∈ held ↔ ∃ p, frame ∈ s.frames p
  exclusive : ∀ p q frame, frame ∈ s.frames p → frame ∈ s.frames q → p = q
  once : ∀ p, (s.frames p).Nodup
  freed : ∀ frame ∈ s.freed, frame ∈ free ∨ frame ∈ held
  reads : ∀ p point, s.points p = some point → point.Read s.pmm

section Owned
variable {s s' : Cores ι} {held held' free free' : List UIntPtr} {core p : ι} {point : Point}

theorem Owned.ownedOnce (owned : Owned s held free) : OwnedOnce s where
  exclusive := owned.exclusive
  kept frame given := by
    rcases owned.freed frame given with listed | out
    · exact .inl ⟨free, owned.pool.chain, listed⟩
    · exact .inr ((owned.owner frame).mp out)

theorem Owned.carried (owned : Owned s held free) (position : s.points p = some point) :
    ∀ frame ∈ point.carried, frame ∈ held := by
  intro frame member
  refine (owned.owner frame).mpr ⟨p, ?_⟩
  rw [frames, position]
  exact List.mem_append_left _ member

theorem Owned.out_iff (owned : Owned s held free) (core : ι) (frame : UIntPtr) :
    frame ∈ held ↔ frame ∈ s.frames core ∨ ∃ p, p ≠ core ∧ frame ∈ s.frames p := by
  rw [owned.owner]
  constructor
  · rintro ⟨p, member⟩
    by_cases own : p = core
    · exact .inl (own ▸ member)
    · exact .inr ⟨p, own, member⟩
  · rintro (member | ⟨p, -, member⟩)
    · exact ⟨core, member⟩
    · exact ⟨p, member⟩

theorem Owned.change (owned : Owned s held free)
    (others : ∀ p, p ≠ core → s'.frames p = s.frames p) (pool : Pool s'.pmm held' free')
    (passes : Passes (s.frames core) (s'.frames core) held held')
    (freed : ∀ frame ∈ s'.freed, frame ∈ free' ∨ frame ∈ held')
    (reads : ∀ p point, s'.points p = some point → point.Read s'.pmm) : Owned s' held' free' := by
  have single := (List.nodup_append.mp owned.pool.nodup).2.1
  have elsewhere (frame : UIntPtr) (member : frame ∈ s.frames core) : ¬ ∃ p, p ≠ core ∧ frame ∈ s.frames p := by
    rintro ⟨p, other, too⟩
    exact other (owned.exclusive p core frame too member)
  obtain ⟨out, apart, once⟩ := passes.out (owned.out_iff core) elsewhere single (owned.once core)
  have same {p : ι} (other : p ≠ core) {frame : UIntPtr} : frame ∈ s'.frames p ↔ frame ∈ s.frames p := by
    rw [others p other]
  constructor
  · exact pool
  · intro frame
    rw [out]
    constructor
    · rintro (member | ⟨p, other, member⟩)
      · exact ⟨core, member⟩
      · exact ⟨p, (same other).mpr member⟩
    · rintro ⟨p, member⟩
      by_cases own : p = core
      · exact .inl (own ▸ member)
      · exact .inr ⟨p, own, (same own).mp member⟩
  · intro p q frame first second
    by_cases ownP : p = core
    · by_cases ownQ : q = core
      · rw [ownP, ownQ]
      · exact absurd ⟨q, ownQ, (same ownQ).mp second⟩ (apart frame (ownP ▸ first))
    · by_cases ownQ : q = core
      · exact absurd ⟨p, ownP, (same ownP).mp first⟩ (apart frame (ownQ ▸ second))
      · exact owned.exclusive p q frame ((same ownP).mp first) ((same ownQ).mp second)
  · intro p
    by_cases own : p = core
    · rwa [own]
    · rw [others p own]
      exact owned.once p
  · exact freed
  · exact reads

end Owned

/-! ## The two sections -/

/-- One core at most is between a lock's test and its clear, whichever lock it is, and that lock is set. -/
structure Sections (s : Cores ι) : Prop where
  alone : ∀ p q first second, s.points p = some first → s.points q = some second → first.within ≠ none →
    second.within ≠ none → p = q
  set : ∀ p point lock, s.points p = some point → point.within = some lock → s.locked lock = true

section Sections
variable [DecidableEq ι] {s s' : Cores ι} {core p q : ι} {point : Point} {lock : Lock} {target : Option Point}

omit [DecidableEq ι] in
theorem Sections.nobody (sections : Sections s) (clear : ∀ lock, s.locked lock = false)
    (position : s.points p = some point) : point.within = none := by
  cases within : point.within with
  | none => rfl
  | some lock => exact absurd (sections.set p point lock position within) (by simp [clear])

theorem points_update (points : s'.points = Function.update s.points core target)
    (position : s'.points p = some point) :
    (p = core ∧ target = some point) ∨ (p ≠ core ∧ s.points p = some point) := by
  by_cases own : p = core
  · subst own
    rw [points, Function.update_self] at position
    exact .inl ⟨rfl, position⟩
  · rw [points, Function.update_of_ne own] at position
    exact .inr ⟨own, position⟩

theorem Sections.goTo (sections : Sections s) (locked : s'.locked = s.locked)
    (points : s'.points = Function.update s.points core target)
    (same : ∀ new, target = some new → new.within ≠ none →
      ∃ old, s.points core = some old ∧ old.within = new.within) : Sections s' := by
  have before {p : ι} {point : Point} (position : s'.points p = some point) (inside : point.within ≠ none) :
      ∃ old, s.points p = some old ∧ old.within = point.within := by
    rcases points_update points position with ⟨rfl, leads⟩ | ⟨-, position⟩
    · exact same point leads inside
    · exact ⟨point, position, rfl⟩
  constructor
  · intro p q first second here there inside too
    obtain ⟨first', here', within⟩ := before here inside
    obtain ⟨second', there', within'⟩ := before there too
    exact sections.alone p q first' second' here' there' (within ▸ inside) (within' ▸ too)
  · intro p point lock position within
    obtain ⟨old, position', within'⟩ := before position (by simp [within])
    rw [locked]
    exact sections.set p old lock position' (within'.trans within)

theorem Sections.enter {new : Point} (sections : Sections s) (clear : ∀ lock, s.locked lock = false)
    (locked : s'.locked = Function.update s.locked lock true)
    (points : s'.points = Function.update s.points core (some new)) (within : new.within = some lock) :
    Sections s' := by
  have own {p : ι} {point : Point} (position : s'.points p = some point) (inside : point.within ≠ none) :
      p = core ∧ new = point := by
    rcases points_update points position with ⟨rfl, leads⟩ | ⟨-, position⟩
    · exact ⟨rfl, Option.some.inj leads⟩
    · exact absurd (sections.nobody clear position) inside
  constructor
  · intro p q first second here there inside too
    rw [(own here inside).1, (own there too).1]
  · intro p point lock' position within'
    obtain ⟨-, rfl⟩ := own position (by simp [within'])
    obtain rfl := Option.some.inj (within.symm.trans within')
    rw [locked, Function.update_self]

theorem Sections.leave (sections : Sections s) (position : s.points core = some point) (inside : point.within ≠ none)
    (points : s'.points = Function.update s.points core none) : Sections s' := by
  have none {p : ι} {other : Point} (position' : s'.points p = some other) : other.within = none := by
    rcases points_update points position' with ⟨-, leads⟩ | ⟨apart, before⟩
    · cases leads
    · by_contra too
      exact apart (sections.alone p core other point before position too inside)
  constructor
  · intro p q first second here _ inside _
    exact absurd (none here) inside
  · intro p other lock position' within
    rw [none position'] at within
    cases within

end Sections

/-! ## Steps -/

def CoresInv (s : Cores ι) : Prop := Sections s ∧ ∃ held free, Owned s held free

section Steps
variable [DecidableEq ι] {s s' : Cores ι} {held free : List UIntPtr} {core : ι} {point new : Point}
  {target : Option Point} {frame : UIntPtr}

theorem frames_other {p : ι} (points : s'.points = Function.update s.points core target)
    (held : ∀ p, p ≠ core → s'.held p = s.held p) (other : p ≠ core) : s'.frames p = s.frames p := by
  rw [frames, frames, points, Function.update_of_ne other, held p other]

theorem frames_goTo : (s.goTo core target).frames core = target.elim [] Point.carried ++ s.held core := by
  simp only [frames, goTo, Function.update_self]

theorem Owned.reads_update (owned : Owned s held free) (points : s'.points = Function.update s.points core target)
    (pmm : s'.pmm = s.pmm) (own : ∀ new, target = some new → new.Read s.pmm) (p : ι) (point : Point)
    (position : s'.points p = some point) : point.Read s'.pmm := by
  rw [pmm]
  rcases points_update points position with ⟨-, leads⟩ | ⟨-, position⟩
  · exact own point leads
  · exact owned.reads p point position

theorem Owned.goTo (owned : Owned s held free) (points : s'.points = Function.update s.points core target)
    (pmm : s'.pmm = s.pmm) (freed : s'.freed = s.freed) (others : ∀ p, p ≠ core → s'.held p = s.held p)
    (frames : s'.frames core = s.frames core) (own : ∀ new, target = some new → new.Read s.pmm) :
    Owned s' held free := by
  refine owned.change (fun p => frames_other points others) (pmm ▸ owned.pool) (.inl ⟨rfl, by rw [frames]⟩) ?_ ?_
  · rw [freed]
    exact owned.freed
  · exact owned.reads_update points pmm own

theorem after_plain (leads : point.next s.pmm = some new) :
    s.after core point = { s with pmm := point.store s.pmm }.goTo core (some new) := by
  rw [← leads]
  cases point with
  | allocSpin | freeSpin | allocClear | freeClear => cases leads
  | _ => rfl

theorem CoresInv.plain (inv : CoresInv s) (position : s.points core = some point)
    (leads : point.next s.pmm = some new) : CoresInv (s.after core point) := by
  obtain ⟨sections, held, free, owned⟩ := inv
  obtain ⟨held', free', pool, moves, kept⟩ := owned.pool.access (owned.reads core point position)
    (owned.carried position) leads
  rw [after_plain leads]
  refine ⟨sections.goTo rfl rfl ?_, held', free', ?_⟩
  · rintro _ ⟨⟩ -
    exact ⟨point, position, (next_within leads).symm⟩
  · refine owned.change (fun p => frames_other rfl fun _ _ => rfl) pool ?_ (fun frame given => ?_) ?_
    · rw [frames_goTo, frames, position]
      exact moves.passes _
    · exact kept frame (owned.freed frame given)
    · intro p other there
      rcases points_update rfl there with ⟨-, same⟩ | ⟨apart, there⟩
      · obtain rfl := Option.some.inj same
        exact (owned.reads core point position).next leads
      · by_cases outside : point.within = none
        · have same : point.store s.pmm = s.pmm := store_outside_section outside
          change other.Read (point.store s.pmm)
          rw [same]
          exact owned.reads p other there
        · apply read_outside
          by_contra inside
          exact apart (sections.alone p core other point there position inside outside)

theorem CoresInv.spin {lock : Lock} (inv : CoresInv s) (position : s.points core = some point)
    (set : s.locked lock = true) :
    CoresInv ((s.setLock lock true).goTo core (some point)) := by
  obtain ⟨sections, held, free, owned⟩ := inv
  have locked : Function.update s.locked lock true = s.locked := by
    rw [← set, Function.update_eq_self]
  refine ⟨sections.goTo locked rfl ?_, held, free, owned.goTo rfl rfl rfl (fun _ _ => rfl) ?_ ?_⟩
  · rintro _ ⟨⟩ inside
    exact ⟨point, position, rfl⟩
  · rw [frames_goTo, frames, position]
    rfl
  · rintro _ ⟨⟩
    exact owned.reads core point position

theorem CoresInv.enter {lock : Lock} (inv : CoresInv s) (position : s.points core = some point)
    (clear : ∀ lock, s.locked lock = false) (within : new.within = some lock) (carried : new.carried = point.carried)
    (reads : new.Read s.pmm) : CoresInv ((s.setLock lock true).goTo core (some new)) := by
  obtain ⟨sections, held, free, owned⟩ := inv
  refine ⟨sections.enter clear rfl rfl within, held, free, owned.goTo rfl rfl rfl (fun _ _ => rfl) ?_ ?_⟩
  · rw [frames_goTo, frames, position]
    exact congrArg (· ++ s.held core) carried
  · rintro _ ⟨⟩
    exact reads

theorem CoresInv.allocClear (inv : CoresInv s) (position : s.points core = some (.allocClear frame)) :
    CoresInv (s.after core (.allocClear frame)) := by
  obtain ⟨sections, held, free, owned⟩ := inv
  refine ⟨sections.leave position (by simp [Point.within]) rfl, held, free,
    owned.goTo rfl rfl rfl (fun p other => Function.update_of_ne other _ _) ?_ (by rintro _ ⟨⟩)⟩
  rw [after, frames_goTo, frames, position]
  simp only [Function.update_self, Option.elim, Point.carried]
  split <;> rfl

theorem CoresInv.freeClear (inv : CoresInv s) (position : s.points core = some .freeClear) :
    CoresInv (s.after core .freeClear) := by
  obtain ⟨sections, held, free, owned⟩ := inv
  refine ⟨sections.leave position (by simp [Point.within]) rfl, held, free,
    owned.goTo rfl rfl rfl (fun _ _ => rfl) ?_ (by rintro _ ⟨⟩)⟩
  rw [after, frames_goTo, frames, position]
  rfl

theorem CoresInv.next (inv : CoresInv s) (apart : LocksApart (.next core) s) (position : s.points core = some point) :
    CoresInv (s.after core point) := by
  cases leads : point.next s.pmm with
  | some new => exact inv.plain position leads
  | none =>
      obtain ⟨-, held, free, owned⟩ := id inv
      have clear {lock : Lock} (spins : point.spins = some lock) (clear : s.locked lock = false) :
          ∀ lock, s.locked lock = false := apart core point lock rfl position spins clear
      rcases owned.pool.stops (owned.carried position) leads with rfl | ⟨frame, rfl⟩ | ⟨frame, rfl⟩ | rfl
      · cases set : s.locked .alloc with
        | true =>
            rw [after, set, if_pos rfl]
            exact inv.spin position set
        | false =>
            rw [after, set, if_neg Bool.false_ne_true]
            exact inv.enter position (clear rfl set) rfl rfl trivial
      · cases set : s.locked .free with
        | true =>
            rw [after, set, if_pos rfl]
            exact inv.spin position set
        | false =>
            rw [after, set, if_neg Bool.false_ne_true]
            exact inv.enter position (clear rfl set) rfl rfl trivial
      · exact inv.allocClear position
      · exact inv.freeClear position

theorem CoresInv.beginAlloc (inv : CoresInv s) (idle : s.points core = none) :
    CoresInv (s.goTo core (some .allocSpin)) := by
  obtain ⟨sections, held, free, owned⟩ := inv
  refine ⟨sections.goTo rfl rfl ?_, held, free, owned.goTo rfl rfl rfl (fun _ _ => rfl) ?_ ?_⟩
  · rintro _ ⟨⟩ inside
    exact absurd rfl inside
  · rw [frames_goTo, frames, idle]
    rfl
  · rintro _ ⟨⟩
    trivial

theorem CoresInv.beginFree (inv : CoresInv s) (idle : s.points core = none) (mine : frame ∈ s.held core) :
    CoresInv ((s.give core frame).goTo core
      (if frame = 0 ∨ frame &&& kPmmAlign ≠ 0 then none else some (.testBase frame))) := by
  obtain ⟨sections, held, free, owned⟩ := inv
  have out : frame ∈ held := (owned.owner frame).mpr ⟨core, by rw [frames, idle]; exact mine⟩
  have good : ¬ (frame = 0 ∨ frame &&& kPmmAlign ≠ 0) := by
    obtain ⟨nonnull, aligned, -⟩ := owned.pool.isFrame out
    rintro (zero | offset)
    · exact nonnull zero
    · exact offset (BitVec.eq_of_toNat_eq ((and_kPmmAlign frame).trans aligned))
  have others (p : ι) (other : p ≠ core) : Function.update s.held core ((s.held core).erase frame) p = s.held p :=
    Function.update_of_ne other _ _
  rw [if_neg good]
  refine ⟨sections.goTo rfl rfl ?_, held, free,
    owned.change (fun p (other : p ≠ core) => frames_other rfl others other) owned.pool ?_ ?_ ?_⟩
  · rintro _ ⟨⟩ inside
    exact absurd rfl inside
  · rw [frames_goTo, frames, idle]
    refine .inl ⟨rfl, ?_⟩
    simp only [give, Function.update_self]
    exact (List.perm_cons_erase mine).symm
  · intro g given
    rcases List.mem_cons.mp given with rfl | given
    · exact .inr out
    · exact owned.freed g given
  · refine owned.reads_update rfl rfl ?_
    rintro _ ⟨⟩
    trivial

omit [DecidableEq ι] in
theorem CoresInv.write {x : UIntPtr} {value : Byte} (inv : CoresInv s) (mine : frame ∈ s.held core)
    (inside : Within frame kPageSize x) :
    CoresInv { s with pmm := { s.pmm with mem := Function.update s.pmm.mem x value } } := by
  obtain ⟨sections, held, free, owned⟩ := inv
  have out : frame ∈ held := (owned.owner frame).mpr ⟨core, List.mem_append_right _ mine⟩
  have same : SameOutside frame kPageSize s.pmm.mem (Function.update s.pmm.mem x value) := by
    intro y outside
    apply Function.update_of_ne
    rintro rfl
    exact outside inside
  refine ⟨⟨sections.alone, sections.set⟩, held, free, ?_⟩
  refine owned.change (fun p (_ : p ≠ core) => rfl) (owned.pool.write out same) (.inl ⟨rfl, .refl _⟩) owned.freed ?_
  intro p point position
  refine (owned.reads p point position).write owned.pool out
    (fun g carried => ⟨owned.carried position g carried, ?_⟩) same
  rintro rfl
  have carriedHere : g ∈ s.frames p := by
    rw [frames, position]
    exact List.mem_append_left _ carried
  obtain rfl := owned.exclusive p core g carriedHere (List.mem_append_right _ mine)
  have once := owned.once p
  rw [frames, position] at once
  exact (List.nodup_append.mp once).2.2 g carried g mine rfl

theorem coresInv_step (step : CoreStep ι) (s s' : Cores ι) (inv : CoresInv s)
    (taken : Guarded LocksApart Takes step s s') : CoresInv s' := by
  obtain ⟨apart, taken⟩ := taken
  cases step with
  | alloc core =>
      obtain ⟨idle, same⟩ := Option.ite_none_left_eq_some.mp taken
      obtain rfl := Option.some.inj same
      exact inv.beginAlloc (by simpa using idle)
  | free core frame =>
      obtain ⟨allowed, same⟩ := Option.ite_none_left_eq_some.mp taken
      obtain rfl := Option.some.inj same
      obtain ⟨idle, mine⟩ := not_or.mp allowed
      exact inv.beginFree (by simpa using idle) (not_not.mp mine)
  | write core x value =>
      by_cases allowed : ∃ frame ∈ s.held core, Within frame kPageSize x
      · rw [Takes, Cores.run, if_pos allowed] at taken
        obtain rfl := Option.some.inj taken
        obtain ⟨frame, mine, inside⟩ := allowed
        exact inv.write mine inside
      · rw [Takes, Cores.run, if_neg allowed] at taken
        cases taken
  | next core =>
      obtain ⟨point, position, rfl⟩ := Option.map_eq_some_iff.mp taken
      exact inv.next apart position

omit [DecidableEq ι] in
theorem boot_coresInv (mem : Memory) (base : UIntPtr) (sz : SizeT) : CoresInv (boot mem base sz : Cores ι) := by
  refine ⟨⟨?_, ?_⟩, [], [], ?_⟩
  · rintro p q first second ⟨⟩
  · rintro p point lock ⟨⟩
  · constructor
    · exact ⟨_, _, _, frameInv_boot mem base sz⟩
    · simp [frames, boot]
    · simp [frames, boot]
    · simp [frames, boot]
    · simp [boot]
    · rintro p point ⟨⟩

end Steps

/-! ## Calls without company -/

section Company
variable {ι : Type*} [DecidableEq ι] {s t u : Cores ι} {core : ι} {point new : Point} {frame : UIntPtr}
  {target : Option Point}

/-- Some accesses of one core. -/
def Goes (core : ι) (s t : Cores ι) : Prop := ∃ n, Run Takes s (List.replicate n (.next core)) t

theorem Goes.refl (s : Cores ι) : Goes core s s := ⟨0, .nil s⟩

theorem Goes.trans (first : Goes core s t) (second : Goes core t u) : Goes core s u := by
  obtain ⟨n, first⟩ := first
  obtain ⟨m, second⟩ := second
  exact ⟨n + m, by rw [List.replicate_add]; exact first.append second⟩

theorem Goes.access : Goes core (s.goTo core (some point)) ((s.goTo core (some point)).after core point) := by
  refine ⟨1, .single ?_⟩
  simp [Takes, run, goTo]

theorem Goes.plain (leads : point.next s.pmm = some new) :
    Goes core (s.goTo core (some point)) ({ s with pmm := point.store s.pmm }.goTo core (some new)) := by
  have step : Goes core (s.goTo core (some point)) ((s.goTo core (some point)).after core point) := .access
  have leads : point.next (s.goTo core (some point)).pmm = some new := leads
  rw [after_plain leads] at step
  simpa [goTo] using step

theorem write_replicate {mem : Memory} {i : Nat} (bound : i < kPageSize) :
    Function.update (write mem frame (List.replicate i 0)) (frame + BitVec.ofNat 64 i) 0 =
      write mem frame (List.replicate (i + 1) 0) := by
  have small : i < 2 ^ 64 := Nat.lt_trans bound (by decide)
  funext x
  by_cases here : x = frame + BitVec.ofNat 64 i
  · subst here
    have inside : Within frame (i + 1) (frame + BitVec.ofNat 64 i) := within_add i small (Nat.lt_succ_self i)
    rw [Function.update_self, write, List.getD_replicate _ inside]
  · rw [Function.update_of_ne here, write, write]
    have distance : (x - frame).toNat ≠ i := by
      intro same
      apply here
      have index : x - frame = BitVec.ofNat 64 i := BitVec.eq_of_toNat_eq (by
        rw [same, BitVec.toNat_ofNat, Nat.mod_eq_of_lt small])
      rw [← index, BitVec.add_comm, BitVec.sub_add_cancel]
    rcases Nat.lt_or_gt_of_ne distance with below | above
    · rw [List.getD_replicate _ below, List.getD_replicate _ (by omega)]
    · rw [List.getD_eq_default _ _ (by rw [List.length_replicate]; omega),
        List.getD_eq_default _ _ (by rw [List.length_replicate]; omega)]

theorem Goes.clears (mem : Memory) (i : Nat) (bound : i ≤ kPageSize) :
    Goes core ({ s with pmm := { s.pmm with mem := write mem frame (List.replicate i 0) } }.goTo core
        (some (.clearByte frame i)))
      ({ s with pmm := { s.pmm with mem := write mem frame (List.replicate kPageSize 0) } }.goTo core
        (some (.loadFree frame))) := by
  generalize remaining : kPageSize - i = n
  induction n generalizing i with
  | zero =>
      obtain rfl : i = kPageSize := by omega
      have plain {t : Cores ι} : Goes core (t.goTo core (some (.clearByte frame kPageSize)))
          (t.goTo core (some (.loadFree frame))) := by
        have leads : (Point.clearByte frame kPageSize).next t.pmm = some (.loadFree frame) := by
          rw [Point.next, if_neg (Nat.lt_irrefl _)]
        have stored : (Point.clearByte frame kPageSize).store t.pmm = t.pmm := by
          rw [Point.store, if_neg (Nat.lt_irrefl _)]
        simpa only [stored] using @Goes.plain _ _ t core _ _ leads
      exact plain
  | succ n ih =>
      have more : i < kPageSize := by omega
      refine Goes.trans ?_ (ih (i + 1) more (by omega))
      have plain {t : Cores ι} : Goes core (t.goTo core (some (.clearByte frame i)))
          ({ t with pmm := { t.pmm with mem := Function.update t.pmm.mem (frame + BitVec.ofNat 64 i) 0 } }.goTo core
            (some (.clearByte frame (i + 1)))) := by
        have leads : (Point.clearByte frame i).next t.pmm = some (.clearByte frame (i + 1)) := by
          rw [Point.next, if_pos more]
        simpa only [Point.store, if_pos more] using @Goes.plain _ _ t core _ _ leads
      rw [← write_replicate more]
      exact plain

theorem Goes.clears_all (nonnull : frame ≠ 0) : Goes core (s.goTo core (some (.clearByte frame 0)))
    ({ s with pmm := { s.pmm with mem := rtSetMemory frame 0 kPageSize s.pmm.mem } }.goTo core
      (some (.loadFree frame))) := by
  rw [rtSetMemory, if_neg nonnull]
  exact Goes.clears s.pmm.mem 0 (Nat.zero_le _)

theorem Goes.finish (nonnull : frame ≠ 0) : Goes core (s.goTo core (some (found frame)))
    ({ s.setLock .alloc false with
      pmm := { s.pmm with
        mem := rtSetMemory frame 0 kPageSize s.pmm.mem
        kPmmFree := s.pmm.kPmmFree - 1
        kPmmUsed := s.pmm.kPmmUsed + 1 }
      held := Function.update s.held core (frame :: s.held core) }.goTo core none) := by
  rw [found, if_neg nonnull]
  refine (Goes.clears_all nonnull).trans ?_
  refine (Goes.plain rfl).trans ((Goes.plain rfl).trans ((Goes.plain rfl).trans ((Goes.plain rfl).trans ?_)))
  have last {t : Cores ι} : Goes core (t.goTo core (some (.allocClear frame)))
      ({ t.setLock .alloc false with held := Function.update t.held core (frame :: t.held core) }.goTo core none) := by
    have step : Goes core (t.goTo core (some (.allocClear frame))) _ := .access
    simpa only [after, goTo, setLock, if_neg nonnull, Function.update_idem] using step
  exact last

theorem Goes.fail : Goes core (s.goTo core (some (.allocClear 0))) ((s.setLock .alloc false).goTo core none) := by
  have step : Goes core (s.goTo core (some (.allocClear 0))) _ := .access
  simpa [after, goTo, setLock] using step

theorem Goes.lock (clear : s.locked .alloc = false) : Goes core (s.goTo core (some .allocSpin))
    ((s.setLock .alloc true).goTo core (some .testHead)) := by
  have step : Goes core (s.goTo core (some .allocSpin)) _ := .access
  simpa [after, goTo, setLock, clear] using step

theorem Goes.toHead (listed : s.pmm.kPmmFreeHead ≠ 0) : Goes core ((s.setLock .alloc true).goTo core (some .testHead))
    ((s.setLock .alloc true).goTo core (some .loadHead)) := by
  have leads : Point.testHead.next (s.setLock .alloc true).pmm = some .loadHead := congrArg some (if_pos listed)
  exact .plain leads

theorem Goes.toLink : Goes core ((s.setLock .alloc true).goTo core (some .loadHead))
    ((s.setLock .alloc true).goTo core
      (some (.storeHead s.pmm.kPmmFreeHead (load64 s.pmm.mem s.pmm.kPmmFreeHead)))) :=
  (Goes.plain rfl).trans (Goes.plain rfl)

theorem Goes.toCursor (empty : s.pmm.kPmmFreeHead = 0) : Goes core ((s.setLock .alloc true).goTo core (some .testHead))
    ((s.setLock .alloc true).goTo core (some .testCursor)) := by
  have leads : Point.testHead.next (s.setLock .alloc true).pmm = some .testCursor :=
    congrArg some (if_neg (not_not.mpr empty))
  exact .plain leads

theorem Goes.toCompare (nonnull : s.pmm.kPmmCursor ≠ 0) :
    Goes core ((s.setLock .alloc true).goTo core (some .testCursor))
      ((s.setLock .alloc true).goTo core (some .compareCursor)) := by
  have leads : Point.testCursor.next (s.setLock .alloc true).pmm = some .compareCursor :=
    congrArg some (if_pos nonnull)
  exact .plain leads

theorem alloc_alone (idle : s.points core = none) (clear : s.locked .alloc = false) :
    ∃ n, Run Takes s (.alloc core :: List.replicate n (.next core)) { s with
      pmm := (pmmiAllocFrame s.pmm).2
      held := Function.update s.held core
        (if (pmmiAllocFrame s.pmm).1 = 0 then s.held core else (pmmiAllocFrame s.pmm).1 :: s.held core) } := by
  have begun : Takes (.alloc core) s (s.goTo core (some .allocSpin)) := by simp [Takes, run, idle]
  have unlocked : Function.update (Function.update s.locked .alloc true) .alloc false = s.locked := by
    rw [Function.update_idem, ← clear, Function.update_eq_self]
  have returned : Function.update s.points core none = s.points := by
    rw [← idle, Function.update_eq_self]
  suffices rest : Goes core ((s.setLock .alloc true).goTo core (some .testHead)) { s with
      pmm := (pmmiAllocFrame s.pmm).2
      held := Function.update s.held core
        (if (pmmiAllocFrame s.pmm).1 = 0 then s.held core else (pmmiAllocFrame s.pmm).1 :: s.held core) } by
    obtain ⟨n, accesses⟩ := (Goes.lock clear).trans rest
    exact ⟨n, .cons begun accesses⟩
  rcases pmmiAllocFrame_cases s.pmm with ⟨listed, taken⟩ | ⟨empty, nonnull, room, taken⟩ | ⟨empty, taken⟩
  · rw [taken]
    refine (Goes.toHead listed).trans (Goes.toLink.trans ((Goes.plain rfl).trans ?_))
    have finish := @Goes.finish _ _
      { s.setLock .alloc true with pmm := { s.pmm with kPmmFreeHead := load64 s.pmm.mem s.pmm.kPmmFreeHead } }
      core _ listed
    simpa only [goTo, setLock, Point.store, unlocked, returned, if_neg listed] using finish
  · rw [taken]
    refine (Goes.toCursor empty).trans ?_
    have takes : Goes core ((s.setLock .alloc true).goTo core (some (.compareEnd s.pmm.kPmmCursor)))
        ((s.setLock .alloc true).goTo core (some .takeCursor)) := by
      have leads : (Point.compareEnd s.pmm.kPmmCursor).next (s.setLock .alloc true).pmm = some .takeCursor :=
        congrArg some (if_pos room)
      exact .plain leads
    refine (Goes.toCompare nonnull).trans ((Goes.plain rfl).trans (takes.trans ?_))
    refine (Goes.plain rfl).trans ((Goes.plain rfl).trans ((Goes.plain rfl).trans ?_))
    have finish := @Goes.finish _ _
      { s.setLock .alloc true with
        pmm := { s.pmm with kPmmCursor := s.pmm.kPmmCursor + BitVec.ofNat 64 kPageSize } }
      core _ nonnull
    simpa only [goTo, setLock, Point.store, unlocked, returned, if_neg nonnull] using finish
  · rw [taken]
    refine (Goes.toCursor empty).trans ?_
    have fails : Goes core ((s.setLock .alloc true).goTo core (some (.allocClear 0))) s := by
      have fail := @Goes.fail _ _ (s.setLock .alloc true) core
      simpa only [goTo, setLock, unlocked, returned] using fail
    have kept : ({ s with pmm := s.pmm, held := Function.update s.held core (s.held core) } : Cores ι) = s := by
      rw [Function.update_eq_self]
    rw [if_pos rfl, kept]
    by_cases nonnull : s.pmm.kPmmCursor ≠ 0
    · have full : ¬ s.pmm.kPmmCursor < s.pmm.kPmmEnd := by
        intro room
        have bump : (pmmiAllocFrame s.pmm).1 = s.pmm.kPmmCursor := by
          unfold pmmiAllocFrame pmmiTake
          rw [if_neg (not_not.mpr empty), if_pos ⟨nonnull, room⟩]
          simp only [if_neg nonnull]
        rw [taken] at bump
        exact nonnull bump.symm
      have leads : (Point.compareEnd s.pmm.kPmmCursor).next (s.setLock .alloc true).pmm = some (.allocClear 0) :=
        congrArg some (if_neg full)
      exact (Goes.toCompare nonnull).trans ((Goes.plain rfl).trans ((Goes.plain leads).trans fails))
    · have leads : Point.testCursor.next (s.setLock .alloc true).pmm = some (.allocClear 0) :=
        congrArg some (if_neg nonnull)
      exact (Goes.plain leads).trans fails

/-- A core has got a frame. -/
def grant (s : Cores ι) (core : ι) (frame : UIntPtr) : Cores ι :=
  { s with
    pmm := (pmmiAllocFrame s.pmm).2
    held := Function.update s.held core (frame :: s.held core) }

theorem alloc_some (idle : s.points core = none) (clear : s.locked .alloc = false)
    (taken : (pmmiAllocFrame s.pmm).1 = frame) (nonnull : frame ≠ 0) :
    ∃ n, Run Takes s (.alloc core :: List.replicate n (.next core)) (s.grant core frame) := by
  obtain ⟨n, run⟩ := alloc_alone idle clear
  rw [taken, if_neg nonnull] at run
  exact ⟨n, run⟩

theorem free_alone (idle : s.points core = none) (clear : s.locked .free = false) (mine : frame ∈ s.held core)
    (isFrame : IsFrame s.pmm frame) :
    ∃ n, Run Takes s (.free core frame :: List.replicate n (.next core))
      { s.give core frame with pmm := pmmiFreeFrame frame s.pmm } := by
  obtain ⟨nonnull, aligned, low, passed⟩ := id isFrame
  have good : ¬ (frame = 0 ∨ frame &&& kPmmAlign ≠ 0) := by
    rintro (zero | offset)
    · exact nonnull zero
    · exact offset (BitVec.eq_of_toNat_eq ((and_kPmmAlign frame).trans aligned))
  have allowed : ¬ ((s.points core).isSome ∨ frame ∉ s.held core) := by simp [idle, mine]
  have begun : Takes (.free core frame) s ((s.give core frame).goTo core (some (.testBase frame))) := by
    rw [Takes, run, if_neg allowed, if_neg good]
  have freed : pmmiFreeFrame frame s.pmm = _ :=
    ((pmmiFreeFrame_cases frame s.pmm).resolve_left fun bad => bad.1 isFrame).2
  have locks {t : Cores ι} (clear : t.locked .free = false) : Goes core (t.goTo core (some (.freeSpin frame)))
      ((t.setLock .free true).goTo core (some (.readHead frame))) := by
    have step : Goes core (t.goTo core (some (.freeSpin frame))) _ := .access
    simpa [after, goTo, setLock, clear] using step
  have last {t : Cores ι} : Goes core (t.goTo core (some .freeClear)) ((t.setLock .free false).goTo core none) := by
    have step : Goes core (t.goTo core (some .freeClear)) _ := .access
    simpa [after, goTo, setLock] using step
  have unlocked : Function.update (Function.update s.locked .free true) .free false = s.locked := by
    rw [Function.update_idem, ← clear, Function.update_eq_self]
  have returned : Function.update s.points core none = s.points := by
    rw [← idle, Function.update_eq_self]
  have based : (Point.testBase frame).next (s.give core frame).pmm = some (.testPassed frame) :=
    if_neg (BitVec.not_lt.mpr (BitVec.le_def.mpr low))
  have below : (Point.testPassed frame).next (s.give core frame).pmm = some (.freeSpin frame) :=
    if_neg (BitVec.not_le.mpr (BitVec.lt_def.mpr passed))
  suffices rest : Goes core ((s.give core frame).goTo core (some (.testBase frame)))
      { s.give core frame with pmm := pmmiFreeFrame frame s.pmm } by
    obtain ⟨n, accesses⟩ := rest
    exact ⟨n, .cons begun accesses⟩
  refine (Goes.plain based).trans ((Goes.plain below).trans ((@locks (s.give core frame) clear).trans ?_))
  refine (Goes.plain rfl).trans ((Goes.plain rfl).trans ((Goes.plain rfl).trans ((Goes.plain rfl).trans ?_)))
  refine (Goes.plain rfl).trans ((Goes.plain rfl).trans ((Goes.plain rfl).trans ?_))
  have finish := @last { (s.give core frame).setLock .free true with pmm := pmmiFreeFrame frame s.pmm }
  rw [freed] at finish ⊢
  simpa only [goTo, setLock, give, Point.store, unlocked, returned] using finish

end Company

/-- As long as no core gets one lock while the other one is set, every frame is where it belongs. -/
theorem frames_owned_once [DecidableEq ι] (mem : Memory) (base : UIntPtr) (sz : SizeT) (steps : List (CoreStep ι))
    (s : Cores ι) (run : Run (Guarded LocksApart Takes) (boot mem base sz) steps s) : OwnedOnce s := by
  obtain ⟨-, held, free, owned⟩ := run.invariant coresInv_step (boot_coresInv mem base sz)
  exact owned.ownedOnce

theorem frames_owned_once_twoFrames :
    OwnedOnce (((boot (fun _ => 0) 0x1000 0x2000 : Cores Bool).goTo true (some .allocSpin)).after true .allocSpin) :=
  frames_owned_once (fun _ => 0) 0x1000 0x2000 [.alloc true, .next true] _
    (.cons ⟨nofun, rfl⟩ (.single ⟨fun _ _ _ _ _ _ _ _ => rfl, rfl⟩))

/-! One core holds both frames of the region and gives the first one back. -/

def oneHeld : Cores Bool := (boot (fun _ => 0) 0x1000 0x2000).grant true 0x1000

def bothHeld : Cores Bool := oneHeld.grant true 0x2000

def oneListed : Cores Bool := { bothHeld.give true 0x1000 with pmm := pmmiFreeFrame 0x1000 bothHeld.pmm }

theorem bothHeld_frames : IsFrame bothHeld.pmm 0x1000 ∧ IsFrame oneListed.pmm 0x2000 := by
  refine ⟨⟨by decide, by decide, ?_, ?_⟩, ⟨by decide, by decide, ?_, ?_⟩⟩ <;> decide +kernel

theorem oneListed_list : oneListed.pmm.kPmmFreeHead = 0x1000 ∧ load64 oneListed.pmm.mem 0x1000 = 0 := by
  decide +kernel

theorem oneListed_reached : ∃ steps, Run Takes (boot (fun _ => 0) 0x1000 0x2000) steps oneListed := by
  have first : ∃ n, Run Takes (boot (fun _ => 0) 0x1000 0x2000) _ oneHeld :=
    alloc_some rfl rfl (by decide +kernel) (by decide)
  have second : ∃ n, Run Takes oneHeld _ bothHeld := alloc_some rfl rfl (by decide +kernel) (by decide)
  have third : ∃ n, Run Takes bothHeld _ oneListed := free_alone rfl rfl (by decide +kernel) bothHeld_frames.1
  obtain ⟨n, first⟩ := first
  obtain ⟨m, second⟩ := second
  obtain ⟨k, third⟩ := third
  exact ⟨_, (first.append second).append third⟩

/-- Another core has read the head of the list and the link behind it. -/
def reading : Cores Bool := (oneListed.setLock .alloc true).goTo false (some (.storeHead 0x1000 0))

/-- The second frame is put in front of the first one meanwhile. -/
def bothListed : Cores Bool := { reading.give true 0x2000 with pmm := pmmiFreeFrame 0x2000 reading.pmm }

theorem bothListed_reached : ∃ steps, Run Takes (boot (fun _ => 0) 0x1000 0x2000) steps bothListed := by
  have begun : Takes (.alloc false) oneListed (oneListed.goTo false (some .allocSpin)) := rfl
  have listed : oneListed.pmm.kPmmFreeHead ≠ 0 := by
    rw [oneListed_list.1]
    decide
  have stopped : Goes false (oneListed.goTo false (some .allocSpin)) _ :=
    (Goes.lock rfl).trans ((Goes.toHead listed).trans Goes.toLink)
  rw [oneListed_list.1, oneListed_list.2] at stopped
  have given : ∃ n, Run Takes reading _ bothListed := free_alone rfl rfl (by decide +kernel) bothHeld_frames.2
  obtain ⟨steps, reached⟩ := oneListed_reached
  obtain ⟨n, stopped⟩ := stopped
  obtain ⟨m, given⟩ := given
  exact ⟨_, (reached.append (.cons begun stopped)).append given⟩

/-- What the other core takes off is no longer the head. -/
theorem freed_frame_lost : ¬ ∀ (mem : Memory) (base : UIntPtr) (sz : SizeT) (steps : List (CoreStep Bool))
    (s : Cores Bool), Run Takes (boot mem base sz) steps s → OwnedOnce s := by
  intro claim
  obtain ⟨steps, reached⟩ := bothListed_reached
  have last : Takes (.next false) bothListed (bothListed.after false (.storeHead 0x1000 0)) := rfl
  have owned := claim _ _ _ _ _ (reached.append (.single last))
  have freed : 0x2000 ∈ (bothListed.after false (.storeHead 0x1000 0)).freed := by decide +kernel
  rcases owned.kept 0x2000 freed with ⟨nodes, chain, listed⟩ | ⟨p, inHand⟩
  · have empty : (bothListed.after false (.storeHead 0x1000 0)).pmm.kPmmFreeHead = 0 := rfl
    rw [empty] at chain
    rw [chain.unique .nil] at listed
    cases listed
  · revert inHand
    cases p <;> decide +kernel

end Cores

end Ne.Kernel.HAL
