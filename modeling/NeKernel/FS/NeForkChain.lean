import NeKernel.FS.NeForks
import NeKernel.FS.NeRemoval
import NeKernel.Lib.Courses
import NeKernel.Lib.Runs
import Mathlib.Order.Interval.Set.Disjoint
import Mathlib.Order.CompletePartialOrder

/-!
# The chain of a catalog's forks

`CreateFork` takes the address behind a fork's data for the next fork. That mostly lies in the sector of the
fork itself, and it moves when the fork is created again with data of another size.
-/

namespace Ne.Kernel.FS
open ByteMem Loops Runs Courses

/-! ## Chains -/

def nextFork (drive : NeDrive) (v : NeVolume) (lba : Lba) : Lba := NefsForkStruct.NextSibling.get (drive.input lba v)

def SameFork (fork other : Image) : Prop :=
  forkNameOf fork = forkNameOf other ∧ catalogNameOf fork = catalogNameOf other

instance (fork other : Image) : Decidable (SameFork fork other) := inferInstanceAs (Decidable (_ ∧ _))

/-- The chain goes from fork to fork, up to a slot without one. -/
def NoFork (drive : NeDrive) (v : NeVolume) (lba : Lba) : Prop := ¬ forkCreated (drive.input lba v)

/-- `CreateFork` stops at a slot without a fork or at the fork itself. -/
def ForkStop (drive : NeDrive) (v : NeVolume) (fork : Image) (lba : Lba) : Prop :=
  NoFork drive v lba ∨ SameFork (drive.input lba v) fork

/-- The sectors of a fork's data, as the parser counts them. -/
def extent (fork : Image) : Set Nat :=
  Set.Ico (NefsForkStruct.DataOffset.get fork).toNat
    ((NefsForkStruct.DataOffset.get fork).toNat + (forkSectors fork).toNat)

/-- A volume, and the forks that were created on the catalog, each as it was written last. -/
structure ForkHistory where
  volume : NeVolume
  made : List Image

structure GoodChain (drive : NeDrive) (h : ForkHistory) (root : Lba) (chain : List Lba) (last : Lba) : Prop where
  follows : Course (nextFork drive h.volume) (NoFork drive h.volume) root chain last
  acyclic : chain.Nodup
  holds : ∀ fork ∈ h.made, ∃ lba ∈ chain, SameSector fork (drive.input lba h.volume)
  apart : chain.Pairwise fun a b =>
    Disjoint (extent (drive.input a h.volume)) (extent (drive.input b h.volume))

/-- The chain comes to an end without a cycle, all forks that were created are on it, and their data lie apart. -/
def ChainHolds (drive : NeDrive) (root : Lba) (h : ForkHistory) : Prop :=
  ∃ chain last, GoodChain drive h root chain last

inductive ForkEvent
  | create (beside : Beside) (fork : Image) (before : Nat → Byte)
  | fInit

/-- The calls for the catalog whose forks start at `root`, and the drive's `fInit` between them, after which the
packet is good again. -/
inductive ForkStep (drive : NeDrive) (root : Lba) : ForkEvent → ForkHistory → ForkHistory → Prop
  | fInit {h : ForkHistory} : ForkStep drive root .fInit h ⟨{ h.volume with fPacketGood := true }, h.made⟩
  | refused {beside : Beside} {fork : Image} {before : Nat → Byte} {h : ForkHistory} {fuel : Nat} :
      findForkSlot drive fuel beside fork before h.volume = some none →
      ForkStep drive root (.create beside fork before) h h
  | made {beside : Beside} {fork : Image} {before : Nat → Byte} {h : ForkHistory} {fuel fuel' : Nat}
      {slot : ForkSlot} {found : Found} :
      getCatalog drive fuel beside (forkPath fork before) h.volume = some (some found) →
      NefsCatalogStruct.DataFork.get found.catalog = root →
      findForkSlot drive fuel' beside fork before h.volume = some (some slot) →
      ForkStep drive root (.create beside fork before) h
        ⟨(useForkSlot drive fork h.volume slot).2.2,
          (useForkSlot drive fork h.volume slot).2.1 :: h.made.filter fun other => ¬ SameFork other fork⟩

/-- The address behind the data of a fork is one of another sector, where no fork lies. -/
structure Ends (drive : NeDrive) (v : NeVolume) (lba : Lba) (sectors : SizeT) : Prop where
  small : lba.toNat + 1 + sectors.toNat < 2 ^ 64
  beyond : drive.sectorOf (lba + 1 + sectors) ≠ drive.sectorOf lba
  free : NoFork drive v (lba + 1 + sectors)

/-- A call that gets through is on a drive that can be written. A fork created again has data of as many sectors
as before, unless it is the last one. Behind the last one the chain ends. -/
def Appends (drive : NeDrive) (root : Lba) (event : ForkEvent) (h : ForkHistory) : Prop :=
  match event with
  | .fInit => True
  | .create beside fork before => forkFits fork → kNeFSCatalogStartAddress ≤ root →
      ∀ fuel found, getCatalog drive fuel beside (forkPath fork before) h.volume = some (some found) →
        NefsCatalogStruct.DataFork.get found.catalog = root →
        ∀ front lba, Course (nextFork drive h.volume) (ForkStop drive h.volume fork) root front lba →
          drive.fPacketReadOnly = false ∧
          (forkCreated (drive.input lba h.volume) ∧ forkSectors fork = forkSectors (drive.input lba h.volume) ∨
            (NoFork drive h.volume lba ∨ NoFork drive h.volume (nextFork drive h.volume lba)) ∧
              Ends drive h.volume lba (forkSectors fork))

/-! ## The structure that is written -/

section Placing
variable {fork s s' : Image} {slot : ForkCursor} {x : BitVec 64}

theorem SameSector.forkCreated_iff (same : SameSector s s') : forkCreated s' ↔ forkCreated s := by
  unfold forkCreated
  rw [same.get (by decide)]

theorem SameSector.sameFork (same : SameSector s s') : SameFork s' s :=
  ⟨same.charsOf (by decide), same.charsOf (by decide)⟩

theorem SameSector.forkSectors (same : SameSector s s') : forkSectors s' = forkSectors s := by
  unfold FS.forkSectors
  rw [same.get (by decide)]

theorem SameSector.extent (same : SameSector s s') : extent s' = extent s := by
  unfold FS.extent
  rw [same.forkSectors, same.get (by decide)]

theorem placeFork_created : forkCreated (placeFork fork slot) := by
  have width : 256 ^ NefsForkStruct.Flags.size = 2 ^ 32 := by decide
  have mark : kNeFSFlagCreated.getLsbD 1 = true := by decide
  intro none
  have bit := congrArg (fun flags : BitVec 64 => flags.getLsbD 1) none
  rw [placeFork, BitVec.getLsbD_and, Field.get_set_same, width, BitVec.getLsbD_ofNat, Nat.testBit_mod_two_pow,
    BitVec.testBit_toNat, BitVec.getLsbD_or, mark] at bit
  simp at bit

theorem placeFork_offset : NefsForkStruct.DataOffset.get (placeFork fork slot) = slot.lba + 1 := by
  rw [placeFork, Field.get_set_other (by decide), Field.get_set_other (by decide), Field.get_set_other (by decide),
    Field.get_set_full rfl]

theorem placeFork_next :
    NefsForkStruct.NextSibling.get (placeFork fork slot) = slot.lba + 1 + forkSectors fork := by
  rw [placeFork, Field.get_set_other (by decide), Field.get_set_full rfl]

theorem placeFork_sectors : forkSectors (placeFork fork slot) = forkSectors fork := by
  unfold forkSectors
  rw [placeFork, Field.get_set_other (by decide), Field.get_set_other (by decide), Field.get_set_other (by decide),
    Field.get_set_other (by decide)]

end Placing

/-! ## The search -/

section Search
variable {drive : NeDrive} {v : NeVolume} {fuel fuel' : Nat} {beside : Beside} {fork : Image} {before : Nat → Byte}
  {here : ForkCursor} {slot : ForkSlot} {found : Found} {root : Lba}

/-- The link that the search came over to the slot, if it came over one. -/
def LinkedTo (drive : NeDrive) (v : NeVolume) (slot : ForkCursor) : Prop :=
  slot.prevFork = drive.input slot.lbaPrev v ∧ NefsForkStruct.NextSibling.get slot.prevFork = slot.lba

theorem forkSlot_course (ends : loop (forkSlotRound drive v fork) fuel here = some (some slot)) :
    (∃ front, Course (nextFork drive v) (ForkStop drive v fork) here.lba front slot.cursor.lba) ∧
      (slot.new = true → NoFork drive v slot.cursor.lba) ∧ (slot.cursor = here ∨ LinkedTo drive v slot.cursor) := by
  induction fuel generalizing here with
  | zero => cases ends
  | succ fuel ih =>
      have turn : forkSlotRound drive v fork here = if v.fPacketGood = false then .done none
          else if forkCreated (drive.input here.lba v) then
            if SameFork (drive.input here.lba v) fork then .done (some ⟨here, false⟩)
            else .again ⟨nextFork drive v here.lba, here.lba, drive.input here.lba v⟩
          else .done (some ⟨here, true⟩) := rfl
      by_cases bad : v.fPacketGood = false
      · rw [if_pos bad] at turn
        rw [loop_done turn] at ends
        cases ends
      rw [if_neg bad] at turn
      by_cases created : forkCreated (drive.input here.lba v)
      · rw [if_pos created] at turn
        by_cases same : SameFork (drive.input here.lba v) fork
        · rw [if_pos same] at turn
          rw [loop_done turn] at ends
          obtain rfl := Option.some.inj (Option.some.inj ends)
          exact ⟨⟨[], .stop (.inr same)⟩, nofun, .inl rfl⟩
        · rw [if_neg same] at turn
          rw [loop_again turn] at ends
          obtain ⟨⟨front, course⟩, blank, linked⟩ := ih ends
          refine ⟨⟨_, .pass (not_or.mpr ⟨not_not.mpr created, same⟩) course⟩, blank, .inr ?_⟩
          rcases linked with start | linked
          · rw [start]
            exact ⟨rfl, rfl⟩
          · exact linked
      · rw [if_neg created] at turn
        rw [loop_done turn] at ends
        obtain rfl := Option.some.inj (Option.some.inj ends)
        exact ⟨⟨[], .stop (.inl created)⟩, fun _ => created, .inl rfl⟩

theorem findForkSlot_course (search : getCatalog drive fuel' beside (forkPath fork before) v = some (some found))
    (ends : findForkSlot drive fuel beside fork before v = some (some slot)) :
    let root := NefsCatalogStruct.DataFork.get found.catalog
    forkFits fork ∧ kNeFSCatalogStartAddress ≤ root ∧
      (∃ front, Course (nextFork drive v) (ForkStop drive v fork) root front slot.cursor.lba) ∧
      (slot.new = true → NoFork drive v slot.cursor.lba) ∧
      (slot.cursor.lbaPrev = slot.cursor.lba ∨ LinkedTo drive v slot.cursor) := by
  rw [findForkSlot] at ends
  split at ends
  · cases ends
  case isFalse fits =>
  simp only [Option.bind_eq_bind, Option.bind_eq_some_iff] at ends
  obtain ⟨catalog, search', ends⟩ := ends
  obtain rfl := findCatalog_steady.unique search' search
  dsimp only at ends
  split at ends
  · cases ends
  case isFalse high =>
  obtain ⟨course, blank, linked⟩ := forkSlot_course ends
  refine ⟨not_not.mp fits, BitVec.not_lt.mp high, course, blank, linked.imp_left fun start => ?_⟩
  rw [start]

end Search

/-! ## The writes -/

section Writes
variable {drive : NeDrive} {v : NeVolume} {slot : ForkSlot} {fork body : Image} {lba a : Lba} {size : Nat}

theorem output_input (writable : drive.fPacketReadOnly = false) (nonzero : lba ≠ 0) (full : kNeFSSectorSz ≤ size) :
    SameSector (if drive.sectorOf a = drive.sectorOf lba then body else drive.input a v)
      (drive.input a (drive.output lba size body v)) := by
  intro x inside
  split
  case isTrue same =>
    unfold NeDrive.input
    rw [same]
    exact output_byte writable nonzero full inside
  case isFalse other =>
    unfold NeDrive.input
    rw [output_other other]

theorem output_refused (refused : ¬ (drive.fPacketReadOnly = false ∧ lba ≠ 0)) :
    (drive.output lba size body v).sectors = v.sectors := by
  unfold NeDrive.output
  split
  · rfl
  case isFalse writable =>
    rw [if_pos]
    exact not_not.mp fun nonzero => refused ⟨Bool.eq_false_iff.mpr writable, nonzero⟩

theorem output_same (full : kNeFSSectorSz ≤ size) :
    SameSector (drive.input a v) (drive.input a (drive.output lba size (drive.input lba v) v)) := by
  by_cases written : drive.fPacketReadOnly = false ∧ lba ≠ 0
  · have here := @output_input _ v (drive.input lba v) _ a _ written.1 written.2 full
    split at here
    case isTrue same =>
      have read : drive.input a v = drive.input lba v := congrArg v.sectors same
      rwa [read]
    case isFalse => exact here
  · unfold NeDrive.input
    rw [output_refused written]
    exact fun _ _ => rfl

theorem link_input (linked : slot.cursor.lbaPrev = slot.cursor.lba ∨ LinkedTo drive v slot.cursor)
    (other : drive.sectorOf a ≠ drive.sectorOf slot.cursor.lba) :
    SameSector (drive.input a v) (drive.input a (linkFork drive slot v)) := by
  unfold linkFork
  split
  · rcases linked with first | ⟨read, next⟩
    · rw [first]
      intro x _
      unfold NeDrive.input
      rw [output_other other]
    · rw [← next, Field.set_get, read]
      exact output_same (by decide)
  · exact fun _ _ => rfl

theorem fsIfsWrite_input (writable : drive.fPacketReadOnly = false) (nonzero : lba ≠ 0)
    (full : kNeFSSectorSz ≤ size) :
    SameSector (if drive.sectorOf a = drive.sectorOf lba then body else drive.input a v)
      (drive.input a (drive.fsIfsWrite lba size body (drive.output lba size body v))) := by
  have once := @output_input _ v body _ a _ writable nonzero full
  by_cases good : (drive.output lba size body v).fPacketGood = true
  · rw [NeDrive.fsIfsWrite, if_pos good]
    have twice := @output_input _ { drive.output lba size body v with fPacketGood := false } body _ a _
      writable nonzero full
    by_cases same : drive.sectorOf a = drive.sectorOf lba
    · rw [if_pos same] at twice ⊢
      exact twice
    · rw [if_neg same] at once twice ⊢
      exact once.trans twice
  · rw [NeDrive.fsIfsWrite, if_neg good]
    exact once

/-- Every address of the fork's sector leads to the fork now, and the other sectors are as they were. -/
theorem useForkSlot_input (linked : slot.cursor.lbaPrev = slot.cursor.lba ∨ LinkedTo drive v slot.cursor)
    (writable : drive.fPacketReadOnly = false) (nonzero : slot.cursor.lba ≠ 0) (a : Lba) :
    SameSector (if drive.sectorOf a = drive.sectorOf slot.cursor.lba then placeFork fork slot.cursor
      else drive.input a v) (drive.input a (useForkSlot drive fork v slot).2.2) := by
  have written : SameSector (if drive.sectorOf a = drive.sectorOf slot.cursor.lba then placeFork fork slot.cursor
      else drive.input a (linkFork drive slot v)) (drive.input a (useForkSlot drive fork v slot).2.2) :=
    fsIfsWrite_input writable nonzero (by decide)
  by_cases same : drive.sectorOf a = drive.sectorOf slot.cursor.lba
  · rw [if_pos same] at written ⊢
    exact written
  · rw [if_neg same] at written ⊢
    exact (link_input linked same).trans written

end Writes

/-! ## Laid-out chains -/

/-- A fork as `CreateFork` leaves it at an address: its data right behind it, and the next fork behind that. -/
structure ForkAt (lba : Lba) (fork : Image) : Prop where
  created : forkCreated fork
  offset : NefsForkStruct.DataOffset.get fork = lba + 1
  next : NefsForkStruct.NextSibling.get fork = lba + 1 + forkSectors fork
  small : lba.toNat + 1 + (forkSectors fork).toNat < 2 ^ 64

structure LaidChain (drive : NeDrive) (v : NeVolume) (root : Lba) (chain : List Lba) (last : Lba) : Prop where
  follows : Course (nextFork drive v) (NoFork drive v) root chain last
  forks : ∀ a ∈ chain, ForkAt a (drive.input a v)

section Laid
variable {drive : NeDrive} {v v' : NeVolume} {root last lba a b : Lba} {chain front rest : List Lba} {fork : Image}

theorem toNat_next {sectors : SizeT} (small : lba.toNat + 1 + sectors.toNat < 2 ^ 64) :
    (lba + 1 + sectors).toNat = lba.toNat + 1 + sectors.toNat ∧ (lba + 1).toNat = lba.toNat + 1 := by
  have one : (lba + 1).toNat = lba.toNat + 1 := by
    rw [BitVec.toNat_add]
    exact Nat.mod_eq_of_lt (by change lba.toNat + 1 < 2 ^ 64; omega)
  refine ⟨?_, one⟩
  rw [BitVec.toNat_add, one]
  exact Nat.mod_eq_of_lt small

theorem ForkAt.congr {s s' : Image} (at_ : ForkAt lba s) (same : SameSector s s') : ForkAt lba s' := by
  refine ⟨same.forkCreated_iff.mpr at_.created, ?_, ?_, ?_⟩
  · rw [same.get (by decide), at_.offset]
  · rw [same.get (by decide), same.forkSectors, at_.next]
  · rw [same.forkSectors]
    exact at_.small

theorem LaidChain.ordered (laid : LaidChain drive v root chain last) :
    (∀ a ∈ chain, root.toNat ≤ a.toNat) ∧ root.toNat ≤ last.toNat ∧
      chain.Pairwise fun a b => a.toNat + (1 + (forkSectors (drive.input a v)).toNat) ≤ b.toNat := by
  refine laid.follows.ordered BitVec.toNat (fun a => 1 + (forkSectors (drive.input a v)).toNat) fun a member => ?_
  have fork := laid.forks a member
  rw [nextFork, fork.next, (toNat_next fork.small).1, Nat.add_assoc]

theorem LaidChain.apart (laid : LaidChain drive v root chain last) :
    chain.Pairwise fun a b => Disjoint (extent (drive.input a v)) (extent (drive.input b v)) := by
  refine laid.ordered.2.2.imp_of_mem fun {a b} here there before => ?_
  have first := laid.forks a here
  have second := laid.forks b there
  unfold extent
  rw [first.offset, second.offset, (toNat_next first.small).2, (toNat_next second.small).2]
  refine Set.Ico_disjoint_Ico.mpr ?_
  omega

theorem LaidChain.sectors (laid : LaidChain drive v root chain last) (here : a ∈ chain) (there : b ∈ chain)
    (same : drive.sectorOf a = drive.sectorOf b) : a = b := by
  have one := (laid.forks a here).offset
  have read : drive.input a v = drive.input b v := congrArg v.sectors same
  rw [read, (laid.forks b there).offset] at one
  exact ((BitVec.add_left_inj 1).mp one).symm

/-- What one sector becomes, while the others stay as they are. -/
def ForkPlaced (drive : NeDrive) (lba : Lba) (fork : Image) (v v' : NeVolume) : Prop :=
  ∀ a, SameSector (if drive.sectorOf a = drive.sectorOf lba then fork else drive.input a v) (drive.input a v')

theorem ForkPlaced.here (placed : ForkPlaced drive lba fork v v') (same : drive.sectorOf a = drive.sectorOf lba) :
    SameSector fork (drive.input a v') := by
  have read := placed a
  rwa [if_pos same] at read

theorem ForkPlaced.other (placed : ForkPlaced drive lba fork v v') (other : drive.sectorOf a ≠ drive.sectorOf lba) :
    SameSector (drive.input a v) (drive.input a v') := by
  have read := placed a
  rwa [if_neg other] at read

theorem ForkPlaced.noFork_iff (placed : ForkPlaced drive lba fork v v')
    (other : drive.sectorOf a ≠ drive.sectorOf lba) :
    NoFork drive v' a ↔ NoFork drive v a := not_congr (placed.other other).forkCreated_iff

theorem ForkPlaced.next_eq (placed : ForkPlaced drive lba fork v v') (other : drive.sectorOf a ≠ drive.sectorOf lba) :
    nextFork drive v' a = nextFork drive v a := (placed.other other).get (by decide)

theorem NoFork.apart (blank : NoFork drive v a) (created : forkCreated (drive.input b v)) :
    drive.sectorOf a ≠ drive.sectorOf b := by
  intro same
  have read : drive.input a v = drive.input b v := congrArg v.sectors same
  exact blank (read ▸ created)

/-- A fork that is put in its own place with data of as many sectors leaves the chain as it was. -/
theorem LaidChain.replace (laid : LaidChain drive v root chain last) (member : lba ∈ chain)
    (placed : ForkPlaced drive lba fork v v') (made : ForkAt lba fork)
    (sectors : forkSectors fork = forkSectors (drive.input lba v)) : LaidChain drive v' root chain last := by
  have forks : ∀ a ∈ chain, ForkAt a (drive.input a v') ∧
      forkSectors (drive.input a v') = forkSectors (drive.input a v) := by
    intro a inside
    by_cases same : drive.sectorOf a = drive.sectorOf lba
    · obtain rfl := laid.sectors inside member same
      have here := placed.here same
      exact ⟨made.congr here, here.forkSectors.trans sectors⟩
    · have other := placed.other same
      exact ⟨(laid.forks a inside).congr other, other.forkSectors⟩
  refine ⟨laid.follows.congr (fun a inside => ?_) (fun a inside => not_not.mpr (forks a inside).1.created) ?_,
    fun a inside => (forks a inside).1⟩
  · rw [nextFork, (forks a inside).1.next, (forks a inside).2, nextFork, (laid.forks a inside).next]
  · have blank := laid.follows.stopped
    exact (placed.noFork_iff (blank.apart (laid.forks lba member).created)).mpr blank

/-- A fork that is put behind others ends the chain if the address behind its data does. -/
theorem laid_append {stops : Lba → Prop} (course : Course (nextFork drive v) stops root front lba)
    (forks : ∀ a ∈ front, ForkAt a (drive.input a v)) (apart : ∀ a ∈ front, drive.sectorOf a ≠ drive.sectorOf lba)
    (placed : ForkPlaced drive lba fork v v') (made : ForkAt lba fork) (ends : Ends drive v lba (forkSectors fork)) :
    LaidChain drive v' root (front ++ [lba]) (lba + 1 + forkSectors fork) := by
  have here := made.congr (placed.here rfl)
  have kept : ∀ a ∈ front, ForkAt a (drive.input a v') := fun a inside =>
    (forks a inside).congr (placed.other (apart a inside))
  have next : nextFork drive v' lba = lba + 1 + forkSectors fork := by
    rw [nextFork, here.next, (placed.here rfl).forkSectors]
  refine ⟨course.extend (fun a inside => placed.next_eq (apart a inside))
    (fun a inside => not_not.mpr (kept a inside).created) (not_not.mpr here.created) ?_, fun a inside => ?_⟩
  · rw [next]
    exact .stop ((placed.noFork_iff ends.beyond).mpr ends.free)
  · rcases List.mem_append.mp inside with inside | inside
    · exact kept a inside
    · exact List.mem_singleton.mp inside ▸ here

/-- A fork whose next address lies in its own sector leads to itself for ever. -/
theorem shared_sector_cyclic (placed : ForkPlaced drive lba fork v v') (created : forkCreated fork)
    (next : NefsForkStruct.NextSibling.get fork = b) (same : drive.sectorOf b = drive.sectorOf lba) :
    ¬ Course (nextFork drive v') (NoFork drive v') lba chain last := by
  have leads (a : Lba) (inside : drive.sectorOf a = drive.sectorOf lba) :
      ¬ NoFork drive v' a ∧ nextFork drive v' a = b := by
    have here := placed.here inside
    exact ⟨not_not.mpr (here.forkCreated_iff.mpr created), (here.get (by decide)).trans next⟩
  intro course
  obtain ⟨goes, on⟩ := leads lba rfl
  cases course with
  | stop blank => exact goes blank
  | pass _ tail =>
      rw [on] at tail
      exact Course.stuck (leads b same).1 (leads b same).2 tail

end Laid

/-! ## Steps -/

/-- A chain as `CreateFork` makes it, with the forks on it. -/
structure LaidOn (drive : NeDrive) (root : Lba) (h : ForkHistory) (chain : List Lba) (last : Lba) : Prop where
  laid : LaidChain drive h.volume root chain last
  holds : ∀ fork ∈ h.made, ∃ lba ∈ chain, SameSector fork (drive.input lba h.volume)

section Steps
variable {drive : NeDrive} {root last lba : Lba} {h h' : ForkHistory} {chain front : List Lba} {fork made : Image}
  {event : ForkEvent} {v' : NeVolume}

theorem LaidOn.chainHolds (laidOn : LaidOn drive root h chain last) : ChainHolds drive root h :=
  ⟨chain, last, laidOn.laid.follows, laidOn.laid.follows.nodup, laidOn.holds, laidOn.laid.apart⟩

/-- Behind the slot that the search stopped at comes the slot's fork, if there is one, and the rest of the chain. -/
theorem LaidOn.behind (laidOn : LaidOn drive root h chain last)
    (course : Course (nextFork drive h.volume) (ForkStop drive h.volume fork) root front lba) :
    ∃ rest, chain = front ++ rest ∧ (forkCreated (drive.input lba h.volume) → lba ∈ rest) ∧
      (NoFork drive h.volume lba ∨ NoFork drive h.volume (nextFork drive h.volume lba) → ∀ a ∈ rest, a = lba) := by
  obtain ⟨rest, rfl, later⟩ := laidOn.laid.follows.split course fun _ => Or.inl
  refine ⟨rest, rfl, fun created => ?_, fun ended a member => ?_⟩
  · cases later with
    | stop blank => exact absurd created blank
    | pass _ _ => exact List.mem_cons_self
  · cases later with
    | stop _ => cases member
    | pass goes tail =>
        have ended := ended.resolve_left goes
        cases tail with
        | stop _ => exact List.mem_singleton.mp member
        | pass goes' _ => exact absurd ended goes'

/-- The search passed no slot of the sector it stopped in, since it would have stopped there. -/
theorem search_apart (course : Course (nextFork drive h.volume) (ForkStop drive h.volume fork) root front lba) :
    ∀ a ∈ front, drive.sectorOf a ≠ drive.sectorOf lba := by
  intro a inside same
  have read : drive.input a h.volume = drive.input lba h.volume := congrArg h.volume.sectors same
  have goes := course.passes a inside
  unfold ForkStop NoFork at goes
  rw [read] at goes
  exact goes course.stopped

theorem LaidOn.others {other : Image} (laidOn : LaidOn drive root h chain last)
    (stopped : ForkStop drive h.volume fork lba) (member : other ∈ h.made) (differ : ¬ SameFork other fork) :
    ∃ a ∈ chain, drive.sectorOf a ≠ drive.sectorOf lba ∧ SameSector other (drive.input a h.volume) := by
  obtain ⟨a, inside, same⟩ := laidOn.holds other member
  refine ⟨a, inside, fun sector => ?_, same⟩
  have read : drive.input a h.volume = drive.input lba h.volume := congrArg h.volume.sectors sector
  rcases stopped with blank | named
  · exact blank (read ▸ (laidOn.laid.forks a inside).created)
  · have name := same.sameFork
    rw [read] at name
    exact differ ⟨name.1.symm.trans named.1, name.2.symm.trans named.2⟩

theorem place_kept (laidOn : LaidOn drive root h chain last)
    (course : Course (nextFork drive h.volume) (ForkStop drive h.volume fork) root front lba)
    (placed : ForkPlaced drive lba made h.volume v') (sectors : forkSectors made = forkSectors fork)
    (at_ : lba.toNat + 1 + (forkSectors fork).toNat < 2 ^ 64 → ForkAt lba made)
    (fits : forkCreated (drive.input lba h.volume) ∧ forkSectors fork = forkSectors (drive.input lba h.volume) ∨
      (NoFork drive h.volume lba ∨ NoFork drive h.volume (nextFork drive h.volume lba)) ∧
        Ends drive h.volume lba (forkSectors fork)) :
    ∃ chain' last', LaidOn drive root ⟨v', made :: h.made.filter fun other => ¬ SameFork other fork⟩ chain' last' := by
  obtain ⟨rest, rfl, there, ended⟩ := laidOn.behind course
  have forks := laidOn.laid.forks
  rcases fits with ⟨created, same⟩ | ⟨last, ends⟩
  · have inside : lba ∈ front ++ rest := List.mem_append_right _ (there created)
    have small := (forks lba inside).small
    rw [← same] at small
    refine ⟨_, _, laidOn.laid.replace inside placed (at_ small) (sectors.trans same), fun other member => ?_⟩
    rcases List.mem_cons.mp member with rfl | member
    · exact ⟨lba, inside, placed.here rfl⟩
    · obtain ⟨member, differ⟩ := List.mem_filter.mp member
      obtain ⟨a, inside, off, read⟩ := laidOn.others course.stopped member (by simpa using differ)
      exact ⟨a, inside, read.trans (placed.other off)⟩
  · have laid := laid_append course (fun a inside => forks a (List.mem_append_left _ inside)) (search_apart course)
      placed (at_ ends.small) (sectors.symm ▸ ends)
    refine ⟨_, _, laid, fun other member => ?_⟩
    rcases List.mem_cons.mp member with rfl | member
    · exact ⟨lba, List.mem_append_right _ List.mem_cons_self, placed.here rfl⟩
    · obtain ⟨member, differ⟩ := List.mem_filter.mp member
      obtain ⟨a, inside, off, read⟩ := laidOn.others course.stopped member (by simpa using differ)
      rcases List.mem_append.mp inside with inside | inside
      · exact ⟨a, List.mem_append_left _ inside, read.trans (placed.other off)⟩
      · exact absurd (congrArg drive.sectorOf (ended last a inside)) off

theorem LaidOn.rooted (laidOn : LaidOn drive root h chain last) (high : kNeFSCatalogStartAddress ≤ root)
    (course : Course (nextFork drive h.volume) (ForkStop drive h.volume fork) root front lba) : lba ≠ 0 := by
  obtain ⟨rest, rfl, -⟩ := laidOn.behind course
  obtain ⟨-, above, -⟩ := course.ordered BitVec.toNat (fun _ => 0) fun a member => by
    have at_ := laidOn.laid.forks a (List.mem_append_left _ member)
    rw [nextFork, at_.next, (toNat_next at_.small).1]
    omega
  have start : kNeFSCatalogStartAddress.toNat = 1536 := rfl
  rintro rfl
  exact absurd (Nat.le_trans (BitVec.le_def.mp high) above) (by rw [start]; decide)

theorem placeFork_at (slot : ForkCursor) (small : slot.lba.toNat + 1 + (forkSectors fork).toNat < 2 ^ 64) :
    ForkAt slot.lba (placeFork fork slot) :=
  ⟨placeFork_created, placeFork_offset, by rw [placeFork_next, placeFork_sectors], by rwa [placeFork_sectors]⟩

theorem step_laid (laidOn : ∃ chain last, LaidOn drive root h chain last) (appends : Appends drive root event h)
    (taken : ForkStep drive root event h h') : ∃ chain last, LaidOn drive root h' chain last := by
  obtain ⟨chain, last, laidOn⟩ := laidOn
  cases taken with
  | fInit => exact ⟨chain, last, ⟨laidOn.laid.follows, laidOn.laid.forks⟩, laidOn.holds⟩
  | refused _ => exact ⟨chain, last, laidOn⟩
  | @made beside fork before _ fuel fuel' slot found search same ends =>
      obtain ⟨fits, high, ⟨front, course⟩, -, linked⟩ := findForkSlot_course search ends
      rw [same] at high course
      obtain ⟨writable, place⟩ := appends fits high fuel found search same front _ course
      have placed : ForkPlaced drive slot.cursor.lba (placeFork fork slot.cursor) h.volume
          (useForkSlot drive fork h.volume slot).2.2 :=
        useForkSlot_input linked writable (laidOn.rooted high course)
      exact place_kept laidOn course placed placeFork_sectors (placeFork_at slot.cursor) place

end Steps

/-! ## Runs -/

/-- On a catalog without forks the chain holds as long as each fork is put behind the others, on a slot of
another sector, and is created again with data of as many sectors. -/
theorem fork_chain_holds {drive : NeDrive} {root : Lba} {v : NeVolume} {events : List ForkEvent}
    (fresh : NoFork drive v root) (appends : AllSteps (ForkStep drive root) (Appends drive root) ⟨v, []⟩ events) :
    Everywhere (ForkStep drive root) (ChainHolds drive root) ⟨v, []⟩ events := by
  have start : LaidOn drive root ⟨v, []⟩ [] root := ⟨⟨.stop fresh, by simp⟩, by simp⟩
  rintro before after rfl h run
  obtain ⟨chain, last, laidOn⟩ := (run.guarded appends.front).invariant
    (fun event h h' laidOn taken => step_laid laidOn taken.1 taken.2) ⟨[], root, start⟩
  exact laidOn.chainHolds

/-! ## The prepared volume -/

/-- A fork whose data goes to the end of its sector's addresses. -/
def wideFork : Image := NefsForkStruct.DataSize.set 260608 fiveBytes

theorem preparedFile_fresh : NoFork preparedDrive preparedFile 2094594 := by
  unfold NoFork
  decide +kernel

theorem fork_chain_holds_preparedFile :
    Everywhere (ForkStep preparedDrive 2094594) (ChainHolds preparedDrive 2094594) ⟨preparedFile, []⟩
      [.create cleared wideFork fun _ => 0] := by
  refine fork_chain_holds preparedFile_fresh (allSteps_cons.mpr ⟨?_, fun t _ before event after split => ?_⟩)
  · intro _ _ fuel found _ _ front lba course
    have start := course.unique (.stop (.inl preparedFile_fresh))
    subst start
    cases course with
    | stop _ =>
        refine ⟨rfl, .inr ⟨.inl preparedFile_fresh, by decide +kernel, by decide +kernel, ?_⟩⟩
        unfold NoFork
        decide +kernel
  · cases before <;> cases split

/-- The first fork of five bytes leads to itself. -/
theorem first_fork_cyclic : ¬ ∀ drive root v events, NoFork drive v root →
    Everywhere (ForkStep drive root) (ChainHolds drive root) ⟨v, []⟩ events := by
  intro every
  have catalog : (getCatalog preparedDrive 3 cleared (forkPath fiveBytes fun _ => 0) preparedFile).map
      (Option.map fun found => NefsCatalogStruct.DataFork.get found.catalog) = some (some 2094594) := by decide +kernel
  have place : (findForkSlot preparedDrive 3 cleared fiveBytes (fun _ => 0) preparedFile).map
      (Option.map fun slot => (slot.cursor.lba, slot.cursor.lbaPrev)) = some (some (2094594, 2094594)) := by
    decide +kernel
  obtain ⟨result, search, shape⟩ := Option.map_eq_some_iff.mp catalog
  obtain ⟨found, rfl, root⟩ := Option.map_eq_some_iff.mp shape
  obtain ⟨result, ends, shape⟩ := Option.map_eq_some_iff.mp place
  obtain ⟨slot, rfl, at_⟩ := Option.map_eq_some_iff.mp shape
  obtain ⟨lba, prev⟩ := Prod.mk.inj at_
  have step := ForkStep.made (h := ⟨preparedFile, []⟩) search root ends
  obtain ⟨chain, last, good⟩ := every preparedDrive 2094594 preparedFile [_] preparedFile_fresh [_] [] rfl _
    (.single step)
  have placed : ForkPlaced preparedDrive slot.cursor.lba (placeFork fiveBytes slot.cursor) preparedFile _ :=
    useForkSlot_input (.inl (prev.trans lba.symm)) rfl (by rw [lba]; decide)
  rw [lba] at placed
  have next := @placeFork_next fiveBytes slot.cursor
  rw [lba] at next
  exact shared_sector_cyclic placed placeFork_created next (by decide +kernel) good.follows

end Ne.Kernel.FS
