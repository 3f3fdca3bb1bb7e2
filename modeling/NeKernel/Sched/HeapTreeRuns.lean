import NeKernel.Sched.ProcessHeap

/-!
# What the heap tree of a process keeps

The records hang together by `Next`. A record of another size takes the place of the second one, and the
record of a deleted allocation stays, so that `Exit` gives it back once more.
-/

namespace Ne.Kernel.Sched
open Runs Loops NextList

def Trees.next (trees : Trees) (node : VoidPtr) : VoidPtr := (trees node).Next

def Trees.entry (trees : Trees) (node : VoidPtr) : VoidPtr := (trees node).Entry

/-- Every allocation is on the list from `HeapTree` on, `Delete` finds it, and `Exit` passes it to
`mm_free_ptr` once, provided that takes the allocations which were not passed to it yet. -/
structure LosesNothing (h : HeapHistory) : Prop where
  reached : ∀ ptr ∈ h.live, ∃ node, node ≠ 0 ∧ Reaches h.process.trees.next 0 h.process.HeapTree node ∧
    (h.process.trees node).Entry = ptr
  found : ∀ ptr ∈ h.live, ∀ freed, ∃ fuel node, (h.process.trees node).Entry = ptr ∧
    Delete fuel ptr freed h.process = some (freed, { h.process with
      UsedMemory := h.process.UsedMemory - (h.process.trees node).EntrySize })
  released : ∀ takes, (∀ passed, ∀ ptr ∈ h.live, ptr ∉ passed → takes passed ptr = true) →
    ∃ fuel f, exitHeapTree takes fuel h.process = some f ∧ ∀ ptr ∈ h.live, f.passed.count ptr = 1

/-- A new allocation goes to the end of a list whose allocations are all live and, the first one apart,
of its own size, or takes the place of a deleted one. The allocation deleted is the last live one. -/
def InPlace (h : HeapHistory) : HeapCall → Prop
  | .new sz _ _ _ =>
      let trees := h.process.trees
      let root := h.process.HeapTree
      h.process.UsedMemory > kCPSMaxMemoryLimit ∨ root = 0 ∨
      ((∀ node, node ≠ 0 → Reaches trees.next 0 root node → (trees node).Entry ∈ h.live) ∧
        (trees.next root = 0 ∨ (trees (trees.next root)).EntrySize = sz)) ∨
      ((trees root).Entry ∈ h.live ∧ trees.next root ≠ 0 ∧ trees.next (trees.next root) = 0 ∧
        (trees (trees.next root)).Entry ∉ h.live ∧ (trees (trees.next root)).EntrySize ≠ sz)
  | .delete ptr freed => freed = true → ptr ∈ h.live → h.live.getLast? = some ptr

/-! ## Walks over the list -/

section Walks
variable {trees : Trees} {head prev last upper node ptr : VoidPtr} {nodes front live stale : List VoidPtr}
  {sz padAmount : SizeT} {f : Freeing} {takes : List VoidPtr → VoidPtr → Bool}

theorem one_le_iff (size : SizeT) : size < 1 ↔ size = 0 := by bv_omega

theorem positive_iff (size : SizeT) : size > 0 ↔ size ≠ 0 := by bv_omega

/-- What sends the search for a place to an end. -/
structure Ends (trees : Trees) (node upper : VoidPtr) : Prop where
  climbs : schedTryGoUpperPtrTree trees node = upper
  nonnull : upper ≠ 0
  black : (trees upper).Color = .kBlackTreeKind

theorem placeRound_ends (present : node ≠ 0) (sized : (trees node).EntrySize ≠ 0) (childless : (trees node).Child = 0)
    (apart : trees.next node = 0 ∨ (trees (trees.next node)).EntrySize ≠ sz) (ends : Ends trees node upper) :
    placeRound trees sz ⟨node, prev, false⟩ = .done ⟨upper, node, false⟩ := by
  have other : ¬ ((trees node).Next ≠ 0 ∧ (trees (trees node).Next).EntrySize > 0 ∧
      (trees (trees node).Next).EntrySize = sz) := by
    rintro ⟨some, -, same⟩
    exact apart.elim some fun differ => differ same
  unfold placeRound
  dsimp only
  rw [if_neg present, if_neg (mt (one_le_iff _).mp sized), if_neg (fun both => both.1 childless), if_neg other,
    ends.climbs, if_pos ⟨ends.nonnull, ends.black⟩]

theorem placeRound_again (present : node ≠ 0) (sized : (trees node).EntrySize ≠ 0)
    (childless : (trees node).Child = 0) (nonzero : sz ≠ 0) (some : trees.next node ≠ 0)
    (same : (trees (trees.next node)).EntrySize = sz) :
    placeRound trees sz ⟨node, prev, false⟩ = .again ⟨trees.next node, node, false⟩ := by
  have more : (trees node).Next ≠ 0 ∧ (trees (trees node).Next).EntrySize > 0 ∧
      (trees (trees node).Next).EntrySize = sz := ⟨some, (positive_iff _).mpr (same ▸ nonzero), same⟩
  unfold placeRound
  dsimp only
  rw [if_neg present, if_neg (mt (one_le_iff _).mp sized), if_neg (fun both => both.1 childless), if_pos more]
  rfl

theorem place_last (list : Follows trees.next 0 head (front ++ [last]))
    (plain : ∀ node ∈ front ++ [last], (trees node).EntrySize ≠ 0 ∧ (trees node).Child = 0)
    (alike : ∀ node ∈ (front ++ [last]).tail, (trees node).EntrySize = sz) (nonzero : sz ≠ 0)
    (ends : Ends trees last upper) :
    ∃ fuel, loop (placeRound trees sz) fuel ⟨head, prev, false⟩ = some ⟨upper, last, false⟩ := by
  have ended := list.last
  induction front generalizing head prev with
  | nil =>
      obtain ⟨sized, childless⟩ := plain last (by simp)
      cases list with
      | cons present _ => exact ⟨1, loop_done (placeRound_ends present sized childless (.inl ended) ends)⟩
  | cons a front ih =>
      obtain ⟨sized, childless⟩ := plain a (by simp)
      cases list with
      | cons present rest =>
          have next : trees.next a ≠ 0 ∧ (trees (trees.next a)).EntrySize = sz := by
            have start : trees.next a ∈ front ++ [last] := rest.head_mem (by simp)
            exact ⟨rest.nonnull _ start, alike _ start⟩
          have later : ∀ node ∈ (front ++ [last]).tail, (trees node).EntrySize = sz :=
            fun node member => alike node (List.mem_of_mem_tail member)
          obtain ⟨fuel, comes⟩ := ih rest (fun node member => plain node (List.mem_cons_of_mem _ member)) later
          refine ⟨fuel + 1, ?_⟩
          rw [loop_again (placeRound_again present sized childless nonzero next.1 next.2)]
          exact comes

theorem ends_second {root second : VoidPtr} (present : root ≠ 0) (top : (trees root).Parent = 0)
    (follows : trees.next root = second) (linked : second ≠ 0) (black : (trees second).Color = .kBlackTreeKind) :
    Ends trees root second := by
  refine ⟨?_, linked, black⟩
  have link : (trees root).Next ≠ 0 := fun none => linked (follows.symm.trans none)
  unfold schedTryGoUpperPtrTree
  dsimp only
  rw [if_neg present, if_neg (not_not.mpr top), if_neg link]
  exact follows

/-- The search of `Delete` comes to an end, and to the allocation if it is recorded. -/
theorem delete_search (list : Follows trees.next 0 head nodes) :
    ∃ fuel found, loop (deleteRound trees ptr) fuel head = some found ∧
      (ptr ∈ nodes.map trees.entry → ∃ node, found = some node ∧ (trees node).Entry = ptr) := by
  induction list with
  | nil => exact ⟨1, none, loop_done (by simp [deleteRound]), by simp⟩
  | @cons a rest present tail ih =>
      by_cases here : (trees a).Entry = ptr
      · exact ⟨1, some a, loop_done (by simp only [deleteRound, if_neg present, if_pos here]), fun _ => ⟨a, rfl, here⟩⟩
      · obtain ⟨fuel, found, ends, finds⟩ := ih
        have again : deleteRound trees ptr a = .again (trees.next a) := by
          simp only [deleteRound, if_neg present, if_neg here, Trees.next]
        refine ⟨fuel + 1, found, by rw [loop_again again, ends], fun member => finds ?_⟩
        rw [List.map_cons] at member
        exact (List.mem_cons.mp member).resolve_left fun same => here same.symm

section Searched
variable {process : ProcessHeap} {fuel : ℕ} {freed : Bool} (nonnull : ptr ≠ 0) (rooted : process.HeapTree ≠ 0)
include nonnull rooted

theorem Delete_found (ends : loop (deleteRound process.trees ptr) fuel process.HeapTree = some (some node)) :
    Delete fuel ptr freed process =
      some (freed, { process with UsedMemory := process.UsedMemory - (process.trees node).EntrySize }) := by
  rw [Delete, if_neg nonnull, if_neg rooted, ends]
  rfl

theorem Delete_missed (ends : loop (deleteRound process.trees ptr) fuel process.HeapTree = some none) :
    Delete fuel ptr freed process = some (false, process.Crash) := by
  rw [Delete, if_neg nonnull, if_neg rooted, ends]
  rfl

end Searched

/-- What `mm_free_ptr` is passed for a list of records. -/
def Trees.released (trees : Trees) (nodes : List VoidPtr) : List VoidPtr :=
  nodes.flatMap fun node => [trees.entry node, node]

theorem released_nodup (entries : (nodes.map trees.entry).Nodup) (distinct : nodes.Nodup)
    (apart : ∀ ptr ∈ nodes.map trees.entry, ptr ∉ nodes) : (trees.released nodes).Nodup := by
  have shuffled : List.Perm (trees.released nodes) (nodes.map trees.entry ++ nodes) := by
    clear entries distinct apart
    induction nodes with
    | nil => exact .refl _
    | cons a rest ih => exact .cons _ ((List.Perm.cons a ih).trans List.perm_middle.symm)
  exact shuffled.nodup_iff.mpr (List.Nodup.append entries distinct apart)

section Turns
variable {fuel : ℕ} (present : head ≠ 0) (filled : (f.trees head).Entry ≠ 0)
include present filled

theorem schedFreePtrTree_refused (refused : takes f.passed (f.trees head).Entry = false) :
    schedFreePtrTree takes (fuel + 1) head f =
      some { f with passed := f.passed ++ [f.trees.entry head], stopped := true } := by
  unfold schedFreePtrTree
  dsimp only
  rw [if_neg present, if_pos filled, refused]
  rfl

theorem schedFreePtrTree_taken (taken : takes f.passed (f.trees head).Entry = true)
    (bare : f.trees.next head = 0 ∨ (f.trees (f.trees.next head)).Child = 0) (childless : (f.trees head).Child = 0) :
    schedFreePtrTree takes (fuel + 1) head f = schedFreePtrTree takes fuel (f.trees.next head)
      { f with passed := f.passed ++ [f.trees.entry head, head], stopped := false } := by
  have none : ¬ ((f.trees head).Next ≠ 0 ∧ (f.trees (f.trees head).Next).Child ≠ 0) :=
    fun both => bare.elim both.1 both.2
  have same : Function.update f.trees head { f.trees head with Child := 0 } = f.trees := by
    rw [← childless]
    exact Function.update_eq_self head f.trees
  rw [schedFreePtrTree]
  dsimp only
  rw [if_neg present, if_pos filled, taken]
  dsimp only [Bool.not_true]
  rw [if_neg (by simp), if_neg none, Option.bind_some]
  dsimp only
  rw [if_neg (by simp), same, List.append_assoc]
  rfl

end Turns

theorem exit_walk (list : Follows f.trees.next 0 head nodes) (entries : nodes.map f.trees.entry = live ++ stale)
    (plain : ∀ node ∈ nodes, (f.trees node).Entry ≠ 0 ∧ (f.trees node).Child = 0)
    (taken : ∀ passed, ∀ ptr ∈ live, ptr ∉ passed → takes passed ptr = true)
    (distinct : (f.passed ++ f.trees.released nodes).Nodup) :
    ∃ fuel f' pre, schedFreePtrTree takes fuel head f = some f' ∧ f'.passed = f.passed ++ pre ∧
      pre <+: f.trees.released nodes ∧ ∀ ptr ∈ live, ptr ∈ pre := by
  induction nodes generalizing head live stale f with
  | nil =>
      cases list with
      | nil =>
          obtain ⟨rfl, rfl⟩ := List.nil_eq_append_iff.mp entries
          exact ⟨1, f, [], by simp [schedFreePtrTree], by simp, by simp, by simp⟩
  | cons a rest ih =>
      obtain ⟨filled, childless⟩ := plain a (by simp)
      have present : a ≠ 0 := list.nonnull a (by simp)
      have here : f.trees.released (a :: rest) = f.trees.entry a :: a :: f.trees.released rest := rfl
      have unpassed : f.trees.entry a ∉ f.passed := by
        rw [here] at distinct
        exact fun member => List.disjoint_of_nodup_append distinct member (by simp)
      cases list with
      | cons _ tail =>
          cases answer : takes f.passed (f.trees a).Entry with
          | false =>
              -- `MUST_PASS` stops here, at an allocation that is not live any more.
              have none : live = [] := by
                cases live with
                | nil => rfl
                | cons ptr later =>
                    obtain ⟨same, -⟩ := List.cons.inj entries
                    have takes := taken f.passed (f.trees.entry a) (by simp [same]) unpassed
                    exact absurd (answer.symm.trans takes) (by decide)
              refine ⟨1, _, [f.trees.entry a], schedFreePtrTree_refused present filled answer, rfl, ?_, by simp [none]⟩
              rw [here]
              exact ⟨a :: f.trees.released rest, rfl⟩
          | true =>
              have bare : f.trees.next a = 0 ∨ (f.trees (f.trees.next a)).Child = 0 := by
                by_cases last : rest = []
                · subst last
                  exact .inl tail.ends
                · exact .inr (plain _ (List.mem_cons_of_mem _ (tail.head_mem last))).2
              obtain ⟨stale', split, first⟩ : ∃ stale', rest.map f.trees.entry = live.tail ++ stale' ∧
                  ∀ ptr ∈ live, ptr = f.trees.entry a ∨ ptr ∈ live.tail := by
                cases live with
                | nil => exact ⟨stale.tail, by rw [List.nil_append] at entries; rw [← entries]; rfl, by simp⟩
                | cons ptr later =>
                    obtain ⟨rfl, remain⟩ := List.cons.inj entries
                    exact ⟨stale, remain, fun ptr member => List.mem_cons.mp member⟩
              let f₁ : Freeing := { f with passed := f.passed ++ [f.trees.entry a, a], stopped := false }
              obtain ⟨fuel, f', pre, ends, passes, front, all⟩ := @ih (f.trees.next a) live.tail stale' f₁ tail
                split (fun node member => plain node (List.mem_cons_of_mem _ member))
                (fun passed ptr member => taken passed ptr (List.mem_of_mem_tail member))
                (by simpa [here, f₁] using distinct)
              refine ⟨fuel + 1, f', f.trees.entry a :: a :: pre, ?_, ?_, ?_, ?_⟩
              · rw [schedFreePtrTree_taken present filled answer bare childless, ends]
              · rw [passes, List.append_assoc]
                rfl
              · rw [here]
                exact List.cons_prefix_cons.mpr ⟨rfl, List.cons_prefix_cons.mpr ⟨rfl, front⟩⟩
              · intro ptr member
                rcases first ptr member with rfl | later
                · exact List.mem_cons_self
                · exact List.mem_cons_of_mem _ (List.mem_cons_of_mem _ (all ptr later))

end Walks

/-! ## What the calls keep -/

/-- The end of a list whose records can be added to. -/
structure Closes (h : HeapHistory) (last : VoidPtr) : Prop where
  black : (h.process.trees last).Color = .kBlackTreeKind
  upper : ∃ upper ∈ h.records, Ends h.process.trees last upper ∧ h.process.trees.next upper = 0

/-- The records from `HeapTree` on, the live allocations before the deleted ones. -/
structure Linked (h : HeapHistory) (chain stale : List VoidPtr) : Prop where
  follows : Follows h.process.trees.next 0 h.process.HeapTree chain
  entries : chain.map h.process.trees.entry = h.live ++ stale
  distinct : (h.live ++ stale).Nodup
  apart : ∀ ptr ∈ h.live ++ stale, ptr ≠ 0 ∧ ptr ∉ h.records
  recorded : ∀ node ∈ chain, node ∈ h.records
  plain : ∀ node ∈ chain, (h.process.trees node).EntrySize ≠ 0 ∧ (h.process.trees node).Child = 0
  alike : ∀ root second rest, chain = root :: second :: rest →
    ∀ node ∈ rest, (h.process.trees node).EntrySize = (h.process.trees second).EntrySize
  top : chain ≠ [] → (h.process.trees h.process.HeapTree).Parent = 0
  closes : ∀ front last, chain = front ++ [last] → Closes h last

section Kept
variable {h h' : HeapHistory} {chain stale front dropped : List VoidPtr} {sz padAmount : SizeT}
  {ptr node prev upper : VoidPtr} {call : HeapCall}

theorem Linked.released_nodup (linked : Linked h chain stale) : (h.process.trees.released chain).Nodup := by
  refine Sched.released_nodup (linked.entries ▸ linked.distinct) linked.follows.nodup fun ptr member inside => ?_
  rw [linked.entries] at member
  exact (linked.apart ptr member).2 (linked.recorded ptr inside)

theorem Linked.losesNothing (linked : Linked h chain stale) : LosesNothing h where
  reached := by
    intro ptr member
    have entry : ptr ∈ chain.map h.process.trees.entry := linked.entries ▸ List.mem_append_left _ member
    obtain ⟨node, inside, same⟩ := List.mem_map.mp entry
    exact ⟨node, linked.follows.nonnull node inside, linked.follows.reaches inside, same⟩
  found := by
    intro ptr member freed
    have entry : ptr ∈ chain.map h.process.trees.entry := linked.entries ▸ List.mem_append_left _ member
    have nonempty : h.process.HeapTree ≠ 0 := by
      refine linked.follows.nonnull _ (linked.follows.head_mem ?_)
      rintro rfl
      cases entry
    obtain ⟨fuel, found, ends, finds⟩ := @delete_search _ _ ptr _ linked.follows
    obtain ⟨node, rfl, same⟩ := finds entry
    exact ⟨fuel, node, same, Delete_found (linked.apart ptr (List.mem_append_left _ member)).1 nonempty ends⟩
  released := by
    intro takes taken
    have plain : ∀ node ∈ chain, (h.process.trees node).Entry ≠ 0 ∧ (h.process.trees node).Child = 0 := by
      intro node member
      have entry : h.process.trees.entry node ∈ h.live ++ stale := linked.entries ▸ List.mem_map_of_mem member
      exact ⟨(linked.apart _ entry).1, (linked.plain node member).2⟩
    have distinct := linked.released_nodup
    obtain ⟨fuel, f', pre, ends, passes, front, all⟩ := exit_walk (f := ⟨[], false, h.process.trees⟩) linked.follows
      linked.entries plain taken (by simpa using distinct)
    refine ⟨fuel, f', ends, fun ptr member => ?_⟩
    rw [passes, List.nil_append]
    exact List.count_eq_one_of_mem (distinct.sublist front.sublist) (all ptr member)

/-! ### A record that is linked -/

section Linking
variable {trees : Trees}

theorem link_node (differ : node ≠ prev) :
    trees.link ⟨upper, prev, false⟩ node ptr sz padAmount node =
      ⟨ptr, sz, padAmount, .kBlackTreeKind, upper, 0, prev, 0⟩ := by
  simp [Trees.link, Function.update_of_ne differ]

theorem link_prev (differ : node ≠ prev) : trees.link ⟨upper, prev, false⟩ node ptr sz padAmount prev =
    { trees prev with Color := .kRedTreeKind, Next := node } := by
  simp [Trees.link, Function.update_of_ne differ.symm]

theorem link_other {other : VoidPtr} (beside : other ≠ node) (behind : other ≠ prev) :
    trees.link ⟨upper, prev, false⟩ node ptr sz padAmount other = trees other := by
  simp [Trees.link, Function.update_of_ne beside, Function.update_of_ne behind]

end Linking

/-- The history once `New` has made the first record. -/
def HeapHistory.first (h : HeapHistory) (node ptr : VoidPtr) (sz padAmount : SizeT) : HeapHistory where
  process := { h.process with
    HeapTree := node
    trees := Function.update h.process.trees node ⟨ptr, sz, padAmount, .kBlackTreeKind, 0, 0, 0, 0⟩
    UsedMemory := h.process.UsedMemory + sz }
  live := h.live ++ [ptr]
  records := h.records ++ [node]

/-- The history once `New` has linked a record behind `prev`. -/
def HeapHistory.linked (h : HeapHistory) (place : Place) (node ptr : VoidPtr) (sz padAmount : SizeT) : HeapHistory where
  process := { h.process with
    trees := h.process.trees.link place node ptr sz padAmount
    UsedMemory := h.process.UsedMemory + sz }
  live := h.live ++ [ptr]
  records := h.records ++ [node]

/-- The new record closes the list: the search goes up to the record itself, or on to the record it went
up to before. -/
theorem closes_link (ends : Ends h.process.trees prev upper) (free : h.process.trees.next upper = 0)
    (member : upper ∈ h.records) (present : node ≠ 0) (differ : node ≠ prev) (unmade : node ∉ h.records) :
    Closes (h.linked ⟨upper, prev, false⟩ node ptr sz padAmount) node := by
  let trees' := h.process.trees.link ⟨upper, prev, false⟩ node ptr sz padAmount
  have made : trees' node = ⟨ptr, sz, padAmount, .kBlackTreeKind, upper, 0, prev, 0⟩ := link_node differ
  have beside : upper ≠ node := fun same => unmade (same ▸ member)
  have climbs : schedTryGoUpperPtrTree trees' node =
      if trees'.next upper = 0 then upper else trees'.next upper := by
    unfold schedTryGoUpperPtrTree Trees.next
    dsimp only
    rw [if_neg present, made, if_pos ends.nonnull]
  have black : (trees' node).Color = .kBlackTreeKind := congrArg ProcessHeapTree.Color made
  refine ⟨black, ?_⟩
  by_cases last : upper = prev
  · have next : trees'.next upper = node := by rw [last]; exact congrArg ProcessHeapTree.Next (link_prev differ)
    rw [next, if_neg present] at climbs
    exact ⟨node, List.mem_append_right _ (List.mem_singleton_self _), ⟨climbs, present, black⟩,
      congrArg ProcessHeapTree.Next made⟩
  · have same : trees' upper = h.process.trees upper := link_other beside last
    have next : trees'.next upper = 0 := (congrArg ProcessHeapTree.Next same).trans free
    rw [if_pos next] at climbs
    exact ⟨upper, List.mem_append_left _ member, ⟨climbs, ends.nonnull,
      (congrArg ProcessHeapTree.Color same).trans ends.black⟩, next⟩

theorem Linked.link (linked : Linked h (front ++ prev :: dropped) stale)
    (kept : (front ++ [prev]).map h.process.trees.entry = h.live)
    (alike : ∀ node ∈ (front ++ [prev]).tail, (h.process.trees node).EntrySize = sz)
    (member : upper ∈ h.records) (ends : Ends h.process.trees prev upper) (free : h.process.trees.next upper = 0)
    (served : HeapCall.Served h (.new sz padAmount ptr node)) (room : h.process.UsedMemory ≤ kCPSMaxMemoryLimit) :
    Linked (h.linked ⟨upper, prev, false⟩ node ptr sz padAmount) (front ++ [prev, node]) [] := by
  obtain ⟨sized, filled, present, differ, unused, unmade⟩ := served room
  have fresh : ∀ other ∈ front ++ prev :: dropped, other ≠ node := by
    rintro other inside rfl
    exact unmade (List.mem_append_right _ (linked.recorded _ inside))
  have behind : node ≠ prev := (fresh prev (by simp)).symm
  let trees' := h.process.trees.link ⟨upper, prev, false⟩ node ptr sz padAmount
  have made : trees' node = ⟨ptr, sz, padAmount, .kBlackTreeKind, upper, 0, prev, 0⟩ := link_node behind
  have turned : trees' prev = { h.process.trees prev with Color := .kRedTreeKind, Next := node } := link_prev behind
  have before : ∀ other ∈ front, trees' other = h.process.trees other := by
    intro other inside
    refine link_other (fresh other (by simp [inside])) ?_
    rintro rfl
    exact List.disjoint_of_nodup_append linked.follows.nodup inside (by simp)
  have same : ∀ other ∈ front ++ [prev], trees'.entry other = h.process.trees.entry other ∧
      (trees' other).EntrySize = (h.process.trees other).EntrySize ∧
      (trees' other).Child = (h.process.trees other).Child ∧
      (trees' other).Parent = (h.process.trees other).Parent := by
    intro other inside
    rcases List.mem_append.mp inside with inside | inside
    · simp [Trees.entry, before other inside]
    · obtain rfl := List.mem_singleton.mp inside
      simp [Trees.entry, turned]
  have stay : ∀ other ∈ front ++ [prev], other ∈ front ++ prev :: dropped := by
    intro other inside
    rcases List.mem_append.mp inside with inside | inside
    · exact List.mem_append_left _ inside
    · exact List.mem_append_right _ (List.mem_singleton.mp inside ▸ List.mem_cons_self)
  have split : front ++ [prev, node] = (front ++ [prev]) ++ [node] := by simp
  have tails : (front ++ [prev, node]).tail = (front ++ [prev]).tail ++ [node] := by
    rw [split, List.tail_append_of_ne_nil (by simp)]
  have sizes : ∀ other ∈ (front ++ [prev, node]).tail, (trees' other).EntrySize = sz := by
    intro other inside
    rw [tails] at inside
    rcases List.mem_append.mp inside with inside | inside
    · rw [(same other (List.mem_of_mem_tail inside)).2.1, alike other inside]
    · rw [List.mem_singleton.mp inside, made]
  have lives : ∀ other ∈ h.live, other ≠ 0 ∧ other ∉ h.records := fun other inside =>
    linked.apart other (List.mem_append_left _ inside)
  refine ⟨?_, ?_, ?_, ?_, ?_, ?_, ?_, ?_, ?_⟩
  · change NextList.Follows trees'.next 0 h.process.HeapTree (front ++ [prev, node])
    refine linked.follows.relink (fun other inside => ?_) ?_ present ?_
    · exact congrArg ProcessHeapTree.Next (before other inside)
    · exact congrArg ProcessHeapTree.Next turned
    · exact congrArg ProcessHeapTree.Next made
  · have entries : (front ++ [prev]).map trees'.entry = h.live := by
      rw [← kept]
      exact List.map_congr_left fun other inside => (same other inside).1
    change (front ++ [prev, node]).map trees'.entry = (h.live ++ [ptr]) ++ []
    rw [split, List.map_append, entries, List.append_nil, List.map_singleton, Trees.entry, made]
  · change ((h.live ++ [ptr]) ++ []).Nodup
    rw [List.append_nil]
    refine List.Nodup.append linked.distinct.of_append_left (List.nodup_singleton _) ?_
    rw [List.disjoint_singleton]
    exact fun inside => unused (List.mem_append_left _ inside)
  · intro other inside
    rw [List.append_nil] at inside
    rcases List.mem_append.mp inside with inside | inside
    · refine ⟨(lives other inside).1, fun member => ?_⟩
      rcases List.mem_append.mp member with member | member
      · exact (lives other inside).2 member
      · exact unmade (List.mem_append_left _ (List.mem_singleton.mp member ▸ inside))
    · obtain rfl := List.mem_singleton.mp inside
      refine ⟨filled, fun member => ?_⟩
      rcases List.mem_append.mp member with member | member
      · exact unused (List.mem_append_right _ member)
      · exact differ (List.mem_singleton.mp member)
  · intro other inside
    rw [split] at inside
    rcases List.mem_append.mp inside with inside | inside
    · exact List.mem_append_left _ (linked.recorded other (stay other inside))
    · exact List.mem_append_right _ inside
  · intro other inside
    rw [split] at inside
    rcases List.mem_append.mp inside with inside | inside
    · obtain ⟨-, size, child, -⟩ := same other inside
      have plain := linked.plain other (stay other inside)
      exact ⟨size ▸ plain.1, child ▸ plain.2⟩
    · obtain rfl := List.mem_singleton.mp inside
      exact ⟨(congrArg ProcessHeapTree.EntrySize made).trans_ne sized, congrArg ProcessHeapTree.Child made⟩
  · intro root second rest list other inside
    rw [list] at sizes
    exact (sizes other (List.mem_cons_of_mem _ inside)).trans (sizes second List.mem_cons_self).symm
  · intro _
    have root : h.process.HeapTree ∈ front ++ [prev] := by
      have start := linked.follows
      cases front with
      | nil => exact start.head_eq ▸ List.mem_cons_self
      | cons _ _ => exact start.head_eq ▸ List.mem_cons_self
    exact (same _ root).2.2.2.trans (linked.top (by simp))
  · intro front' last list
    rw [split] at list
    obtain ⟨-, ended⟩ := List.append_inj' list rfl
    obtain rfl := List.singleton_inj.mp ended
    exact closes_link ends free member present behind fun inside => unmade (List.mem_append_right _ inside)

/-! ### The calls -/

theorem run_full (full : h.process.UsedMemory > kCPSMaxMemoryLimit) :
    (HeapCall.new sz padAmount ptr node).run 0 h = some h := by
  simp only [HeapCall.run, New, if_pos full, Option.map_some]

theorem run_first (room : h.process.UsedMemory ≤ kCPSMaxMemoryLimit) (empty : h.process.HeapTree = 0)
    (present : node ≠ 0) :
    (HeapCall.new sz padAmount ptr node).run 0 h = some (h.first node ptr sz padAmount) := by
  simp only [HeapCall.run, New, if_neg (BitVec.not_lt.mpr room), if_pos empty, if_neg present, Option.map_some]
  rfl

theorem run_linked {place : Place} {fuel : ℕ} (room : h.process.UsedMemory ≤ kCPSMaxMemoryLimit)
    (rooted : h.process.HeapTree ≠ 0) (present : node ≠ 0)
    (found : loop (placeRound h.process.trees sz) fuel ⟨h.process.HeapTree, h.process.HeapTree, false⟩ = some place) :
    (HeapCall.new sz padAmount ptr node).run fuel h = some (h.linked place node ptr sz padAmount) := by
  simp only [HeapCall.run, New, if_neg (BitVec.not_lt.mpr room), if_neg rooted, found, Option.map_some, if_neg present]
  rfl

theorem Linked.first (linked : Linked h [] stale) (served : HeapCall.Served h (.new sz padAmount ptr node))
    (room : h.process.UsedMemory ≤ kCPSMaxMemoryLimit) :
    Linked (h.first node ptr sz padAmount) [node] [] := by
  obtain ⟨sized, filled, present, differ, unused, unmade⟩ := served room
  obtain ⟨none, -⟩ := List.nil_eq_append_iff.mp linked.entries
  let trees' : Trees := Function.update h.process.trees node ⟨ptr, sz, padAmount, .kBlackTreeKind, 0, 0, 0, 0⟩
  have made : trees' node = ⟨ptr, sz, padAmount, .kBlackTreeKind, 0, 0, 0, 0⟩ := Function.update_self ..
  have climbs : schedTryGoUpperPtrTree trees' node = node := by
    unfold schedTryGoUpperPtrTree
    dsimp only
    rw [if_neg present, made, if_neg (not_not.mpr rfl), made, if_pos rfl]
  have live : (h.first node ptr sz padAmount).live = [ptr] := by rw [HeapHistory.first, none, List.nil_append]
  have next : trees'.next node = 0 := congrArg ProcessHeapTree.Next made
  refine ⟨?_, ?_, ?_, ?_, ?_, ?_, ?_, ?_, ?_⟩
  · refine .cons present ?_
    change Follows trees'.next 0 (trees'.next node) []
    rw [next]
    exact .nil
  · rw [live]
    exact congrArg (fun tree => [tree.Entry]) made
  · rw [live]
    exact List.nodup_singleton ptr
  · intro other inside
    rw [live] at inside
    obtain rfl := List.mem_singleton.mp inside
    refine ⟨filled, fun member => ?_⟩
    rcases List.mem_append.mp member with member | member
    · exact unused (List.mem_append_right _ member)
    · exact differ (List.mem_singleton.mp member)
  · exact fun other inside => List.mem_append_right _ inside
  · intro other inside
    obtain rfl := List.mem_singleton.mp inside
    exact ⟨(congrArg ProcessHeapTree.EntrySize made).trans_ne sized, congrArg ProcessHeapTree.Child made⟩
  · intro root second rest list
    cases list
  · exact fun _ => congrArg ProcessHeapTree.Parent made
  · intro front last list
    have alone : [] ++ [node] = front ++ [last] := list
    obtain ⟨-, ended⟩ := List.append_inj' alone rfl
    obtain rfl := List.singleton_inj.mp ended
    exact ⟨congrArg ProcessHeapTree.Color made, node, List.mem_append_right _ (List.mem_singleton_self _),
      ⟨climbs, present, congrArg ProcessHeapTree.Color made⟩, congrArg ProcessHeapTree.Next made⟩

theorem Linked.all_live (linked : Linked h chain stale)
    (live : ∀ node, node ≠ 0 → Reaches h.process.trees.next 0 h.process.HeapTree node →
      (h.process.trees node).Entry ∈ h.live) : chain.map h.process.trees.entry = h.live ∧ stale = [] := by
  have none : stale = [] := by
    refine List.eq_nil_iff_forall_not_mem.mpr fun ptr member => ?_
    have inside : ptr ∈ chain.map h.process.trees.entry := linked.entries ▸ List.mem_append_right _ member
    obtain ⟨node, there, rfl⟩ := List.mem_map.mp inside
    exact List.disjoint_of_nodup_append linked.distinct
      (live node (linked.follows.nonnull node there) (linked.follows.reaches there)) member
  exact ⟨by rw [linked.entries, none, List.append_nil], none⟩

theorem Linked.alike_tail (linked : Linked h chain stale)
    (same : h.process.trees.next h.process.HeapTree = 0 ∨
      (h.process.trees (h.process.trees.next h.process.HeapTree)).EntrySize = sz) :
    ∀ node ∈ chain.tail, (h.process.trees node).EntrySize = sz := by
  intro node member
  have follows := linked.follows
  match chain, follows, linked.alike, member with
  | root :: second :: rest, follows, alike, member =>
      obtain rfl := follows.head_eq
      have next : h.process.trees.next h.process.HeapTree = second := follows.tail.head_eq
      have present : second ≠ 0 := follows.nonnull second (by simp)
      rw [next] at same
      have size := same.resolve_left present
      rcases List.mem_cons.mp member with rfl | later
      · exact size
      · exact (alike _ second rest rfl node later).trans size

theorem Linked.second_deleted (linked : Linked h chain stale) (rooted : h.process.HeapTree ≠ 0)
    (second : h.process.trees.next h.process.HeapTree ≠ 0)
    (third : h.process.trees.next (h.process.trees.next h.process.HeapTree) = 0)
    (live : (h.process.trees h.process.HeapTree).Entry ∈ h.live)
    (deleted : (h.process.trees (h.process.trees.next h.process.HeapTree)).Entry ∉ h.live) :
    chain = [h.process.HeapTree, h.process.trees.next h.process.HeapTree] ∧
      [h.process.HeapTree].map h.process.trees.entry = h.live := by
  have last : Follows h.process.trees.next 0 (h.process.trees.next (h.process.trees.next h.process.HeapTree)) [] := by
    rw [third]
    exact .nil
  have two := linked.follows.unique (.cons rooted (.cons second last))
  refine ⟨two, ?_⟩
  have entries := linked.entries
  rw [two] at entries
  match h.live, entries, live, deleted with
  | [only], entries, _, _ => exact congrArg (fun first => [first]) (List.cons.inj entries).1
  | first :: other :: rest, entries, _, deleted =>
      obtain ⟨-, same⟩ := List.cons.inj entries
      have there : h.process.trees.entry (h.process.trees.next h.process.HeapTree) = other := (List.cons.inj same).1
      exact absurd (List.mem_cons_of_mem _ (List.mem_cons.mpr (.inl there))) deleted

/-- The list depends on the records alone, and not on how many of its allocations are live. -/
theorem Linked.resplit (linked : Linked h chain stale) {process : ProcessHeap} {live' stale' : List VoidPtr}
    (trees : process.trees = h.process.trees) (root : process.HeapTree = h.process.HeapTree)
    (split : live' ++ stale' = h.live ++ stale) : Linked ⟨process, live', h.records⟩ chain stale' := by
  obtain ⟨status, used, root', trees'⟩ := process
  dsimp only at trees root
  subst trees root
  refine ⟨linked.follows, ?_, ?_, ?_, linked.recorded, linked.plain, linked.alike, linked.top, ?_⟩
  · exact linked.entries.trans split.symm
  · exact split ▸ linked.distinct
  · exact fun ptr member => linked.apart ptr (split ▸ member)
  · intro front last list
    obtain ⟨black, upper⟩ := linked.closes front last list
    exact ⟨black, upper⟩

theorem new_returns (linked : Linked h chain stale) (served : HeapCall.Served h (.new sz padAmount ptr node))
    (place : InPlace h (.new sz padAmount ptr node)) :
    ∃ fuel h' chain' stale', (HeapCall.new sz padAmount ptr node).run fuel h = some h' ∧ Linked h' chain' stale' := by
  by_cases full : h.process.UsedMemory > kCPSMaxMemoryLimit
  · exact ⟨0, h, chain, stale, run_full full, linked⟩
  have room := BitVec.not_lt.mp full
  obtain ⟨sized, -, present, -⟩ := served room
  by_cases empty : h.process.HeapTree = 0
  · have none : chain = [] := by
      by_contra nonempty
      exact linked.follows.nonnull _ (linked.follows.head_mem nonempty) empty
    subst none
    exact ⟨0, _, _, _, run_first room empty present, linked.first served room⟩
  rcases (place.resolve_left full).resolve_left empty with ⟨live, same⟩ | ⟨live, second, third, deleted, differ⟩
  · obtain ⟨entries, rfl⟩ := linked.all_live live
    rcases List.eq_nil_or_concat chain with rfl | ⟨front, last, rfl⟩
    · exact absurd linked.follows.ends empty
    rw [List.concat_eq_append] at *
    obtain ⟨-, upper, member, ends, free⟩ := linked.closes front last rfl
    have alike := linked.alike_tail same
    obtain ⟨fuel, found⟩ := @place_last _ _ h.process.HeapTree _ _ _ _ linked.follows linked.plain
      alike sized ends
    exact ⟨fuel, _, _, _, run_linked room empty present found,
      linked.link entries alike member ends free served room⟩
  · obtain ⟨rfl, only⟩ := linked.second_deleted empty second third live deleted
    have plain := linked.plain h.process.HeapTree (by simp)
    have black := (linked.closes [h.process.HeapTree] _ rfl).black
    have member := linked.recorded (h.process.trees.next h.process.HeapTree) (by simp)
    have ends := ends_second empty (linked.top (by simp)) rfl second black
    have last := @placeRound_ends _ h.process.HeapTree _ _ _ empty plain.1 plain.2 (.inr differ) ends
    have found : Loops.loop (placeRound h.process.trees sz) 1 _ = _ := loop_done last
    exact ⟨1, _, _, _, run_linked room empty present found,
      @Linked.link _ _ [] _ _ _ _ _ _ _ linked only (by simp) member ends third served room⟩

theorem Delete_ends (linked : Linked h chain stale) (ptr : VoidPtr) (freed : Bool) :
    ∃ fuel deleted process, Delete fuel ptr freed h.process = some (deleted, process) ∧
      process.trees = h.process.trees ∧ process.HeapTree = h.process.HeapTree ∧ (deleted = true → freed = true) := by
  by_cases null : ptr = 0
  · exact ⟨0, false, h.process, by rw [Delete, if_pos null], rfl, rfl, by simp⟩
  by_cases empty : h.process.HeapTree = 0
  · exact ⟨0, false, h.process, by rw [Delete, if_neg null, if_pos empty], rfl, rfl, by simp⟩
  obtain ⟨fuel, found, ends, -⟩ := @delete_search _ _ ptr _ linked.follows
  cases found with
  | some node => exact ⟨fuel, freed, _, Delete_found null empty ends, rfl, rfl, id⟩
  | none =>
      refine ⟨fuel, false, h.process.Crash, Delete_missed null empty ends, ?_, ?_, by simp⟩
      all_goals
        unfold ProcessHeap.Crash
        split <;> rfl

theorem delete_returns {freed : Bool} (linked : Linked h chain stale) (place : InPlace h (.delete ptr freed)) :
    ∃ fuel h' chain' stale', (HeapCall.delete ptr freed).run fuel h = some h' ∧ Linked h' chain' stale' := by
  obtain ⟨fuel, deleted, process, returns, trees, root, answered⟩ := Delete_ends linked ptr freed
  have run : (HeapCall.delete ptr freed).run fuel h =
      some ⟨process, if deleted then h.live.erase ptr else h.live, h.records⟩ := by
    rw [HeapCall.run, returns]
    rfl
  by_cases erased : deleted = true ∧ ptr ∈ h.live
  · obtain ⟨rfl, member⟩ := erased
    obtain ⟨front, list⟩ := List.getLast?_eq_some_iff.mp (place (answered rfl) member)
    have absent : ptr ∉ front := by
      have distinct := linked.distinct.of_append_left
      rw [list] at distinct
      exact fun inside => List.disjoint_of_nodup_append distinct inside (by simp)
    refine ⟨fuel, _, chain, ptr :: stale, run, linked.resplit trees root ?_⟩
    rw [if_pos rfl, list, List.erase_append_right _ absent]
    simp
  · refine ⟨fuel, _, chain, stale, run, linked.resplit trees root ?_⟩
    split
    case isTrue done => rw [List.erase_of_not_mem fun member => erased ⟨done, member⟩]
    case isFalse => rfl

/-! ### Runs -/

theorem call_returns (linked : Linked h chain stale) (served : call.Served h) (place : InPlace h call) :
    ∃ fuel h' chain' stale', call.run fuel h = some h' ∧ Linked h' chain' stale' := by
  cases call with
  | new sz padAmount ptr node => exact new_returns linked served place
  | delete ptr freed => exact delete_returns linked place

theorem run_steady (call : HeapCall) (h : HeapHistory) : Steady fun fuel => call.run fuel h := by
  cases call with
  | new sz padAmount ptr node =>
      refine Steady.map _ ?_
      unfold New
      split
      · exact steady_const _
      split
      · exact steady_const _
      · exact Steady.map _ (loop_steady _ _)
  | delete ptr freed =>
      refine Steady.map _ ?_
      unfold Delete
      split
      · exact steady_const _
      split
      · exact steady_const _
      · exact Steady.map _ (loop_steady _ _)

theorem servedStep_functional (call : HeapCall) (h h' h'' : HeapHistory) (first : ServedStep call h h')
    (second : ServedStep call h h'') : h' = h'' := by
  obtain ⟨-, fuel, ends⟩ := first
  obtain ⟨-, fuel', ends'⟩ := second
  exact (run_steady call h).unique ends ends'

theorem heapStep_kept (linked : ∃ chain stale, Linked h chain stale) (place : InPlace h call)
    (taken : ServedStep call h h') : ∃ chain stale, Linked h' chain stale := by
  obtain ⟨chain, stale, linked⟩ := linked
  obtain ⟨fuel, h'', chain', stale', ends, kept⟩ := call_returns linked taken.1 place
  obtain rfl := servedStep_functional call h h' h'' taken ⟨taken.1, fuel, ends⟩
  exact ⟨chain', stale', kept⟩

end Kept

theorem unallocated_linked {process : ProcessHeap} (empty : process.HeapTree = 0) :
    Linked (unallocated process) [] [] := by
  refine ⟨?_, rfl, List.nodup_nil, by simp [unallocated], by simp, by simp, by simp, by simp, by simp⟩
  change Follows process.trees.next 0 process.HeapTree []
  rw [empty]
  exact .nil

/-! ## Three sizes -/

def blankProcess : ProcessHeap := ⟨.kRunning, 0, 0, fun _ => ⟨0, 0, 0, .kInvalidTreeKind, 0, 0, 0, 0⟩⟩

def oneSize : HeapHistory := (unallocated blankProcess).first 0x1000 0x100 16 0

def twoSizes : HeapHistory := oneSize.linked ⟨0x1000, 0x1000, false⟩ 0x2000 0x200 32 0

def threeSizes : HeapHistory := twoSizes.linked ⟨0x2000, 0x1000, false⟩ 0x3000 0x300 48 0

theorem oneSize_step : ServedStep (.new 16 0 0x100 0x1000) (unallocated blankProcess) oneSize :=
  ⟨fun _ => by decide, 0, run_first (by decide) rfl (by decide)⟩

theorem twoSizes_step : ServedStep (.new 32 0 0x200 0x2000) oneSize twoSizes :=
  ⟨fun _ => by decide, 1, run_linked (by decide) (by decide) (by decide) (by decide)⟩

theorem threeSizes_step : ServedStep (.new 48 0 0x300 0x3000) twoSizes threeSizes :=
  ⟨fun _ => by decide, 1, run_linked (by decide) (by decide) (by decide) (by decide)⟩

end Ne.Kernel.Sched
