import NeKernel.Sched.HeapTreeRuns
import Mathlib.Data.List.Chain

/-!
# Whether the search for a place ends

From a record whose size does not lead on the search of `New` goes up, and then on to what follows there. As
long as each record has the one before it for a parent, this leads back to where it came from.
-/

namespace Ne.Kernel.Sched
open Runs Loops NextList

/-! ## Rounds -/

section Rounds
variable {trees : Trees} {node prev upper head d : VoidPtr} {nodes : List VoidPtr} {sz : SizeT}

/-- The size asked for leads on to the next record. -/
def LeadsOn (trees : Trees) (sz : SizeT) (node : VoidPtr) : Prop :=
  trees.next node ≠ 0 ∧ (trees (trees.next node)).EntrySize > 0 ∧ (trees (trees.next node)).EntrySize = sz

theorem placeRound_climbs (present : node ≠ 0) (sized : (trees node).EntrySize ≠ 0)
    (childless : (trees node).Child = 0) (apart : ¬ LeadsOn trees sz node) :
    placeRound trees sz ⟨node, prev, false⟩ =
      if schedTryGoUpperPtrTree trees node ≠ 0 ∧
          (trees (schedTryGoUpperPtrTree trees node)).Color = .kBlackTreeKind then
        .done ⟨schedTryGoUpperPtrTree trees node, node, false⟩
      else .again ⟨schedTryGoUpperPtrTree trees node, node, false⟩ := by
  unfold placeRound
  dsimp only
  rw [if_neg present, if_neg (mt (one_le_iff _).mp sized), if_neg (fun both => both.1 childless)]
  exact if_neg apart

theorem placeRound_leads (present : node ≠ 0) (sized : (trees node).EntrySize ≠ 0)
    (childless : (trees node).Child = 0) (leads : LeadsOn trees sz node) :
    placeRound trees sz ⟨node, prev, false⟩ = .again ⟨trees.next node, node, false⟩ := by
  unfold placeRound
  dsimp only
  rw [if_neg present, if_neg (mt (one_le_iff _).mp sized), if_neg (fun both => both.1 childless)]
  exact if_pos leads

theorem upper_root (present : node ≠ 0) (top : (trees node).Parent = 0) :
    schedTryGoUpperPtrTree trees node = if trees.next node = 0 then node else trees.next node := by
  unfold schedTryGoUpperPtrTree
  dsimp only
  rw [if_neg present, if_neg (not_not.mpr top)]
  rfl

theorem upper_child (present : node ≠ 0) (parent : (trees node).Parent = upper) (there : upper ≠ 0) :
    schedTryGoUpperPtrTree trees node = if trees.next upper = 0 then upper else trees.next upper := by
  unfold schedTryGoUpperPtrTree
  dsimp only
  rw [if_neg present, parent, if_pos there]
  rfl

/-- From a record that goes up to one that is not on the list any more, the search ends whatever the sizes. -/
theorem place_detached (list : Follows trees.next 0 head nodes) (nonempty : nodes ≠ [])
    (sized : (trees head).EntrySize ≠ 0) (childless : ∀ node ∈ nodes, (trees node).Child = 0)
    (ends : ∀ node ∈ nodes, Ends trees node d) : ∃ fuel front last dropped, nodes = front ++ last :: dropped ∧
      loop (placeRound trees sz) fuel ⟨head, prev, false⟩ = some ⟨d, last, false⟩ := by
  induction list generalizing prev with
  | nil => exact absurd rfl nonempty
  | @cons a rest present tail ih =>
      obtain ⟨climbs, there, black⟩ := ends a (by simp)
      by_cases leads : LeadsOn trees sz a
      · have more : rest ≠ [] := by
          rintro rfl
          exact leads.1 tail.ends
        obtain ⟨fuel, front, last, dropped, rfl, found⟩ := @ih a more
          (fun zero => by simpa [zero] using leads.2.1) (fun node member => childless node (by simp [member]))
          (fun node member => ends node (by simp [member]))
        refine ⟨fuel + 1, a :: front, last, dropped, rfl, ?_⟩
        rw [loop_again (placeRound_leads present sized (childless a (by simp)) leads), found]
      · refine ⟨1, [], a, rest, rfl, loop_done ?_⟩
        rw [placeRound_climbs present sized (childless a (by simp)) leads, climbs]
        exact if_pos ⟨there, black⟩

/-- Two records that lead to the second one: the search does not end. -/
theorem place_stuck {root second : VoidPtr} (rooted : root ≠ 0) (follows : trees.next root = second)
    (linked : second ≠ 0) (sized : (trees root).EntrySize ≠ 0 ∧ (trees second).EntrySize ≠ 0)
    (childless : (trees root).Child = 0 ∧ (trees second).Child = 0) (top : (trees root).Parent = 0)
    (parent : (trees second).Parent = root) (red : (trees second).Color = .kRedTreeKind)
    (apart : ¬ LeadsOn trees sz root ∧ ¬ LeadsOn trees sz second) (fuel : ℕ) :
    loop (placeRound trees sz) fuel ⟨root, prev, false⟩ = none := by
  have up : schedTryGoUpperPtrTree trees root = second := by
    rw [upper_root rooted top, follows, if_neg linked]
  have back : schedTryGoUpperPtrTree trees second = second := by
    rw [upper_child linked parent rooted, follows, if_neg linked]
  have grey : ¬ (second ≠ 0 ∧ (trees second).Color = .kBlackTreeKind) := by
    rintro ⟨-, black⟩
    cases red.symm.trans black
  have first : placeRound trees sz ⟨root, prev, false⟩ = .again ⟨second, root, false⟩ := by
    rw [placeRound_climbs rooted sized.1 childless.1 apart.1, up, if_neg grey]
  have later (prev : VoidPtr) : placeRound trees sz ⟨second, prev, false⟩ = .again ⟨second, second, false⟩ := by
    rw [placeRound_climbs linked sized.2 childless.2 apart.2, back, if_neg grey]
  match fuel with
  | 0 => rfl
  | 1 => rw [loop_again first, loop]
  | fuel + 2 => rw [loop_again first, loop_again (later root), loop_stuck (later second)]

end Rounds

/-! ## The list of records -/

/-- Where the records behind the first one go up to: each to the one before it, or all to one that has been
dropped from the list. Behind a first record of size zero the search never gets. -/
inductive Shape (h : HeapHistory) (chain : List VoidPtr) : Prop
  | climbing (parents : chain.IsChain fun a b => (h.process.trees b).Parent = a)
      (alike : ∀ root second rest, chain = root :: second :: rest →
        ∀ node ∈ rest, (h.process.trees node).EntrySize = (h.process.trees second).EntrySize)
  | detached (d : VoidPtr) (made : d ∈ h.records) (apart : d ∉ chain) (present : d ≠ 0)
      (black : (h.process.trees d).Color = .kBlackTreeKind) (last : h.process.trees.next d = 0)
      (parents : ∀ node ∈ chain.tail, (h.process.trees node).Parent = d)
  | sizeless (few : chain.length ≤ 2) (zero : (h.process.trees h.process.HeapTree).EntrySize = 0)

structure Grown (h : HeapHistory) (chain : List VoidPtr) : Prop where
  follows : Follows h.process.trees.next 0 h.process.HeapTree chain
  recorded : ∀ node ∈ chain, node ∈ h.records
  childless : ∀ node ∈ chain, (h.process.trees node).Child = 0
  top : chain ≠ [] → (h.process.trees h.process.HeapTree).Parent = 0
  colored : ∀ front node rest, chain = front ++ node :: rest →
    (h.process.trees node).Color = if rest = [] then .kBlackTreeKind else .kRedTreeKind
  sized : ∀ root second third rest, chain = root :: second :: third :: rest →
    (h.process.trees root).EntrySize ≠ 0 ∧ (h.process.trees second).EntrySize ≠ 0
  shape : Shape h chain

section Growing
variable {h h' : HeapHistory} {chain front dropped : List VoidPtr} {sz padAmount : SizeT}
  {ptr node prev upper : VoidPtr}

/-- What linking a record leaves as it was, and what it makes of the record and of the one before it. -/
structure Links (h : HeapHistory) (upper : VoidPtr) (front : List VoidPtr) (prev node ptr : VoidPtr)
    (sz padAmount : SizeT) (trees : Trees) : Prop where
  made : trees node = ⟨ptr, sz, padAmount, .kBlackTreeKind, upper, 0, prev, 0⟩
  turned : trees prev = { h.process.trees prev with Color := .kRedTreeKind, Next := node }
  before : ∀ other ∈ front, trees other = h.process.trees other
  same : ∀ other ∈ front ++ [prev], (trees other).EntrySize = (h.process.trees other).EntrySize ∧
    (trees other).Child = (h.process.trees other).Child ∧ (trees other).Parent = (h.process.trees other).Parent

theorem Grown.links (grown : Grown h (front ++ prev :: dropped)) (unmade : node ∉ h.records) :
    Links h upper front prev node ptr sz padAmount
      (h.process.trees.link ⟨upper, prev, false⟩ node ptr sz padAmount) := by
  have fresh : ∀ other ∈ front ++ prev :: dropped, other ≠ node := by
    rintro other inside rfl
    exact unmade (grown.recorded _ inside)
  have behind : node ≠ prev := (fresh prev (by simp)).symm
  have before : ∀ other ∈ front, h.process.trees.link ⟨upper, prev, false⟩ node ptr sz padAmount other =
      h.process.trees other := by
    intro other inside
    refine link_other (fresh other (by simp [inside])) ?_
    rintro rfl
    exact List.disjoint_of_nodup_append grown.follows.nodup inside (by simp)
  have turned := @link_prev sz padAmount ptr node prev upper h.process.trees behind
  refine ⟨link_node behind, turned, before, fun other inside => ?_⟩
  rcases List.mem_append.mp inside with inside | inside
  · rw [before other inside]
    exact ⟨rfl, rfl, rfl⟩
  · obtain rfl := List.mem_singleton.mp inside
    rw [turned]
    exact ⟨rfl, rfl, rfl⟩

theorem mem_dropped {other : VoidPtr} (inside : other ∈ front ++ [prev]) : other ∈ front ++ prev :: dropped := by
  rcases List.mem_append.mp inside with inside | inside
  · exact List.mem_append_left _ inside
  · exact List.mem_append_right _ (List.mem_singleton.mp inside ▸ List.mem_cons_self)

theorem Grown.root_mem (grown : Grown h (front ++ prev :: dropped)) : h.process.HeapTree ∈ front ++ [prev] := by
  have start := grown.follows
  cases front with
  | nil => exact start.head_eq ▸ List.mem_cons_self
  | cons _ _ => exact start.head_eq ▸ List.mem_cons_self

theorem Links.colored {trees : Trees} (links : Links h upper front prev node ptr sz padAmount trees)
    (grown : Grown h (front ++ prev :: dropped)) {before rest : List VoidPtr} {other : VoidPtr}
    (list : front ++ [prev] ++ [node] = before ++ other :: rest) :
    (trees other).Color = if rest = [] then .kBlackTreeKind else .kRedTreeKind := by
  rcases List.eq_nil_or_concat rest with rfl | ⟨rest, last, rfl⟩
  · obtain ⟨-, ended⟩ := List.append_inj' list rfl
    obtain rfl := List.singleton_inj.mp ended
    rw [if_pos rfl]
    exact congrArg ProcessHeapTree.Color links.made
  rw [List.concat_eq_append] at list ⊢
  rw [if_neg (by simp)]
  have inside : front ++ [prev] = before ++ other :: rest :=
    (List.append_inj' (list.trans (List.append_assoc before (other :: rest) [last]).symm) rfl).1
  have member : other ∈ front ++ [prev] := inside ▸ List.mem_append_right _ List.mem_cons_self
  rcases List.mem_append.mp member with member | member
  · obtain ⟨front', behind, rfl⟩ := List.append_of_mem member
    refine (congrArg ProcessHeapTree.Color (links.before other member)).trans ?_
    rw [grown.colored front' other (behind ++ prev :: dropped) (by simp), if_neg (by simp)]
  · obtain rfl := List.mem_singleton.mp member
    exact congrArg ProcessHeapTree.Color links.turned

theorem first_two {root second third : VoidPtr} {rest : List VoidPtr}
    (list : front ++ [prev, node] = root :: second :: third :: rest) :
    ∃ rest, front ++ [prev] = root :: second :: rest := by
  match front, list with
  | [_], list =>
      obtain ⟨rfl, rest⟩ := List.cons.inj list
      obtain ⟨rfl, -⟩ := List.cons.inj rest
      exact ⟨_, rfl⟩
  | _ :: _ :: _, list =>
      obtain ⟨rfl, rest⟩ := List.cons.inj list
      obtain ⟨rfl, -⟩ := List.cons.inj rest
      exact ⟨_, rfl⟩

theorem Grown.link (grown : Grown h (front ++ prev :: dropped)) (present : node ≠ 0) (unmade : node ∉ h.records)
    (sized : ∀ root second rest, front ++ [prev] = root :: second :: rest →
      (h.process.trees root).EntrySize ≠ 0 ∧ (h.process.trees second).EntrySize ≠ 0)
    (shape : Shape (h.linked ⟨upper, prev, false⟩ node ptr sz padAmount) (front ++ [prev, node])) :
    Grown (h.linked ⟨upper, prev, false⟩ node ptr sz padAmount) (front ++ [prev, node]) := by
  have links : Links h upper front prev node ptr sz padAmount _ := grown.links unmade
  have split : front ++ [prev, node] = (front ++ [prev]) ++ [node] := by simp
  refine ⟨?_, ?_, ?_, ?_, ?_, ?_, shape⟩
  · refine grown.follows.relink (fun other inside => ?_) ?_ present ?_
    · exact congrArg ProcessHeapTree.Next (links.before other inside)
    · exact congrArg ProcessHeapTree.Next links.turned
    · exact congrArg ProcessHeapTree.Next links.made
  · intro other inside
    rw [split] at inside
    rcases List.mem_append.mp inside with inside | inside
    · exact List.mem_append_left _ (grown.recorded other (mem_dropped inside))
    · exact List.mem_append_right _ inside
  · intro other inside
    rw [split] at inside
    rcases List.mem_append.mp inside with inside | inside
    · exact (links.same other inside).2.1.trans (grown.childless other (mem_dropped inside))
    · obtain rfl := List.mem_singleton.mp inside
      exact congrArg ProcessHeapTree.Child links.made
  · intro _
    exact (links.same _ grown.root_mem).2.2.trans (grown.top (by simp))
  · intro before other rest list
    exact links.colored grown (split.symm.trans list)
  · intro root second third rest list
    obtain ⟨rest, first⟩ := first_two list
    have sizes := sized root second rest first
    have root' := (links.same root (first ▸ List.mem_cons_self)).1
    have second' := (links.same second (first ▸ List.mem_cons_of_mem _ List.mem_cons_self)).1
    exact ⟨root'.trans_ne sizes.1, second'.trans_ne sizes.2⟩

/-! ### Shapes of the new list -/

theorem shape_climbing (grown : Grown h (front ++ [prev])) (unmade : node ∉ h.records)
    (parents : (front ++ [prev]).IsChain fun a b => (h.process.trees b).Parent = a)
    (alike : ∀ other ∈ (front ++ [prev]).tail, (h.process.trees other).EntrySize = sz) :
    Shape (h.linked ⟨prev, prev, false⟩ node ptr sz padAmount) (front ++ [prev, node]) := by
  have links : Links h prev front prev node ptr sz padAmount _ := grown.links unmade
  have split : front ++ [prev, node] = (front ++ [prev]) ++ [node] := by simp
  refine .climbing ?_ ?_
  · rw [split]
    refine List.isChain_append.mpr ⟨?_, .singleton node, ?_⟩
    · refine parents.imp_of_mem_imp fun a b _ member parent => ?_
      exact (links.same b member).2.2.trans parent
    · intro last ends first starts
      rw [List.getLast?_concat] at ends
      obtain rfl := Option.mem_some_iff.mp ends
      obtain rfl := Option.mem_some_iff.mp starts
      exact congrArg ProcessHeapTree.Parent links.made
  · have tails : (front ++ [prev, node]).tail = (front ++ [prev]).tail ++ [node] := by
      rw [split, List.tail_append_of_ne_nil (by simp)]
    have sizes : ∀ other ∈ (front ++ [prev, node]).tail,
        (h.process.trees.link ⟨prev, prev, false⟩ node ptr sz padAmount other).EntrySize = sz := by
      intro other inside
      rw [tails] at inside
      rcases List.mem_append.mp inside with inside | inside
      · exact (links.same other (List.mem_of_mem_tail inside)).1.trans (alike other inside)
      · rw [List.mem_singleton.mp inside, links.made]
    intro root second rest list other inside
    rw [list] at sizes
    exact (sizes other (List.mem_cons_of_mem _ inside)).trans (sizes second List.mem_cons_self).symm

theorem shape_detached {d : VoidPtr} (grown : Grown h (front ++ prev :: dropped)) (unmade : node ∉ h.records)
    (made : d ∈ h.records) (apart : d ∉ front ++ [prev]) (present : d ≠ 0)
    (black : (h.process.trees d).Color = .kBlackTreeKind) (last : h.process.trees.next d = 0)
    (parents : ∀ other ∈ (front ++ [prev]).tail, (h.process.trees other).Parent = d) :
    Shape (h.linked ⟨d, prev, false⟩ node ptr sz padAmount) (front ++ [prev, node]) := by
  have links : Links h d front prev node ptr sz padAmount _ := grown.links unmade
  have split : front ++ [prev, node] = (front ++ [prev]) ++ [node] := by simp
  have beside : d ≠ node := fun same => unmade (same ▸ made)
  have behind : d ≠ prev := fun same => apart (List.mem_append_right _ (List.mem_singleton.mpr same))
  have same : h.process.trees.link ⟨d, prev, false⟩ node ptr sz padAmount d = h.process.trees d :=
    link_other beside behind
  refine .detached d (List.mem_append_left _ made) ?_ present ?_ ?_ ?_
  · rw [split, List.mem_append, not_or]
    exact ⟨apart, fun inside => beside (List.mem_singleton.mp inside)⟩
  · exact (congrArg ProcessHeapTree.Color same).trans black
  · exact (congrArg ProcessHeapTree.Next same).trans last
  · intro other inside
    rw [split, List.tail_append_of_ne_nil (by simp)] at inside
    rcases List.mem_append.mp inside with inside | inside
    · exact (links.same other (List.mem_of_mem_tail inside)).2.2.trans (parents other inside)
    · rw [List.mem_singleton.mp inside]
      exact congrArg ProcessHeapTree.Parent links.made

theorem shape_sizeless (grown : Grown h (prev :: dropped)) (unmade : node ∉ h.records)
    (zero : (h.process.trees prev).EntrySize = 0) :
    Shape (h.linked ⟨prev, prev, false⟩ node ptr sz padAmount) [prev, node] := by
  have whole : Grown h ([] ++ prev :: dropped) := grown
  have links : Links h prev [] prev node ptr sz padAmount _ := whole.links unmade
  refine .sizeless (by simp) ?_
  have root : (h.linked ⟨prev, prev, false⟩ node ptr sz padAmount).process.HeapTree = prev := grown.follows.head_eq
  rw [root]
  exact (links.same prev (by simp)).1.trans zero

/-! ### The search -/

/-- The search ends in a place behind one of the records, and the list with a new record there is as before. -/
def Finds (h : HeapHistory) (chain : List VoidPtr) (sz : SizeT) : Prop :=
  ∃ fuel upper front prev dropped, chain = front ++ prev :: dropped ∧
    loop (placeRound h.process.trees sz) fuel ⟨h.process.HeapTree, h.process.HeapTree, false⟩ =
      some ⟨upper, prev, false⟩ ∧
    ∀ node ptr padAmount, node ≠ 0 → node ∉ h.records →
      Grown (h.linked ⟨upper, prev, false⟩ node ptr sz padAmount) (front ++ [prev, node])

theorem Grown.ends_detached {d : VoidPtr} (grown : Grown h chain) (present : d ≠ 0)
    (black : (h.process.trees d).Color = .kBlackTreeKind) (last : h.process.trees.next d = 0)
    (parents : ∀ node ∈ chain.tail, (h.process.trees node).Parent = d) :
    ∀ node ∈ chain.tail, Ends h.process.trees node d := by
  intro node member
  refine ⟨?_, present, black⟩
  rw [upper_child (grown.follows.nonnull node (List.mem_of_mem_tail member)) (parents node member) present, if_pos last]

/-- The first record is all there is, or the search stops at it. -/
theorem Grown.finds_first (grown : Grown h (prev :: dropped))
    (stops : dropped = [] ∨ (h.process.trees prev).EntrySize = 0) : Finds h (prev :: dropped) sz := by
  obtain rfl := grown.follows.head_eq
  have present := grown.follows.nonnull _ List.mem_cons_self
  have whole : Grown h ([] ++ h.process.HeapTree :: dropped) := grown
  have alone : ∀ root second rest, [] ++ [h.process.HeapTree] = root :: second :: rest →
      (h.process.trees root).EntrySize ≠ 0 ∧ (h.process.trees second).EntrySize ≠ 0 :=
    fun _ _ _ list => absurd (congrArg List.length list) (by simp)
  refine ⟨1, h.process.HeapTree, [], h.process.HeapTree, dropped, rfl, loop_done ?_, ?_⟩
  · by_cases sized : (h.process.trees h.process.HeapTree).EntrySize = 0
    · unfold placeRound
      dsimp only
      rw [if_neg present, if_pos ((one_le_iff _).mpr sized)]
    obtain rfl := stops.resolve_right sized
    have last : h.process.trees.next h.process.HeapTree = 0 := whole.follows.last
    have up : schedTryGoUpperPtrTree h.process.trees h.process.HeapTree = h.process.HeapTree := by
      rw [upper_root present (grown.top (by simp)), if_pos last]
    have black := grown.colored [] h.process.HeapTree [] rfl
    rw [placeRound_climbs present sized (grown.childless _ List.mem_cons_self) (fun leads => leads.1 last), up]
    exact if_pos ⟨present, black⟩
  · intro node ptr padAmount there unmade
    refine whole.link there unmade alone ?_
    rcases stops with rfl | zero
    · exact shape_climbing whole unmade (.singleton _) nofun
    · exact shape_sizeless grown unmade zero

theorem sized_behind {root second : VoidPtr} {rest : List VoidPtr} (list : chain = root :: second :: rest)
    (sizes : (h.process.trees root).EntrySize ≠ 0 ∧ (h.process.trees second).EntrySize ≠ 0)
    (split : chain = front ++ prev :: dropped) :
    ∀ first next later, front ++ [prev] = first :: next :: later →
      (h.process.trees first).EntrySize ≠ 0 ∧ (h.process.trees next).EntrySize ≠ 0 := by
  intro first next later inside
  have whole : root :: second :: rest = first :: next :: (later ++ dropped) := by
    rw [← list, split, ← List.cons_append, ← List.cons_append, ← inside]
    simp
  obtain ⟨rfl, tails⟩ := List.cons.inj whole
  obtain ⟨rfl, -⟩ := List.cons.inj tails
  exact sizes

/-- The second of two records takes the place of the first of its size, and is the one all later ones go up to. -/
theorem Grown.finds_second {second : VoidPtr} (grown : Grown h [prev, second])
    (sized : (h.process.trees prev).EntrySize ≠ 0) (apart : ¬ LeadsOn h.process.trees sz prev) :
    Finds h [prev, second] sz := by
  obtain rfl := grown.follows.head_eq
  have present := grown.follows.nonnull _ List.mem_cons_self
  have there := grown.follows.nonnull second (by simp)
  have next : h.process.trees.next h.process.HeapTree = second := grown.follows.tail.head_eq
  have whole : Grown h ([] ++ h.process.HeapTree :: [second]) := grown
  have pair : Follows h.process.trees.next 0 h.process.HeapTree ([h.process.HeapTree] ++ [second]) := grown.follows
  have last : h.process.trees.next second = 0 := pair.last
  have black := grown.colored [h.process.HeapTree] second [] rfl
  have up : schedTryGoUpperPtrTree h.process.trees h.process.HeapTree = second := by
    rw [upper_root present (grown.top (by simp)), next, if_neg there]
  refine ⟨1, second, [], h.process.HeapTree, [second], rfl, loop_done ?_, fun node ptr padAmount fills unmade => ?_⟩
  · rw [placeRound_climbs present sized (grown.childless _ List.mem_cons_self) apart, up]
    exact if_pos ⟨there, black⟩
  · have other : second ∉ [] ++ [h.process.HeapTree] := by
      intro inside
      have distinct := grown.follows.nodup
      exact (List.nodup_cons.mp distinct).1 (by simpa using (List.mem_singleton.mp inside).symm)
    have alone : ∀ root second rest, [] ++ [h.process.HeapTree] = root :: second :: rest →
        (h.process.trees root).EntrySize ≠ 0 ∧ (h.process.trees second).EntrySize ≠ 0 :=
      fun _ _ _ list => absurd (congrArg List.length list) (by simp)
    refine whole.link fills unmade alone ?_
    exact shape_detached whole unmade (grown.recorded second (by simp)) other there black last nofun

/-- Where all records behind the first go up to one that was dropped. -/
theorem Grown.finds_detached {d root second : VoidPtr} {rest : List VoidPtr}
    (grown : Grown h (root :: second :: rest)) (made : d ∈ h.records) (apart : d ∉ root :: second :: rest)
    (present : d ≠ 0) (black : (h.process.trees d).Color = .kBlackTreeKind) (last : h.process.trees.next d = 0)
    (parents : ∀ node ∈ second :: rest, (h.process.trees node).Parent = d)
    (sizes : (h.process.trees root).EntrySize ≠ 0 ∧ (h.process.trees second).EntrySize ≠ 0)
    (moves : placeRound h.process.trees sz ⟨root, root, false⟩ = .again ⟨second, root, false⟩) :
    Finds h (root :: second :: rest) sz := by
  have ends := grown.ends_detached present black last parents
  have tail : Follows h.process.trees.next 0 second (second :: rest) := by
    have next : h.process.trees.next root = second := grown.follows.tail.head_eq
    exact next ▸ grown.follows.tail
  obtain ⟨fuel, front, prev, dropped, split, found⟩ := @place_detached _ root second d _ sz tail (by simp) sizes.2
    (fun node member => grown.childless node (List.mem_cons_of_mem _ member)) ends
  have whole : root :: second :: rest = (root :: front) ++ prev :: dropped := by rw [split]; rfl
  refine ⟨fuel + 1, d, root :: front, prev, dropped, whole, ?_, fun node ptr padAmount there unmade => ?_⟩
  · rw [grown.follows.head_eq, loop_again moves, found]
  · have sized := sized_behind rfl sizes whole
    rw [whole] at grown apart
    refine grown.link there unmade sized (shape_detached grown unmade made ?_ present black last ?_)
    · exact fun inside => apart (mem_dropped inside)
    · intro other inside
      have inside : other ∈ front ++ [prev] := inside
      exact parents other (split ▸ mem_dropped inside)

/-- The parent of the last record leads to the last one again. -/
theorem Grown.climbs_back {root : VoidPtr} (grown : Grown h (root :: front ++ [prev]))
    (parents : (root :: front ++ [prev]).IsChain fun a b => (h.process.trees b).Parent = a) :
    Ends h.process.trees prev prev := by
  have there := grown.follows.nonnull prev (by simp)
  have black := grown.colored _ prev [] rfl
  obtain ⟨front', before, list⟩ : ∃ front' before, root :: front = front' ++ [before] := by
    rcases List.eq_nil_or_concat (root :: front) with none | ⟨front', before, split⟩
    · cases none
    · exact ⟨front', before, by rw [split, List.concat_eq_append]⟩
  have joined : root :: front ++ [prev] = front' ++ before :: [prev] := by rw [list]; simp
  have follows := grown.follows
  rw [joined] at parents follows
  have parent : (h.process.trees prev).Parent = before := (List.isChain_append_cons_cons.mp parents).2.1
  have nonnull : before ≠ 0 := follows.nonnull before (by simp)
  have next : h.process.trees.next before = prev := follows.suffix.tail.head_eq
  refine ⟨?_, there, black⟩
  rw [upper_child there parent nonnull, next, if_neg there]

/-- Where each record has the one before it for a parent, and the size asked for is that of them all. -/
theorem Grown.finds_climbing {root second : VoidPtr} {rest : List VoidPtr} (grown : Grown h (root :: second :: rest))
    (parents : (root :: second :: rest).IsChain fun a b => (h.process.trees b).Parent = a)
    (alike : ∀ node ∈ rest, (h.process.trees node).EntrySize = (h.process.trees second).EntrySize)
    (sizes : (h.process.trees root).EntrySize ≠ 0 ∧ (h.process.trees second).EntrySize ≠ 0)
    (same : (h.process.trees second).EntrySize = sz) : Finds h (root :: second :: rest) sz := by
  have tails : ∀ node ∈ second :: rest, (h.process.trees node).EntrySize = sz := by
    intro node member
    rcases List.mem_cons.mp member with rfl | member
    · exact same
    · exact (alike node member).trans same
  have plain : ∀ node ∈ root :: second :: rest, (h.process.trees node).EntrySize ≠ 0 ∧
      (h.process.trees node).Child = 0 := by
    intro node member
    refine ⟨?_, grown.childless node member⟩
    rcases List.mem_cons.mp member with rfl | member
    · exact sizes.1
    · rw [tails node member, ← same]
      exact sizes.2
  rcases List.eq_nil_or_concat (second :: rest) with none | ⟨front, prev, split⟩
  · cases none
  rw [List.concat_eq_append] at split
  have whole : root :: second :: rest = (root :: front) ++ [prev] := by rw [split]; rfl
  have sized := sized_behind rfl sizes whole
  obtain rfl := grown.follows.head_eq
  rw [whole] at grown parents plain
  have up : Ends h.process.trees prev prev := grown.climbs_back parents
  have nonzero : sz ≠ 0 := same ▸ sizes.2
  obtain ⟨fuel, found⟩ := @place_last _ _ h.process.HeapTree _ _ _ _ grown.follows plain
    (by rw [← whole]; exact tails) nonzero up
  refine ⟨fuel, prev, _, prev, [], whole, found, fun node ptr padAmount fills unmade => ?_⟩
  exact grown.link fills unmade sized (shape_climbing grown unmade parents (by rw [← whole]; exact tails))

/-- The list is short, its second record does not go up to the first, or the size asked for is the second's. -/
def SizeFits (trees : Trees) (root : VoidPtr) (sz : SizeT) : Prop :=
  (trees root).EntrySize = 0 ∨ trees.next root = 0 ∨ trees.next (trees.next root) = 0 ∨
    (trees (trees.next root)).Parent ≠ root ∨ (trees (trees.next root)).EntrySize = sz

theorem Grown.leads {root second : VoidPtr} {rest : List VoidPtr} (grown : Grown h (root :: second :: rest))
    (sized : (h.process.trees root).EntrySize ≠ 0) (leads : LeadsOn h.process.trees sz root ∨ rest ≠ []) :
    placeRound h.process.trees sz ⟨root, root, false⟩ = .again ⟨second, root, false⟩ := by
  obtain rfl := grown.follows.head_eq
  have present := grown.follows.nonnull _ List.mem_cons_self
  have there := grown.follows.nonnull second (by simp)
  have childless := grown.childless _ List.mem_cons_self
  have next : h.process.trees.next h.process.HeapTree = second := grown.follows.tail.head_eq
  by_cases on : LeadsOn h.process.trees sz h.process.HeapTree
  · rw [placeRound_leads present sized childless on, next]
  have red := grown.colored [h.process.HeapTree] second rest rfl
  rw [if_neg (leads.resolve_left on)] at red
  have up : schedTryGoUpperPtrTree h.process.trees h.process.HeapTree = second := by
    rw [upper_root present (grown.top (by simp)), next, if_neg there]
  rw [placeRound_climbs present sized childless on, up]
  exact if_neg fun both => by cases both.2.symm.trans red

theorem Grown.finds (grown : Grown h chain) (rooted : h.process.HeapTree ≠ 0)
    (fits : SizeFits h.process.trees h.process.HeapTree sz) : Finds h chain sz := by
  match chain, grown with
  | [], grown => exact absurd grown.follows.ends rooted
  | [root], grown => exact grown.finds_first (.inl rfl)
  | root :: second :: rest, grown =>
      obtain rfl := grown.follows.head_eq
      have next : h.process.trees.next h.process.HeapTree = second := grown.follows.tail.head_eq
      by_cases zero : (h.process.trees h.process.HeapTree).EntrySize = 0
      · exact grown.finds_first (.inr zero)
      by_cases leads : LeadsOn h.process.trees sz h.process.HeapTree ∨ rest ≠ []
      · have sizes : (h.process.trees second).EntrySize ≠ 0 := by
          rcases leads with leads | more
          · rw [← next]
            exact (positive_iff _).mp leads.2.1
          · obtain ⟨third, rest, rfl⟩ := List.exists_cons_of_ne_nil more
            exact (grown.sized _ _ _ _ rfl).2
        have moves := grown.leads zero leads
        cases grown.shape with
        | sizeless few none => exact absurd none zero
        | detached d made apart present black last parents =>
            exact grown.finds_detached made apart present black last parents ⟨zero, sizes⟩ moves
        | climbing parents alike =>
            refine grown.finds_climbing parents (alike _ _ _ rfl) ⟨zero, sizes⟩ ?_
            rcases leads with leads | more
            · rw [← next]
              exact leads.2.2
            obtain ⟨third, rest, rfl⟩ := List.exists_cons_of_ne_nil more
            have behind : h.process.trees.next second = third := grown.follows.tail.tail.head_eq
            have parent : (h.process.trees second).Parent = h.process.HeapTree := (List.isChain_cons_cons.mp parents).1
            unfold SizeFits at fits
            rw [next, behind] at fits
            rcases fits with none | none | none | other | same
            · exact absurd none zero
            · exact absurd none (grown.follows.nonnull second (by simp))
            · exact absurd none (grown.follows.nonnull third (by simp))
            · exact absurd parent other
            · exact same
      · obtain ⟨apart, none⟩ := not_or.mp leads
        obtain rfl := not_not.mp none
        exact grown.finds_second zero apart

/-- Otherwise the search goes up and down between the first two records. -/
theorem Grown.stuck (grown : Grown h chain) (rooted : h.process.HeapTree ≠ 0)
    (misfits : ¬ SizeFits h.process.trees h.process.HeapTree sz) (fuel : ℕ) :
    loop (placeRound h.process.trees sz) fuel ⟨h.process.HeapTree, h.process.HeapTree, false⟩ = none := by
  unfold SizeFits at misfits
  obtain ⟨sized, linked, behind, parent, differ⟩ := by simpa only [not_or] using misfits
  match chain, grown with
  | [], grown => exact absurd grown.follows.ends rooted
  | [root], grown =>
      obtain rfl := grown.follows.head_eq
      exact absurd grown.follows.tail.ends linked
  | [root, second], grown =>
      obtain rfl := grown.follows.head_eq
      have next : h.process.trees.next h.process.HeapTree = second := grown.follows.tail.head_eq
      rw [next] at behind
      exact absurd grown.follows.tail.tail.ends behind
  | root :: second :: third :: rest, grown =>
      obtain rfl := grown.follows.head_eq
      have next : h.process.trees.next h.process.HeapTree = second := grown.follows.tail.head_eq
      have next' : h.process.trees.next second = third := grown.follows.tail.tail.head_eq
      rw [next] at linked parent differ
      have parent := not_not.mp parent
      have sizes := grown.sized _ _ _ _ rfl
      have red := grown.colored [h.process.HeapTree] second (third :: rest) rfl
      rw [if_neg (by simp)] at red
      have alike : (h.process.trees third).EntrySize = (h.process.trees second).EntrySize := by
        cases grown.shape with
        | sizeless few => simp at few
        | detached d made apart present black last parents =>
            have same := (parents second List.mem_cons_self).symm.trans parent
            exact absurd (List.mem_cons.mpr (.inl same)) apart
        | climbing parents alike => exact alike _ _ _ rfl third List.mem_cons_self
      refine place_stuck rooted next linked sizes ⟨grown.childless _ (by simp), grown.childless _ (by simp)⟩
        (grown.top (by simp)) parent red ⟨fun leads => ?_, fun leads => ?_⟩ fuel
      · exact differ (next ▸ leads.2.2)
      · have same := leads.2.2
        rw [next', alike] at same
        exact differ same

theorem Grown.frame (grown : Grown h chain) {process : ProcessHeap} {live : List VoidPtr}
    (trees : process.trees = h.process.trees) (root : process.HeapTree = h.process.HeapTree) :
    Grown ⟨process, live, h.records⟩ chain := by
  obtain ⟨status, used, root', trees'⟩ := process
  dsimp only at trees root
  subst trees root
  obtain ⟨follows, recorded, childless, top, colored, sized, shape⟩ := grown
  refine ⟨follows, recorded, childless, top, colored, sized, ?_⟩
  cases shape with
  | climbing parents alike => exact .climbing parents alike
  | detached d made apart present black last parents => exact .detached d made apart present black last parents
  | sizeless few zero => exact .sizeless few zero

theorem Crash_trees (process : ProcessHeap) :
    process.Crash.trees = process.trees ∧ process.Crash.HeapTree = process.HeapTree := by
  unfold ProcessHeap.Crash
  split <;> exact ⟨rfl, rfl⟩

theorem Delete_trees {fuel : ℕ} {freed deleted : Bool} {process process' : ProcessHeap}
    (taken : Delete fuel ptr freed process = some (deleted, process')) :
    process'.trees = process.trees ∧ process'.HeapTree = process.HeapTree := by
  unfold Delete at taken
  split at taken
  · obtain ⟨-, rfl⟩ := Prod.mk.inj (Option.some.inj taken)
    exact ⟨rfl, rfl⟩
  split at taken
  · obtain ⟨-, rfl⟩ := Prod.mk.inj (Option.some.inj taken)
    exact ⟨rfl, rfl⟩
  obtain ⟨found, -, same⟩ := Option.map_eq_some_iff.mp taken
  cases found with
  | some entry =>
      obtain ⟨-, rfl⟩ := Prod.mk.inj same
      exact ⟨rfl, rfl⟩
  | none =>
      obtain ⟨-, rfl⟩ := Prod.mk.inj same
      exact Crash_trees process

theorem unallocated_grown {process : ProcessHeap} (empty : process.HeapTree = 0) : Grown (unallocated process) [] := by
  refine ⟨?_, by simp, by simp, by simp, by simp, by simp, .climbing .nil (by simp)⟩
  change Follows process.trees.next 0 process.HeapTree []
  rw [empty]
  exact .nil

theorem grown_first (present : node ≠ 0) : Grown (h.first node ptr sz padAmount) [node] := by
  let trees' : Trees := Function.update h.process.trees node ⟨ptr, sz, padAmount, .kBlackTreeKind, 0, 0, 0, 0⟩
  have made : trees' node = ⟨ptr, sz, padAmount, .kBlackTreeKind, 0, 0, 0, 0⟩ := Function.update_self ..
  refine ⟨.cons present ?_, ?_, ?_, ?_, ?_, ?_, .climbing (.singleton node) ?_⟩
  · have next : trees'.next node = 0 := congrArg ProcessHeapTree.Next made
    change Follows trees'.next 0 (trees'.next node) []
    rw [next]
    exact .nil
  · exact fun other inside => List.mem_append_right _ inside
  · intro other inside
    obtain rfl := List.mem_singleton.mp inside
    exact congrArg ProcessHeapTree.Child made
  · exact fun _ => congrArg ProcessHeapTree.Parent made
  · intro front other rest list
    cases front with
    | nil =>
        obtain ⟨rfl, rfl⟩ := List.cons.inj list
        exact congrArg ProcessHeapTree.Color made
    | cons _ _ => simp at list
  · intro root second third rest list
    cases list
  · intro root second rest list
    cases list

end Growing

/-! ## Runs -/

/-- `operator new` hands out no record twice. -/
def HeapCall.Unmade (h : HeapHistory) : HeapCall → Prop
  | .new _ _ _ node => node ∉ h.records
  | .delete _ _ => True

abbrev UnmadeStep := Guarded (fun call h => HeapCall.Unmade h call) HeapStep

/-- If the call is one of `New`, it returns. -/
def SearchEnds (call : HeapCall) (h : HeapHistory) : Prop :=
  match call with
  | .new sz padAmount ptr node => ∃ fuel result, New fuel sz padAmount ptr node h.process = some result
  | .delete _ _ => True

/-- If the call is one of `New` that gets to the search, the size fits. -/
def SearchFits (call : HeapCall) (h : HeapHistory) : Prop :=
  match call with
  | .new sz _ _ _ => h.process.UsedMemory > kCPSMaxMemoryLimit ∨ h.process.HeapTree = 0 ∨
      SizeFits h.process.trees h.process.HeapTree sz
  | .delete _ _ => True

section Turns
variable {h h' : HeapHistory} {chain : List VoidPtr} {call : HeapCall} {sz padAmount : SizeT} {ptr node : VoidPtr}

theorem New_linked {fuel : ℕ} {process : ProcessHeap} (room : process.UsedMemory ≤ kCPSMaxMemoryLimit)
    (rooted : process.HeapTree ≠ 0) : New fuel sz padAmount ptr node process =
      (loop (placeRound process.trees sz) fuel ⟨process.HeapTree, process.HeapTree, false⟩).map fun place =>
        if node = 0 then (.error (-kErrorHeapOutOfMemory), process.Crash)
        else (.ok ptr, { process with
          trees := process.trees.link place node ptr sz padAmount
          UsedMemory := process.UsedMemory + sz }) := by
  rw [New, if_neg (BitVec.not_lt.mpr room), if_neg rooted]

theorem searchEnds_iff (grown : Grown h chain) : SearchEnds call h ↔ SearchFits call h := by
  cases call with
  | delete => exact Iff.rfl
  | new sz padAmount ptr node =>
      by_cases full : h.process.UsedMemory > kCPSMaxMemoryLimit
      · exact iff_of_true ⟨0, _, by rw [New, if_pos full]⟩ (.inl full)
      by_cases empty : h.process.HeapTree = 0
      · refine iff_of_true ⟨0, ?_⟩ (.inr (.inl empty))
        rw [New, if_neg full, if_pos empty]
        split <;> exact ⟨_, rfl⟩
      have room := BitVec.not_lt.mp full
      constructor
      · rintro ⟨fuel, result, ends⟩
        rw [New_linked room empty] at ends
        by_contra misfits
        have none := grown.stuck empty (fun fits => misfits (.inr (.inr fits))) fuel
        rw [none] at ends
        cases ends
      · intro fits
        obtain ⟨fuel, upper, front, prev, dropped, -, found, -⟩ :=
          grown.finds empty ((fits.resolve_left full).resolve_left empty)
        exact ⟨fuel, _, by rw [New_linked room empty, found, Option.map_some]⟩

theorem new_grown (grown : Grown h chain) (taken : UnmadeStep (.new sz padAmount ptr node) h h') :
    ∃ chain', Grown h' chain' := by
  obtain ⟨unmade, fuel, ran⟩ := taken
  by_cases full : h.process.UsedMemory > kCPSMaxMemoryLimit
  · obtain rfl := (run_steady (.new sz padAmount ptr node) h).unique ran (run_full full)
    exact ⟨chain, grown⟩
  have room := BitVec.not_lt.mp full
  have crashed : Grown ⟨h.process.Crash, h.live, h.records⟩ chain :=
    grown.frame (Crash_trees h.process).1 (Crash_trees h.process).2
  by_cases empty : h.process.HeapTree = 0
  · by_cases failed : node = 0
    · simp only [HeapCall.run, New, if_neg full, if_pos empty, if_pos failed, Option.map_some] at ran
      obtain rfl := Option.some.inj ran
      exact ⟨chain, crashed⟩
    · obtain rfl := (run_steady (.new sz padAmount ptr node) h).unique ran (run_first room empty failed)
      exact ⟨[node], grown_first failed⟩
  have ends : SearchEnds (.new sz padAmount ptr node) h := by
    obtain ⟨result, returned, -⟩ := Option.map_eq_some_iff.mp ran
    exact ⟨fuel, result, returned⟩
  have fits := ((searchEnds_iff grown).mp ends |>.resolve_left full).resolve_left empty
  obtain ⟨fuel', upper, front, prev, dropped, -, found, later⟩ := grown.finds empty fits
  by_cases failed : node = 0
  · have returned := @New_linked sz padAmount ptr node fuel' h.process room empty
    rw [found, Option.map_some, if_pos failed] at returned
    have same : (HeapCall.new sz padAmount ptr node).run fuel' h = some ⟨h.process.Crash, h.live, h.records⟩ := by
      rw [HeapCall.run, returned]
      rfl
    obtain rfl := (run_steady (.new sz padAmount ptr node) h).unique ran same
    exact ⟨chain, crashed⟩
  · obtain rfl := (run_steady (.new sz padAmount ptr node) h).unique ran (run_linked room empty failed found)
    exact ⟨_, later node ptr padAmount failed unmade⟩

theorem turn_grown (grown : ∃ chain, Grown h chain) (taken : UnmadeStep call h h') : ∃ chain, Grown h' chain := by
  obtain ⟨chain, grown⟩ := grown
  cases call with
  | new sz padAmount ptr node => exact new_grown grown taken
  | delete ptr freed =>
      obtain ⟨-, fuel, ran⟩ := taken
      obtain ⟨⟨deleted, process⟩, returned, rfl⟩ := Option.map_eq_some_iff.mp ran
      obtain ⟨trees, root⟩ := Delete_trees returned
      exact ⟨chain, grown.frame trees root⟩

end Turns

/-- Every search for a place ends exactly as long as the sizes fit. -/
theorem searches_end_iff {process : ProcessHeap} (empty : process.HeapTree = 0) (calls : List HeapCall) :
    AllSteps UnmadeStep SearchEnds (unallocated process) calls ↔
      AllSteps UnmadeStep SearchFits (unallocated process) calls :=
  @allSteps_iff _ _ _ _ _ _ _ (fun h => ∃ chain, Grown h chain) ⟨[], unallocated_grown empty⟩
    (fun _ _ ⟨_, grown⟩ => searchEnds_iff grown) fun _ _ _ grown _ taken => turn_grown grown taken

theorem searches_end_threeSizes :
    AllSteps UnmadeStep SearchEnds (unallocated blankProcess)
        [.new 16 0 0x100 0x1000, .new 32 0 0x200 0x2000, .new 48 0 0x300 0x3000] ↔
      AllSteps UnmadeStep SearchFits (unallocated blankProcess)
        [.new 16 0 0x100 0x1000, .new 32 0 0x200 0x2000, .new 48 0 0x300 0x3000] :=
  searches_end_iff rfl _

/-- Two records of one size behind the first, and then another size. -/
theorem fourth_size_stuck : ¬ ∀ process calls, process.HeapTree = 0 →
    AllSteps UnmadeStep SearchEnds (unallocated process) calls := by
  intro every
  let twice := twoSizes.linked ⟨0x2000, 0x2000, false⟩ 0x3000 0x300 32 0
  have fresh : (0x1000 : VoidPtr) ∉ (unallocated blankProcess).records ∧ 0x2000 ∉ oneSize.records ∧
      0x3000 ∉ twoSizes.records := by decide
  have third : UnmadeStep (.new 32 0 0x300 0x3000) twoSizes twice :=
    ⟨fresh.2.2, 2, run_linked (by decide) (by decide) (by decide) (by decide)⟩
  have first : UnmadeStep (.new 16 0 0x100 0x1000) (unallocated blankProcess) oneSize := ⟨fresh.1, oneSize_step.2⟩
  have second : UnmadeStep (.new 32 0 0x200 0x2000) oneSize twoSizes := ⟨fresh.2.1, twoSizes_step.2⟩
  have run := Run.cons first (.cons second (.single third))
  obtain ⟨fuel, result, ends⟩ := every blankProcess (_ ++ [.new 48 0 0x400 0x4000]) rfl _ _ [] rfl _ run
  have stuck := @place_stuck twice.process.trees 0x1000 48 0x1000 0x2000 (by decide) (by decide) (by decide)
    (by decide) (by decide) (by decide) (by decide) (by decide) (by unfold LeadsOn; decide) fuel
  rw [New_linked (by decide) (by decide)] at ends
  cases ends.symm.trans (congrArg (Option.map _) stuck)

end Ne.Kernel.Sched
