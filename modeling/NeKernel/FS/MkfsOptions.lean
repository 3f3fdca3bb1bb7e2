import NeKernel.FS.MkfsHefs
import NeKernel.Lib.Separators

/-!
# The options of the formatting tool

The arguments are joined by spaces and searched as one string, so the first place that looks like the option counts,
and its value ends at the next space.
-/

namespace Ne.Kernel.FS.Mkfs
open ByteMem Separators

/-- The text that announces an option. -/
def marker (option : List Byte) : List Byte := 0x2D :: option ++ [0x3D]

/-- What an option is given as: the text behind the marker in the first argument that begins with it. -/
def optionText (argv : List (List Byte)) (option : List Byte) : List Byte :=
  match argv.find? (marker option).isPrefixOf with
  | none => []
  | some arg => arg.drop (marker option).length

/-- The text between the first marker in an argument and the next space. -/
def wordBehind (option arg : List Byte) : Option (List Byte) :=
  (behindFirst (marker option) arg).map fun rest => rest.takeWhile (· ≠ 0x20)

section Search
variable {pattern arg rest text option y : List Byte} {argv : List (List Byte)} {c : Byte}

theorem behindFirst_none (some : pattern ≠ []) : behindFirst pattern text = none ↔ ¬ pattern <:+: text := by
  induction text with
  | nil => simp [behindFirst, some]
  | cons c text ih =>
      rw [behindFirst, List.infix_cons_iff, ← List.isPrefixOf_iff_prefix]
      split
      · next found => simp [found]
      · next other => simp [other, ih]

/-- The first occurrence, with what is before it. -/
theorem behindFirst_some (found : behindFirst pattern text = some y) : ∃ x, text = x ++ pattern ++ y ∧
    ∀ x' y', text = x' ++ pattern ++ y' → x.length ≤ x'.length := by
  induction text with
  | nil => cases found
  | cons c text ih =>
      rw [behindFirst] at found
      split at found
      · next starts =>
          obtain ⟨z, whole⟩ := List.isPrefixOf_iff_prefix.mp starts
          rw [← whole, List.drop_left] at found
          obtain rfl := Option.some.inj found
          exact ⟨[], whole.symm, fun x' y' _ => Nat.zero_le _⟩
      · next other =>
          obtain ⟨x, rfl, least⟩ := ih found
          refine ⟨c :: x, rfl, fun x' y' same => ?_⟩
          cases x' with
          | nil => exact absurd (List.isPrefixOf_iff_prefix.mpr ⟨y', same.symm⟩) other
          | cons d x' =>
              exact Nat.succ_le_succ (least x' y' (List.cons.inj same).2)

theorem isPrefixOf_joined (whole : 0x20 ∉ pattern) :
    pattern.isPrefixOf (arg ++ 0x20 :: rest) = pattern.isPrefixOf arg := by
  rw [Bool.eq_iff_iff, List.isPrefixOf_iff_prefix, List.isPrefixOf_iff_prefix]
  constructor
  · intro starts
    rcases List.prefix_or_prefix_of_prefix starts (List.prefix_append arg _) with inside | ⟨z, rfl⟩
    · exact inside
    · rw [List.prefix_append_right_inj] at starts
      cases z with
      | nil => exact (List.append_nil arg).symm ▸ List.prefix_refl arg
      | cons c z =>
          obtain rfl := (List.cons_prefix_cons.mp starts).1
          exact absurd (List.mem_append_right arg List.mem_cons_self) whole
  · exact fun inside => inside.trans (List.prefix_append arg _)

/-- No occurrence goes on behind a space. -/
theorem behindFirst_joined (some : pattern ≠ []) (whole : 0x20 ∉ pattern) :
    behindFirst pattern (arg ++ 0x20 :: rest) =
      match behindFirst pattern arg with
      | none => behindFirst pattern rest
      | .some y => .some (y ++ 0x20 :: rest) := by
  induction arg with
  | nil =>
      have never : pattern.isPrefixOf (0x20 :: rest) = false := by
        have none : pattern.isPrefixOf ([] : List Byte) = false := by
          cases pattern with
          | nil => exact absurd rfl some
          | cons c pattern => rfl
        rw [← none]
        exact @isPrefixOf_joined pattern [] rest whole
      have step : behindFirst pattern (0x20 :: rest) = behindFirst pattern rest := by
        rw [behindFirst, never]
        rfl
      exact step
  | cons c arg ih =>
      have starts := @isPrefixOf_joined pattern (c :: arg) rest whole
      rw [List.cons_append] at starts
      rw [List.cons_append, behindFirst, behindFirst, starts, ih]
      split
      · next found =>
          obtain ⟨z, same⟩ := List.isPrefixOf_iff_prefix.mp found
          rw [← List.cons_append, ← same, List.append_assoc, List.drop_left, List.drop_left]
      · rfl

theorem marker_space (named : 0x20 ∉ option) : 0x20 ∉ marker option := by
  unfold marker
  simpa using named

theorem marker_ne_nil : marker option ≠ [] := List.cons_ne_nil _ _

/-- The first argument that holds the marker decides. -/
theorem getOption_cons (named : 0x20 ∉ option) : getOption (buildArgs (arg :: argv)) option =
    (wordBehind option arg).getD (getOption (buildArgs argv) option) := by
  have joined : buildArgs (arg :: argv) = arg ++ 0x20 :: buildArgs argv := by
    rw [buildArgs, List.flatMap_cons, List.append_assoc]
    rfl
  rw [getOption, joined]
  change (match behindFirst (marker option) (arg ++ 0x20 :: buildArgs argv) with
    | none => []
    | some rest => if 0x20 ∈ rest then rest.takeWhile (· ≠ 0x20) else []) = _
  rw [behindFirst_joined marker_ne_nil (marker_space named), wordBehind]
  cases found : behindFirst (marker option) arg with
  | none => rfl
  | some y =>
      have space : 0x20 ∈ y ++ 0x20 :: buildArgs argv := List.mem_append_right y List.mem_cons_self
      have word : (y ++ 0x20 :: buildArgs argv).takeWhile (· ≠ 0x20) = y.takeWhile (· ≠ 0x20) := takeWhile_ended
      dsimp only
      rw [if_pos space, word, Option.map_some, Option.getD_some]

/-- An argument that holds no marker is not the option. -/
theorem optionText_skip (other : ¬ marker option <+: arg) :
    optionText (arg :: argv) option = optionText argv option := by
  have never : (marker option).isPrefixOf arg = false := by
    rw [← Bool.not_eq_true, List.isPrefixOf_iff_prefix]
    exact other
  rw [optionText, List.find?_cons_of_neg (by rw [never]; exact Bool.false_ne_true), ← optionText]

theorem optionText_first : optionText ((marker option ++ y) :: argv) option = y := by
  have starts := List.isPrefixOf_iff_prefix.mpr (List.prefix_append (marker option) y)
  rw [optionText, List.find?_cons_of_pos starts]
  exact List.drop_left

end Search

/-- No argument holds the marker; or the first one that does begins with it and has no space behind it; or, where it
is inside of that argument, the word behind it is by chance what the option is given as later. -/
def Unshadowed (argv : List (List Byte)) (option : List Byte) : Prop :=
  (∀ arg ∈ argv, ¬ marker option <:+: arg) ∨
    ∃ before arg after, argv = before ++ arg :: after ∧ (∀ arg ∈ before, ¬ marker option <:+: arg) ∧
      ((∃ text, arg = marker option ++ text ∧ 0x20 ∉ text) ∨
        ∃ front text, front ≠ [] ∧ arg = front ++ marker option ++ text ∧
          (∀ front' text', arg = front' ++ marker option ++ text' → front.length ≤ front'.length) ∧
          text.takeWhile (· ≠ 0x20) = optionText after option)

section Lookup
variable {arg option y : List Byte} {argv : List (List Byte)}

theorem unshadowed_skip (other : ¬ marker option <:+: arg) :
    Unshadowed (arg :: argv) option ↔ Unshadowed argv option := by
  have inside {front text : List Byte} : marker option <:+: front ++ marker option ++ text := ⟨front, text, rfl⟩
  constructor
  · rintro (none | ⟨before, a, after, whole, early, how⟩)
    · exact .inl fun a member => none a (List.mem_cons_of_mem arg member)
    · cases before with
      | nil =>
          obtain ⟨rfl, rfl⟩ := List.cons.inj whole
          rcases how with ⟨text, rfl, -⟩ | ⟨front, text, -, rfl, -, -⟩
          · exact absurd (@inside [] text) other
          · exact absurd inside other
      | cons b before =>
          obtain ⟨rfl, rfl⟩ := List.cons.inj whole
          exact .inr ⟨before, a, after, rfl, fun b member => early b (List.mem_cons_of_mem _ member), how⟩
  · rintro (none | ⟨before, a, after, rfl, early, how⟩)
    · exact .inl (List.forall_mem_cons.mpr ⟨other, none⟩)
    · exact .inr ⟨arg :: before, a, after, rfl, List.forall_mem_cons.mpr ⟨other, early⟩, how⟩

/-- Where the first argument holds the marker, the word behind it is what counts. -/
theorem unshadowed_first (found : behindFirst (marker option) arg = some y) :
    Unshadowed (arg :: argv) option ↔ y.takeWhile (· ≠ 0x20) = optionText (arg :: argv) option := by
  obtain ⟨x, whole, least⟩ := behindFirst_some found
  have holds : marker option <:+: arg := ⟨x, y, whole.symm⟩
  constructor
  · rintro (none | ⟨before, a, after, split, early, how⟩)
    · exact absurd holds (none arg List.mem_cons_self)
    · cases before with
      | cons b before =>
          obtain ⟨rfl, -⟩ := List.cons.inj split
          exact absurd holds (early _ List.mem_cons_self)
      | nil =>
          obtain ⟨rfl, rfl⟩ := List.cons.inj split
          rcases how with ⟨text, starts, clean⟩ | ⟨front, text, some, place, first, word⟩
          · have begins : x.length ≤ 0 := least [] text starts
            obtain rfl := List.length_eq_zero_iff.mp (Nat.le_zero.mp begins)
            obtain rfl := List.append_cancel_left (starts.symm.trans whole)
            rw [starts, optionText_first]
            exact takeWhile_eq_self.mpr clean
          · have equal : x.length = front.length := Nat.le_antisymm (least front text place) (first x y whole)
            rw [List.append_assoc] at place whole
            obtain ⟨rfl, same⟩ := List.append_inj (whole.symm.trans place) equal
            obtain rfl := List.append_cancel_left same
            rw [optionText_skip]
            · exact word
            · rintro ⟨text', begins⟩
              have shorter : x.length ≤ 0 := first [] text' begins.symm
              exact some (List.length_eq_zero_iff.mp (Nat.le_zero.mp shorter))
  · intro word
    refine .inr ⟨[], arg, argv, rfl, nofun, ?_⟩
    by_cases begins : x = []
    · subst begins
      rw [List.nil_append] at whole
      rw [whole, optionText_first] at word
      exact .inl ⟨y, whole, takeWhile_eq_self.mp word⟩
    · rw [optionText_skip] at word
      · exact .inr ⟨x, y, begins, whole, least, word⟩
      · rintro ⟨text', starts⟩
        have shorter : x.length ≤ 0 := least [] text' starts.symm
        exact begins (List.length_eq_zero_iff.mp (Nat.le_zero.mp shorter))

end Lookup

/-- What is looked up is what the option is given as exactly if nothing shadows or cuts it. -/
theorem getOption_buildArgs_iff (argv : List (List Byte)) (option : List Byte) (named : 0x20 ∉ option) :
    getOption (buildArgs argv) option = optionText argv option ↔ Unshadowed argv option := by
  induction argv with
  | nil => exact iff_of_true rfl (.inl nofun)
  | cons arg argv ih =>
      rw [getOption_cons named, wordBehind]
      cases found : behindFirst (marker option) arg with
      | none =>
          have other := (behindFirst_none marker_ne_nil).mp found
          rw [unshadowed_skip other, optionText_skip fun starts => other starts.isInfix]
          exact ih
      | some y =>
          rw [unshadowed_first found]
          rfl

/-- `-L=a b` is cut, and `-L=x-s=4` is taken for the sector size. -/
theorem getOption_buildArgs_fails :
    getOption (buildArgs [utf8 ['-', 'L', '=', 'a', ' ', 'b']]) (utf8 ['L']) ≠
      optionText [utf8 ['-', 'L', '=', 'a', ' ', 'b']] (utf8 ['L']) ∧
    getOption (buildArgs [utf8 ['-', 'L', '=', 'x', '-', 's', '=', '4'], utf8 ['-', 's', '=', '8']]) (utf8 ['s']) ≠
      optionText [utf8 ['-', 'L', '=', 'x', '-', 's', '=', '4'], utf8 ['-', 's', '=', '8']] (utf8 ['s']) := by
  decide +kernel

theorem getOption_buildArgs_iff_plain :
    0x20 ∉ utf8 ['s'] ∧ (getOption (buildArgs [utf8 ['-', 's', '=', '8']]) (utf8 ['s']) =
      optionText [utf8 ['-', 's', '=', '8']] (utf8 ['s']) ↔ Unshadowed [utf8 ['-', 's', '=', '8']] (utf8 ['s'])) :=
  ⟨by decide +kernel, getOption_buildArgs_iff _ _ (by decide +kernel)⟩

end Ne.Kernel.FS.Mkfs
