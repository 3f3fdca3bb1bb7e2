import NeKernel.NeKit.KString
import NeKernel.Lib.Runs

/-!
# Runs of constructors and appends

Strings are made and appended to in any order, each in a buffer of its own. Every string is sound as long as
no step spoils one.
-/

namespace Ne.Kernel
open ByteMem Runs
open Access (WritesIn)

/-- The strings there are, and the writes so far, each with the string it was made for. -/
structure Strings where
  memory : Memory
  strings : List Entry
  writes : List (KBasicString × Access)

/-- A constructor or an append, with the answers of `new`. Strings are known by the order they were made in. -/
inductive StringEvent
  | default (data : UIntPtr)
  | ofText (text data : UIntPtr)
  | ofSize (size : SizeT) (data : UIntPtr)
  | construct (data view buffer : UIntPtr)
  | append (k : ℕ) (rhs : UIntPtr)
  | appendString (k j : ℕ)

def Strings.made (s : Strings) (x : Traced Access (KBasicString × Memory)) (appended : List Byte) : Strings where
  memory := x.val.2
  strings := s.strings ++ [⟨x.val.1, appended⟩]
  writes := s.writes ++ x.log.map fun access => (x.val.1, access)

def Strings.changed (s : Strings) (k : ℕ) (x : Traced Access (KBasicString × Memory)) (appended : List Byte) :
    Strings where
  memory := x.val.2
  strings := s.strings.set k ⟨x.val.1, appended⟩
  writes := s.writes ++ x.log.map fun access => (x.val.1, access)

/-- An append that its check refuses appends nothing. -/
def refuses (e : Entry) (m : Memory) (rhs : KBasicString) : Bool := e.string.fDataSz.toNat < oeStringLen m rhs.fData

/-- The next state, unless the kernel is stopped. -/
def nextStrings (minSz : BitVec 32) : StringEvent → Strings → Option Strings
  | .default data, s => some (s.made (KBasicString.allocate (minSz.signExtend 64) data s.memory) [])
  | .ofText text data, s => some (s.made (KBasicString.ofText text data s.memory) (charactersAt s.memory text))
  | .ofSize size data, s => (KBasicString.ofSize size data s.memory).map (s.made · [])
  | .construct data view buffer, s => (Ne.Kernel.construct data view buffer s.memory).map fun
      | .error _ => s
      | .ok x => s.made x (charactersAt s.memory data)
  | .append k rhs, s => s.strings[k]?.map fun e =>
      s.changed k (e.string.append rhs s.memory) (e.more s.memory rhs)
  | .appendString k j, s => s.strings[k]?.bind fun e => s.strings[j]?.map fun f =>
      s.changed k (e.string.appendString f.string s.memory)
        (if refuses e s.memory f.string then e.appended else e.more s.memory f.string.fData)

/-- `new` answers null, or memory that no string has. -/
def Fresh (s : Strings) (data : UIntPtr) (size : SizeT) : Prop :=
  data ≠ 0 → data.toNat + size.toNat ≤ 2 ^ 64 ∧
    ∀ e ∈ s.strings, e.string.fData ≠ 0 → Apart e.string.fData e.string.fDataSz.toNat data size.toNat

/-- Memory for as many characters as a text has, away from the text. -/
def FreshFor (s : Strings) (text data : UIntPtr) : Prop :=
  Given s.memory text ∧ Fresh s data (BitVec.ofNat 64 (oeStringLen s.memory text)) ∧
    (data ≠ 0 → Apart text (oeStringLen s.memory text + 1) data (oeStringLen s.memory text))

/-- What the callers and the heap promise. -/
def Promised (minSz : BitVec 32) (s : Strings) : StringEvent → Prop
  | .default data => Fresh s data (minSz.signExtend 64)
  | .ofText text data => FreshFor s text data
  | .ofSize size data => Fresh s data size
  | .construct data _ buffer => FreshFor s data buffer
  | .append _ rhs => Given s.memory rhs
  | .appendString _ _ => True

def StringStep (minSz : BitVec 32) (l : StringEvent) (s t : Strings) : Prop :=
  Promised minSz s l ∧ nextStrings minSz l s = some t

def noStrings (m : Memory) : Strings := ⟨m, [], []⟩

def Strings.Sound (s : Strings) : Prop :=
  (∀ w ∈ s.writes, WritesIn w.1.fData w.1.room w.2) ∧ ∀ e ∈ s.strings, e.Sound s.memory

def KeepsSound (minSz : BitVec 32) (l : StringEvent) (s : Strings) : Prop :=
  match l with
  | .default data => data ≠ 0 ∧ minSz.signExtend 64 ≠ (0 : SizeT)
  | .ofText _ _ => False
  | .ofSize _ data => data ≠ 0
  | .construct data _ _ => data = 0 ∨ s.memory data = 0
  | .append k rhs => ∀ e, s.strings[k]? = some e → e.Takes s.memory rhs
  | .appendString k j => ∀ e f, s.strings[k]? = some e → s.strings[j]? = some f →
      refuses e s.memory f.string ∨ e.Takes s.memory f.string.fData

/-! ## What a step keeps -/

/-- Sound strings, with nothing behind their texts, in buffers of their own. -/
structure Strings.Kept (s : Strings) : Prop where
  sound : s.Sound
  padded : ∀ e ∈ s.strings, Padded s.memory e.string.fData e.string.fDataSz.toNat e.appended
  apart : ∀ (i j : ℕ) (e f : Entry), i ≠ j → s.strings[i]? = some e → s.strings[j]? = some f →
    Apart e.string.fData e.string.fDataSz.toNat f.string.fData f.string.fDataSz.toNat

section Steps
variable {minSz : BitVec 32} {l : StringEvent} {s t : Strings} {e f : Entry} {k : ℕ}
  {x : Traced Access (KBasicString × Memory)} {appended : List Byte} {data : UIntPtr} {size : SizeT}

theorem Entry.Sound.congr {m m' : Memory} (sound : e.Sound m)
    (same : SameInside e.string.fData e.string.fDataSz.toNat m m') : e.Sound m' :=
  ⟨sound.present, sound.cursor, sound.holds.congr (BitVec.isLt _).le same⟩

theorem writes_inside {writes : List (KBasicString × Access)} {string : KBasicString} :
    (∀ w ∈ writes ++ x.log.map fun access => (string, access), WritesIn w.1.fData w.1.room w.2) ↔
      (∀ w ∈ writes, WritesIn w.1.fData w.1.room w.2) ∧ Traced.Only (WritesIn string.fData string.room) x := by
  rw [List.forall_mem_append, List.forall_mem_map]
  rfl

theorem made_at {i : ℕ} (at' : (s.made x appended).strings[i]? = some e) :
    s.strings[i]? = some e ∨ i = s.strings.length ∧ e = ⟨x.val.1, appended⟩ := by
  rw [Strings.made, List.getElem?_append] at at'
  split at at'
  · exact .inl at'
  · rename_i behind
    obtain ⟨zero, same⟩ := List.getElem?_eq_some_iff.mp at'
    rw [List.length_singleton] at zero
    refine .inr ⟨by omega, ?_⟩
    rw [← same, List.getElem_singleton]

section Made
variable (kept : s.Kept) (fresh : Fresh s data size)
include kept fresh

theorem made_same (present : data ≠ 0) (member : e ∈ s.strings) :
    SameInside e.string.fData e.string.fDataSz.toNat s.memory (KBasicString.allocate size data s.memory).val.2 :=
  fun x inside => allocate_same present x
    ((fresh present).2 e member (kept.sound.2 e member).present x inside)

/-- A new string is sound if it got a buffer, of one character at least. -/
theorem made_sound_iff :
    (s.made (KBasicString.allocate size data s.memory) []).Sound ↔ data ≠ 0 ∧ size ≠ 0 := by
  constructor
  · rintro ⟨-, sound⟩
    have new := sound _ (List.mem_append_right _ (List.mem_singleton_self _))
    have present : data ≠ 0 := fun null => new.present (by rw [null, allocate_null])
    have cursor := new.cursor
    rw [allocate_val present] at cursor
    exact ⟨present, fun zero => Nat.not_lt_zero _ (zero ▸ cursor)⟩
  · rintro ⟨present, some⟩
    refine ⟨writes_inside.mpr ⟨kept.sound.1, ?_⟩, fun e member => ?_⟩
    · rw [allocate_val present, only_allocate present, KBasicString.room, if_neg present]
      exact fun x inside => inside
    · rcases List.mem_append.mp member with old | new
      · exact (kept.sound.2 e old).congr (made_same kept fresh present old)
      · rw [List.mem_singleton.mp new]
        exact (allocated present some (fresh present).1).1

theorem made_kept (sound : (s.made (KBasicString.allocate size data s.memory) []).Sound) :
    (s.made (KBasicString.allocate size data s.memory) []).Kept := by
  obtain ⟨present, some⟩ := (made_sound_iff kept fresh).mp sound
  refine ⟨sound, fun e member => ?_, fun i j e f other atI atJ => ?_⟩
  · rcases List.mem_append.mp member with old | new
    · exact (kept.padded e old).congr (made_same kept fresh present old)
    · rw [List.mem_singleton.mp new]
      exact (allocated present some (fresh present).1).2
  · have new (e : Entry) (old : e ∈ s.strings) : Apart e.string.fData e.string.fDataSz.toNat
        (KBasicString.allocate size data s.memory).val.1.fData
        (KBasicString.allocate size data s.memory).val.1.fDataSz.toNat := by
      rw [allocate_val present]
      exact (fresh present).2 e old (kept.sound.2 e old).present
    rcases made_at atI with oldI | ⟨lastI, rfl⟩ <;> rcases made_at atJ with oldJ | ⟨lastJ, rfl⟩
    · exact kept.apart i j e f other oldI oldJ
    · exact new e (List.mem_of_getElem? oldI)
    · exact (new f (List.mem_of_getElem? oldJ)).symm
    · exact absurd (lastI.trans lastJ.symm) other

end Made

theorem changed_at {i : ℕ} (here : s.strings[k]? = some e) (at' : (s.changed k x appended).strings[i]? = some f) :
    i ≠ k ∧ s.strings[i]? = some f ∨ i = k ∧ f = ⟨x.val.1, appended⟩ := by
  rw [Strings.changed, List.getElem?_set] at at'
  split at at'
  · rename_i same
    rw [if_pos (List.getElem?_eq_some_iff.mp here).1] at at'
    exact .inr ⟨same.symm, (Option.some.inj at').symm⟩
  · rename_i other
    exact .inl ⟨Ne.symm other, at'⟩

theorem append_place {i : ℕ} {rhs : UIntPtr} (here : s.strings[k]? = some e)
    (at' : (s.changed k (e.string.append rhs s.memory) appended).strings[i]? = some f) :
    ∃ f', s.strings[i]? = some f' ∧ f.string.fData = f'.string.fData ∧ f.string.fDataSz = f'.string.fDataSz := by
  rcases changed_at here at' with ⟨-, there⟩ | ⟨rfl, rfl⟩
  · exact ⟨f, there, rfl, rfl⟩
  · exact ⟨e, here, append_fData _, append_fDataSz _⟩

section Changed
variable (kept : s.Kept) (here : s.strings[k]? = some e) {rhs : UIntPtr}
include kept here

theorem changed_same {i : ℕ} {m' : Memory} (there : s.strings[i]? = some f) (other : i ≠ k)
    (same : SameOutside e.string.fData e.string.fDataSz.toNat s.memory m') :
    SameInside f.string.fData f.string.fDataSz.toNat s.memory m' :=
  fun x inside => same x (kept.apart i k f e other there here x inside)

section Append
variable (given : Given s.memory rhs)
include given

theorem append_frame (takes : e.Takes s.memory rhs) :
    SameOutside e.string.fData e.string.fDataSz.toNat s.memory (e.string.append rhs s.memory).val.2 := by
  have member := List.mem_of_getElem? here
  have sound := kept.sound.2 e member
  have covers := ((append_sound_iff (kept.padded e member) given sound).mpr takes).1
  rw [append_writes, KBasicString.room, if_neg sound.present] at covers
  exact fun x outside => append_same e.string x fun inside => outside (covers x inside)

theorem append_sound :
    (s.changed k (e.string.append rhs s.memory) (e.more s.memory rhs)).Sound ↔ e.Takes s.memory rhs := by
  have member := List.mem_of_getElem? here
  have single := append_sound_iff (kept.padded e member) given (kept.sound.2 e member)
  constructor
  · rintro ⟨writes, sound⟩
    have only := (writes_inside.mp writes).2
    rw [append_fData, append_room] at only
    exact single.mp ⟨only, sound _ (List.mem_set (List.getElem?_eq_some_iff.mp here).1 _)⟩
  · intro takes
    obtain ⟨only, changed⟩ := single.mpr takes
    refine ⟨writes_inside.mpr ⟨kept.sound.1, ?_⟩, fun f among => ?_⟩
    · rwa [append_fData, append_room]
    · obtain ⟨i, at'⟩ := List.mem_iff_getElem?.mp among
      rcases changed_at here at' with ⟨other, there⟩ | ⟨-, rfl⟩
      · exact (kept.sound.2 f (List.mem_of_getElem? there)).congr
          (changed_same kept here there other (append_frame kept here given takes))
      · exact changed

theorem append_kept (sound : (s.changed k (e.string.append rhs s.memory) (e.more s.memory rhs)).Sound) :
    (s.changed k (e.string.append rhs s.memory) (e.more s.memory rhs)).Kept := by
  have takes := (append_sound kept here given).mp sound
  have member := List.mem_of_getElem? here
  have frame := append_frame kept here given takes
  refine ⟨sound, fun f among => ?_, fun i j f g other atI atJ => ?_⟩
  · obtain ⟨i, at'⟩ := List.mem_iff_getElem?.mp among
    rcases changed_at here at' with ⟨apart, there⟩ | ⟨-, rfl⟩
    · exact (kept.padded f (List.mem_of_getElem? there)).congr (changed_same kept here there apart frame)
    · show Padded _ (e.string.append rhs s.memory).val.1.fData (e.string.append rhs s.memory).val.1.fDataSz.toNat _
      rw [append_fData, append_fDataSz]
      exact append_padded (kept.padded e member) given takes
  · obtain ⟨f', thereI, dataI, sizeI⟩ := append_place here atI
    obtain ⟨g', thereJ, dataJ, sizeJ⟩ := append_place here atJ
    rw [dataI, sizeI, dataJ, sizeJ]
    exact kept.apart i j f' g' other thereI thereJ

end Append

end Changed

theorem given_sound {m : Memory} (sound : f.Sound m)
    (padded : Padded m f.string.fData f.string.fDataSz.toNat f.appended) : Given m f.string.fData := by
  have short := sound.holds.short
  have fits := padded.fits
  exact .inr ⟨f.appended, sound.present, by omega, sound.holds.characters, sound.holds.stored⟩

theorem changed_refused (here : s.strings[k]? = some e) :
    s.changed k (pure (e.string, s.memory)) e.appended = s := by
  obtain ⟨below, rfl⟩ := List.getElem?_eq_some_iff.mp here
  have same : s.strings.set k ⟨s.strings[k].string, s.strings[k].appended⟩ = s.strings := List.set_getElem_self below
  have none : s.writes ++ (pure (s.strings[k].string, s.memory) : Traced Access (KBasicString × Memory)).log.map
      (fun access => (s.strings[k].string, access)) = s.writes := List.append_nil _
  rw [Strings.changed, Traced.val_pure, same, none]

/-- One step from strings that are kept: they are sound after it exactly if it keeps them so. -/
theorem step_sound (kept : s.Kept) (taken : StringStep minSz l s t) :
    (t.Sound ↔ KeepsSound minSz l s) ∧ (t.Sound → t.Kept) := by
  obtain ⟨promised, next⟩ := taken
  have unsound (no : ¬ t.Sound) (never : ¬ KeepsSound minSz l s) :
      (t.Sound ↔ KeepsSound minSz l s) ∧ (t.Sound → t.Kept) :=
    ⟨iff_of_false no never, fun sound => absurd sound no⟩
  cases l with
  | default data =>
      obtain rfl := Option.some.inj next
      exact ⟨made_sound_iff kept promised, made_kept kept promised⟩
  | ofText text data =>
      obtain rfl := Option.some.inj next
      obtain ⟨given, -, apart⟩ := promised
      refine unsound (fun sound => ?_) id
      exact ofText_unsound given apart (sound.2 _ (List.mem_append_right _ (List.mem_singleton_self _)))
  | ofSize size data =>
      rw [nextStrings, KBasicString.ofSize] at next
      split at next
      · cases next
      · rename_i large
        obtain rfl := Option.some.inj next
        refine ⟨(made_sound_iff kept promised).trans (and_iff_left fun zero => large ?_), made_kept kept promised⟩
        rw [zero]
        decide
  | construct data view buffer =>
      rw [nextStrings, Ne.Kernel.construct] at next
      split at next
      · rename_i empty
        obtain rfl := Option.some.inj next
        exact ⟨iff_of_true kept.sound empty, fun _ => kept⟩
      · rename_i text
        split at next
        · cases next
        · rw [KBasicString.ofSize] at next
          split at next
          · cases next
          -- the object got a size, but the append fills it to the end
          · obtain rfl := Option.some.inj next
            obtain ⟨given, -, apart⟩ := promised
            refine unsound (fun sound => ?_) text
            have new := sound.2 _ (List.mem_append_right _ (List.mem_singleton_self _))
            rw [Traced.val_bind] at new
            exact filled_unsound given apart _ rfl new
  | append k rhs =>
      obtain ⟨e, here, rfl⟩ := Option.map_eq_some_iff.mp next
      refine ⟨(append_sound kept here promised).trans ⟨fun takes e' here' => ?_, fun all => all e here⟩,
        append_kept kept here promised⟩
      rw [here] at here'
      rwa [← Option.some.inj here']
  | appendString k j =>
      obtain ⟨e, here, rest⟩ := Option.bind_eq_some_iff.mp next
      obtain ⟨f, there, rfl⟩ := Option.map_eq_some_iff.mp rest
      have both (P : Entry → Entry → Prop) :
          (∀ e' f', s.strings[k]? = some e' → s.strings[j]? = some f' → P e' f') ↔ P e f := by
        constructor
        · exact fun all => all e f here there
        · intro holds e' f' here' there'
          rw [here] at here'
          rw [there] at there'
          rwa [← Option.some.inj here', ← Option.some.inj there']
      rw [KeepsSound, both, KBasicString.appendString]
      have member := List.mem_of_getElem? there
      have given := given_sound (kept.sound.2 f member) (kept.padded f member)
      by_cases refused : e.string.fDataSz.toNat < oeStringLen s.memory f.string.fData
      · have refuse : refuses e s.memory f.string = true := decide_eq_true refused
        rw [if_pos refused, refuse, if_pos rfl, changed_refused here]
        exact ⟨iff_of_true kept.sound (.inl rfl), fun _ => kept⟩
      · have accept : refuses e s.memory f.string = false := decide_eq_false refused
        rw [if_neg refused, accept, if_neg Bool.false_ne_true]
        refine ⟨(append_sound kept here given).trans ⟨.inr, fun or => or.resolve_left Bool.false_ne_true⟩,
          append_kept kept here given⟩

end Steps

theorem noStrings_kept (m : Memory) : (noStrings m).Kept where
  sound := ⟨fun _ member => absurd member List.not_mem_nil, fun _ member => absurd member List.not_mem_nil⟩
  padded _ member := absurd member List.not_mem_nil
  apart _ _ _ _ _ none := by
    rw [noStrings, List.getElem?_nil] at none
    cases none

theorem stringStep_functional {minSz : BitVec 32} {l : StringEvent} {s t u : Strings} (first : StringStep minSz l s t)
    (second : StringStep minSz l s u) : t = u :=
  Option.some.inj (first.2.symm.trans second.2)

/-- All strings of a run are sound at any time exactly if no step makes a string from a text, every buffer is found,
and every append stores at the end of its string, with room for a terminator and for the cursor. -/
theorem strings_sound_iff (minSz : BitVec 32) (m : Memory) (events : List StringEvent) (t : Strings)
    (run : Run (StringStep minSz) (noStrings m) events t) :
    Everywhere (StringStep minSz) Strings.Sound (noStrings m) events ↔
      AllSteps (StringStep minSz) (KeepsSound minSz) (noStrings m) events :=
  everywhere_iff (fun _ _ _ _ => stringStep_functional) run (noStrings_kept m) (fun _ kept => kept.sound)
    (fun _ _ _ kept taken => (step_sound kept taken).1) (fun _ _ _ kept taken => (step_sound kept taken).2)

theorem strings_sound_default :
    Everywhere (StringStep kMinimumStringSize) Strings.Sound (noStrings fun _ => 0) [.default 0x2000] ↔
      AllSteps (StringStep kMinimumStringSize) (KeepsSound kMinimumStringSize) (noStrings fun _ => 0)
        [.default 0x2000] :=
  strings_sound_iff kMinimumStringSize (fun _ => 0) [.default 0x2000] _
    (.cons ⟨fun _ => ⟨by decide, fun _ member => absurd member List.not_mem_nil⟩, rfl⟩ (.nil _))

/-- The text `"ab"` at `0x1000`. -/
def twoLetters : Memory := write (fun _ => 0) 0x1000 [0x61, 0x62, 0]

/-- `KString("ab")` has a buffer of two characters. -/
theorem ofText_not_sound :
    ¬ ∀ events t, Run (StringStep kMinimumStringSize) (noStrings twoLetters) events t → t.Sound := by
  intro every
  have here : Text twoLetters 0x1000 [0x61, 0x62] := ⟨by decide, by decide, by decide, by decide +kernel⟩
  have given : Given twoLetters 0x1000 := .inr ⟨_, here⟩
  have length : oeStringLen twoLetters 0x1000 = 2 := oeStringLen_text here
  have apart : (0x2000 : UIntPtr) ≠ 0 → Apart 0x1000 (oeStringLen twoLetters 0x1000 + 1) (0x2000 : UIntPtr)
      (oeStringLen twoLetters 0x1000) := by
    rw [length]
    exact fun _ => .of_le (by decide) (by decide)
  have fresh : Fresh (noStrings twoLetters) 0x2000 (BitVec.ofNat 64 (oeStringLen twoLetters 0x1000)) := by
    rw [length]
    exact fun _ => ⟨by decide, fun _ member => absurd member List.not_mem_nil⟩
  have sound := every [.ofText 0x1000 0x2000] _ (.cons ⟨⟨given, fresh, apart⟩, rfl⟩ (.nil _))
  exact ofText_unsound given apart (sound.2 _ (List.mem_append_right _ (List.mem_singleton_self _)))

end Ne.Kernel
