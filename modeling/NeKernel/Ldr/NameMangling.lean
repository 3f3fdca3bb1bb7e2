import NeKernel.Ldr.FatSections
import NeKernel.Lib.Separators
import NeKernel.Lib.TextBuffers
import Mathlib.Data.List.TakeDrop

/-!
# Mangled names in buffers

`pef_make_name` on the bytes it works on, for a destination of any size, and the search for the section
of the name that it leaves there.
-/

namespace Ne.Kernel.Ldr
open ByteMem Separators
open Access (WritesIn writesIn_write writesIn_read writesIn_wrapped)

def rtIsSpace (c : Byte) : Bool := c = 0x20

/-- A space of a symbol's name becomes a dollar sign. -/
def mangle (c : Byte) : Byte := if c = 0x20 then 0x24 else c

def rtCopyMemory (src dst : UIntPtr) (len : Nat) (m : Memory) : Traced Access Memory :=
  if len = 0 then pure m else if src = 0 ∨ dst = 0 then pure m else copyWords 1 len dst src m

/-- The loop of `pef_make_name` over the characters it has copied. -/
def mangleFrom : Nat → UIntPtr → Memory → Traced Access Memory
  | 0, _, m => pure m
  | left + 1, a, m => do
      let c ← fetchByte m a
      if rtIsSpace c then do
        let m ← storeByte a 0x24 m
        mangleFrom left (a + 1) m
      else mangleFrom left (a + 1) m

/-- `pef_make_name`. The prefix is a literal. -/
def pefMakeNameInto (dst : UIntPtr) (dstSz : SizeT) (kind : BitVec 32) (name : UIntPtr) (m : Memory) :
    Traced Access (Bool × Memory) :=
  if dst = 0 ∨ dstSz = 0 ∨ name = 0 ∨ kind = kPefInvalid then pure (false, m)
  else match sectionPrefix kind with
    | none => pure (false, m)
    | some start => do
        let prefixLen := rtStringLen start dstSz.toNat
        let nameLen ← strLenUpTo m name dstSz.toNat
        let room ← subWord dstSz (BitVec.ofNat 64 prefixLen)
        if nameLen ≥ room.toNat then pure (false, m)
        else do
          let m ← storeChars (start.take prefixLen) dst m
          let m ← rtCopyMemory name (dst + BitVec.ofNat 64 prefixLen) nameLen m
          let m ← mangleFrom nameLen (dst + BitVec.ofNat 64 prefixLen) m
          let m ← storeByte (dst + BitVec.ofNat 64 (prefixLen + nameLen)) 0 m
          pure (true, m)

/-- The `k`th header is of a section with this name and kind. -/
structure NamedSection (m : Memory) (blob : UIntPtr) (sectName : List Byte) (kind : BitVec 32) (k : Nat) : Prop where
  kind : (PEFCommandHeader.Kind.get (headerAt m blob k)).setWidth 32 = kind
  name : HoldsText (headerAt m blob k) PEFCommandHeader.Name kPefNameLen sectName

/-- The processor of a section is the one that runs, unless the container is for several, and its ranges are valid. -/
structure Passes (m : Memory) (blob : UIntPtr) (len : SizeT) (k : Nat) : Prop where
  cpu : PEFCommandHeader.Cpu.get (headerAt m blob k) = ldrGetPlatform ∨ isFatAt m blob = true
  bounds : SectionBounds len.toNat (64 + sectionCount m blob * 304) (headerAt m blob k)

section Mangling
variable {m : Memory} {dst name a base src : UIntPtr} {dstSz : SizeT} {kind : BitVec 32} {text start : List Byte}
  {left len size : Nat}

theorem mangle_zero (c : Byte) : mangle c = 0 ↔ c = 0 := by
  unfold mangle
  split
  · next space =>
      rw [space]
      decide
  · exact Iff.rfl

theorem mangleFrom_val (small : left ≤ 2 ^ 64) :
    (mangleFrom left a m).val = write m a ((read m a left).map mangle) := by
  induction left generalizing a m with
  | zero =>
      rw [mangleFrom, Traced.val_pure]
      rfl
  | succ left ih =>
      -- a character that is no space is there already
      have first : write m a [mangle (m a)] = if rtIsSpace (m a) then write m a [0x24] else m := by
        unfold mangle rtIsSpace
        by_cases space : m a = 0x20
        · rw [if_pos space, if_pos (by simpa using space)]
        · rw [if_neg space, if_neg (by simpa using space)]
          have same := write_read m a 1
          rwa [read_single] at same
      have rest : read (write m a [mangle (m a)]) (a + 1) left = read m (a + 1) left := by
        refine read_congr (by omega) fun x inside => write_outside fun here => ?_
        have apart : Apart a 1 (a + BitVec.ofNat 64 1) left := Apart.behind le_rfl (by omega)
        exact apart x here inside
      have joined := @write_add 64 m a [mangle (m a)] ((read m (a + 1) left).map mangle)
        (by rw [List.length_map, read_length, List.length_singleton]; omega)
      have step : (mangleFrom (left + 1) a m).val = (mangleFrom left (a + 1) (write m a [mangle (m a)])).val := by
        rw [mangleFrom, Traced.val_bind, fetchByte_val, first]
        split
        · rw [Traced.val_bind, storeByte_val]
        · rfl
      rw [step, ih (by omega), rest, read_cons, List.map_cons]
      exact joined

theorem mangleFrom_writes (covers : Covers base size a left) :
    Traced.Only (WritesIn base size) (mangleFrom left a m) := by
  induction left generalizing a m with
  | zero => exact Traced.only_pure
  | succ left ih =>
      rw [Nat.add_comm, covers_add] at covers
      have later (m : Memory) : Traced.Only (WritesIn base size) (mangleFrom left (a + 1) m) := ih covers.2
      simp only [mangleFrom, Traced.only_bind, Traced.only_ite, only_fetchByte, only_storeByte, writesIn_read,
        writesIn_write, later, implies_true, and_true, true_and]
      exact fun _ => covers.1

theorem rtCopyMemory_writes (covers : Covers base size dst len) :
    Traced.Only (WritesIn base size) (rtCopyMemory src dst len m) := by
  unfold rtCopyMemory
  simp only [Traced.only_ite, Traced.only_pure, copyWords_writes, Nat.mul_one, implies_true, true_and]
  exact fun _ _ => covers

/-- The room behind the prefix: the prefix is never longer than the destination, so the difference does not wrap. -/
theorem room_toNat : (dstSz - BitVec.ofNat 64 (rtStringLen start dstSz.toNat)).toNat =
    dstSz.toNat - rtStringLen start dstSz.toNat := by
  have bound := dstSz.isLt
  have fits : rtStringLen start dstSz.toNat ≤ dstSz.toNat := Nat.min_le_right _ _
  have same : (BitVec.ofNat 64 (rtStringLen start dstSz.toNat)).toNat = rtStringLen start dstSz.toNat := by
    rw [BitVec.toNat_ofNat, Nat.mod_eq_of_lt (by omega)]
  rw [BitVec.toNat_sub_of_le (by rwa [BitVec.le_def, same]), same]

/-- Whatever the arguments are, nothing is written past the destination. -/
theorem pefMakeNameInto_writes :
    Traced.Only (WritesIn dst dstSz.toNat) (pefMakeNameInto dst dstSz kind name m) := by
  unfold pefMakeNameInto
  refine Traced.only_ite.mpr ⟨fun _ => Traced.only_pure, fun _ => ?_⟩
  cases sectionPrefix kind with
  | none => exact Traced.only_pure
  | some start =>
      have fits : rtStringLen start dstSz.toNat ≤ dstSz.toNat := Nat.min_le_right _ _
      have short : (start.take (rtStringLen start dstSz.toNat)).length ≤ dstSz.toNat :=
        (List.length_take_le ..).trans fits
      simp only [Traced.only_bind, only_strLenUpTo, only_subWord, subWord_val, strLenUpTo_val, writesIn_read,
        writesIn_wrapped, Traced.only_ite, Traced.only_pure, only_storeByte, writesIn_write, room_toNat, implies_true,
        true_and, and_true]
      intro room
      refine ⟨storeChars_writes.mpr fun _ inside => inside.mono short, rtCopyMemory_writes (covers_offset (by omega)),
        mangleFrom_writes (covers_offset (by omega)), covers_offset (by omega)⟩

theorem sectionPrefix_some (prefixed : sectionPrefix kind = some start) :
    kind ≠ kPefInvalid ∧ start.length = 7 ∧ 0 ∉ start ∧ ∀ n, rtStringLen start n = min 7 n := by
  unfold sectionPrefix at prefixed
  split_ifs at prefixed with code data zero <;> obtain rfl := Option.some.inj prefixed
  · exact ⟨by rw [code]; decide, rfl, by decide, fun n => rfl⟩
  · exact ⟨by rw [data]; decide, rfl, by decide, fun n => rfl⟩
  · exact ⟨by rw [zero]; decide, rfl, by decide, fun n => rfl⟩

section Copies
variable (here : Text m name text) (apart : Apart name (text.length + 1) dst size)
include here apart

theorem copied_val (fits : dst.toNat + size ≤ 2 ^ 64) (seven : start.length = 7) (room : 7 + text.length < size) :
    (rtCopyMemory name (dst + BitVec.ofNat 64 7) text.length (write m dst start)).val =
      write (write m dst start) (dst + BitVec.ofNat 64 7) text := by
  have later : (dst + BitVec.ofNat 64 7).toNat = dst.toNat + 7 := by
    rw [BitVec.toNat_add, BitVec.toNat_ofNat]
    omega
  have live : ¬ (name = 0 ∨ dst + BitVec.ofNat 64 7 = 0) := by
    refine not_or.mpr ⟨here.nonnull, fun null => ?_⟩
    rw [null] at later
    exact absurd later.symm (Nat.succ_ne_zero _)
  have still : Text (write m dst start) name text :=
    here.congr (SameInside.of_outside write_sameOutside (fun _ inside => inside.mono (by omega)) apart)
  have clear : ¬ Ahead name (dst + BitVec.ofNat 64 7) text.length := by
    intro ahead
    refine apart _ (ahead.2.mono (by omega)) ?_
    exact within_add 7 (by omega) (by omega)
  unfold rtCopyMemory
  by_cases empty : text.length = 0
  · rw [if_pos empty, Traced.val_pure, List.length_eq_zero_iff.mp empty]
    rfl
  · rw [if_neg empty, if_neg live, copyWords_moves (by have := here.fits; omega) (by rwa [Nat.mul_one]), Nat.mul_one,
      still.read_take le_rfl, List.take_length]

end Copies

section Result
variable (here : Text m name text) (present : dst ≠ 0) (fits : dst.toNat + dstSz.toNat ≤ 2 ^ 64)
  (apart : Apart name (text.length + 1) dst dstSz.toNat) (prefixed : sectionPrefix kind = some start)
include here present fits apart prefixed

theorem pefMakeNameInto_val : (pefMakeNameInto dst dstSz kind name m).val =
    if 7 + text.length < dstSz.toNat then (true, write m dst (start ++ text.map mangle ++ [0])) else (false, m) := by
  obtain ⟨valid, seven, -, scan⟩ := sectionPrefix_some prefixed
  unfold pefMakeNameInto
  rw [prefixed]
  by_cases empty : dstSz = 0
  · rw [if_pos (.inr (.inl empty)), if_neg (by rw [empty]; exact Nat.not_lt_zero _), Traced.val_pure]
  rw [if_neg (not_or.mpr ⟨present, not_or.mpr ⟨empty, not_or.mpr ⟨here.nonnull, valid⟩⟩⟩)]
  simp only [Traced.val_bind, strLenUpTo_val, subWord_val, Traced.val_ite, Traced.val_pure, room_toNat, storeByte_val]
  rw [here.limited, scan]
  by_cases room : 7 + text.length < dstSz.toNat
  · have lengths : min 7 dstSz.toNat = 7 ∧ min text.length dstSz.toNat = text.length := by omega
    rw [lengths.1, lengths.2, if_neg (by omega), if_pos room, ← seven, List.take_length, seven,
      storeChars_val (by omega), copied_val here apart fits seven room, mangleFrom_val (by have := here.fits; omega),
      read_write_same (by have := here.fits; omega), write_over (by rw [List.length_map])]
    have behind := @write_add 64 m dst start (text.map mangle) (by rw [List.length_map]; omega)
    have ended := @write_add 64 m dst (start ++ text.map mangle) [0]
      (by rw [List.length_append, List.length_map, List.length_singleton]; omega)
    rw [seven] at behind
    rw [List.length_append, List.length_map, seven] at ended
    rw [behind, ended]
  · rw [if_pos (by omega), if_neg room]

/-- The list of characters that `pefMakeName` gives is what an array of `kPefNameLen` characters gets. -/
theorem pefMakeNameInto_refines (own : dstSz.toNat = kPefNameLen) : (pefMakeNameInto dst dstSz kind name m).val =
    ((pefMakeName kind text).map fun sectName => (true, write m dst (sectName ++ [0]))).getD (false, m) := by
  obtain ⟨-, seven, -, -⟩ := sectionPrefix_some prefixed
  have limit : kPefNameLen = 256 := rfl
  have all : text.takeWhile (· ≠ 0) = text := takeWhile_eq_self.mpr here.characters
  rw [pefMakeNameInto_val here present fits apart prefixed, pefMakeName, prefixed]
  dsimp only
  rw [rtStringLen, all, own, seven]
  by_cases room : 7 + text.length < kPefNameLen
  · rw [if_pos room, if_neg (by omega), Nat.min_eq_left (by omega), chars, List.takeD_eq_take _ le_rfl,
      List.take_length]
    rfl
  · rw [if_neg room, if_pos (by omega)]
    rfl

end Result

/-! ## The search for the section -/

/-- Comparing a field with a buffer compares their strings, when the buffer holds one. -/
theorem pefNameEq_iff {hdr : Image} {field : BitVec 64} (holds : HoldsText m a kPefNameLen text) :
    pefNameEq (read hdr field kPefNameLen) (some (read m a kPefNameLen)) = true ↔
      HoldsText hdr field kPefNameLen text := by
  have limit : kPefNameLen = 256 := rfl
  have short := holds.short
  obtain ⟨characters, rest, buffer⟩ := holdsText_iff.mp holds
  have length : (read hdr field kPefNameLen).length = kPefNameLen := read_length
  have wanted : rtStringLen (read m a kPefNameLen) kPefNameLen = text.length := by
    rw [rtStringLen, buffer, takeWhile_first characters, Nat.min_eq_left short.le]
  have front : chars (read m a kPefNameLen) text.length = text := by
    rw [chars, buffer, List.takeD_left]
  rw [pefNameEq, wanted, holdsText_iff]
  generalize read hdr field kPefNameLen = bytes at length
  constructor
  · intro equal
    split_ifs at equal with long other
    have prefixes := of_decide_eq_true equal
    rw [← not_not.mp other, front, chars, List.takeD_eq_take _ (by omega)] at prefixes
    have scanned : (bytes.takeWhile (· ≠ 0)).length = text.length := by
      rw [rtStringLen] at long other
      omega
    have whole := List.takeWhile_append_dropWhile (p := fun c => decide (c ≠ 0)) (l := bytes)
    have same : bytes.takeWhile (· ≠ 0) = text := by
      rw [← prefixes, ← scanned]
      nth_rewrite 3 [← whole]
      rw [List.take_left]
    rw [same] at whole
    have some : bytes.dropWhile (fun c => decide (c ≠ 0)) ≠ [] := by
      intro none
      rw [none, List.append_nil] at whole
      rw [← whole] at length
      omega
    have zero : (bytes.dropWhile fun c => decide (c ≠ 0)).head some = 0 := by
      simpa using List.head_dropWhile_not (fun c => decide (c ≠ 0)) some
    rw [← List.cons_head_tail some, zero] at whole
    exact ⟨characters, _, whole.symm⟩
  · rintro ⟨-, rest', rfl⟩
    rw [rtStringLen, takeWhile_first characters, Nat.min_eq_left short.le]
    rw [if_neg (by omega), if_neg (not_not.mpr rfl), front, chars, List.takeD_left]
    exact decide_eq_true rfl

theorem namedSection_iff {mem : Memory} {blob : UIntPtr} {k : Nat} (holds : HoldsText m a kPefNameLen text) :
    Selects (read m a kPefNameLen) kind (headerAt mem blob k) ↔ NamedSection mem blob text kind k := by
  constructor
  · rintro ⟨ofKind, named⟩
    exact ⟨ofKind, (pefNameEq_iff holds).mp named⟩
  · rintro ⟨ofKind, named⟩
    exact ⟨ofKind, (pefNameEq_iff holds).mpr named⟩

/-- The search for the name in a buffer gives the first section of that name and kind, when it passes the checks. -/
theorem pefFindSection_named {mem : Memory} {blob : UIntPtr} {blobLen : SizeT} {k : Nat}
    (holds : HoldsText m a kPefNameLen text) (accepted : (pefReadContainer mem blob blobLen).val.isSome = true)
    (listed : k < sectionCount mem blob) (named : NamedSection mem blob text kind k)
    (first : ∀ j < k, ¬ NamedSection mem blob text kind j) (passes : Passes mem blob blobLen k) :
    (pefFindSection mem blob blobLen (some (read m a kPefNameLen)) kind).val = some (headerAt mem blob k) := by
  obtain ⟨tableSz, tableSize, table, found⟩ := pefFindSection_first accepted listed ((namedSection_iff holds).mpr named)
    fun j below selects => first j below ((namedSection_iff holds).mp selects)
  have checked : (pefCheckSection blobLen tableSz (isFatAt mem blob) (headerAt mem blob k)).val = true := by
    rw [pefCheckSection_iff table, tableSize]
    exact ⟨passes.cpu, passes.bounds⟩
  rw [found, if_pos checked]

end Mangling

/-- `pef_make_name` into a destination of any size, and `pef_find_section` with the name it leaves. -/
theorem pefMakeNameInto_finds (dst : UIntPtr) (dstSz : SizeT) (kind : BitVec 32) (name : UIntPtr) (m : Memory) :
    Traced.Only (WritesIn dst dstSz.toNat) (pefMakeNameInto dst dstSz kind name m) ∧
    ∀ text, Text m name text → dst.toNat + dstSz.toNat ≤ 2 ^ 64 → Apart name (text.length + 1) dst dstSz.toNat →
      (pefMakeNameInto dst dstSz kind name m).val.1 = true →
      ∃ start, sectionPrefix kind = some start ∧
        HoldsText (pefMakeNameInto dst dstSz kind name m).val.2 dst dstSz.toNat (start ++ text.map mangle) ∧
        (dstSz.toNat = kPefNameLen → ∀ mem blob len k, (pefReadContainer mem blob len).val.isSome = true →
          k < sectionCount mem blob → NamedSection mem blob (start ++ text.map mangle) kind k →
          (∀ j < k, ¬ NamedSection mem blob (start ++ text.map mangle) kind j) → Passes mem blob len k →
          (pefFindSection mem blob len (some (read (pefMakeNameInto dst dstSz kind name m).val.2 dst kPefNameLen))
            kind).val = some (headerAt mem blob k)) := by
  refine ⟨pefMakeNameInto_writes, fun text here fits apart made => ?_⟩
  have present : dst ≠ 0 := by
    rintro rfl
    rw [pefMakeNameInto, if_pos (.inl rfl), Traced.val_pure] at made
    cases made
  cases prefixed : sectionPrefix kind with
  | none =>
      rw [pefMakeNameInto, prefixed, Traced.val_ite, Traced.val_pure, ite_self] at made
      cases made
  | some start =>
      obtain ⟨-, seven, characters, -⟩ := sectionPrefix_some prefixed
      have result := pefMakeNameInto_val here present fits apart prefixed
      by_cases room : 7 + text.length < dstSz.toNat
      · rw [if_pos room] at result
        have clean : 0 ∉ start ++ text.map mangle := by
          rw [List.mem_append, List.mem_map, not_or]
          refine ⟨characters, ?_⟩
          rintro ⟨c, member, zero⟩
          exact here.characters ((mangle_zero c).mp zero ▸ member)
        have bound := dstSz.isLt
        have holds : HoldsText (pefMakeNameInto dst dstSz kind name m).val.2 dst dstSz.toNat
            (start ++ text.map mangle) := by
          rw [result]
          exact holdsText_write (by rw [List.length_append, List.length_map, seven]; exact room) bound.le clean
        refine ⟨start, rfl, holds, fun own mem blob len k accepted listed named first passes => ?_⟩
        exact pefFindSection_named (own ▸ holds) accepted listed named first passes
      · rw [result, if_neg room] at made
        cases made

def mainSymbol : Memory := write (fun _ => 0) 0x4000 symbolMain

theorem pefMakeNameInto_finds_main :
    (pefFindSection mainBlob mainAt 978
      (some (read (pefMakeNameInto 0x5000 256 kPefCode 0x4000 mainSymbol).val.2 0x5000 kPefNameLen)) kPefCode).val =
      some (headerAt mainBlob mainAt 0) := by
  have here : Text mainSymbol 0x4000 symbolMain := ⟨by decide, by decide, by decide, by decide +kernel⟩
  obtain ⟨-, strings⟩ := pefMakeNameInto_finds 0x5000 256 kPefCode 0x4000 mainSymbol
  have made : (pefMakeNameInto 0x5000 256 kPefCode 0x4000 mainSymbol).val.1 = true := by decide +kernel
  obtain ⟨start, prefixed, -, finds⟩ := strings symbolMain here (by decide) (.of_le (by decide) (by decide)) made
  obtain rfl : [0x2E, 0x63, 0x6F, 0x64, 0x65, 0x36, 0x34] = start := Option.some.inj prefixed
  refine finds rfl mainBlob mainAt 978 0 (by decide +kernel) (by decide +kernel) ⟨by decide +kernel, ?_⟩ ?_ ?_
  · exact ⟨by decide, by decide, by decide +kernel⟩
  · exact fun j below => absurd below (Nat.not_lt_zero j)
  · exact ⟨.inl (by decide +kernel), by decide +kernel⟩

end Ne.Kernel.Ldr
