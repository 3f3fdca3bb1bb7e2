import NeKernel.FS.NeAccounting
import NeKernel.Lib.Separators

/-!
# Which catalog a path leads to

A catalog keeps the last component of its path only, and the lookup compares it with the end of the path
it is asked for. The first catalog on the chain that has that component is the answer, whichever path
it was created for, and a component longer than the path is compared with the memory before it.
-/

namespace Ne.Kernel.FS
open ByteMem Loops Runs Separators

/-! ## Components -/

/-- The last component of a path with its separators, if it has one. -/
def component (text : List Byte) : Option (List Byte) :=
  if kNeFSSeparator ∈ text.dropLast then
    some (baseOf text (if text.getLast? = some kNeFSSeparator then kNeFSCatalogKindDir else kNeFSCatalogKindFile))
  else none

section Components
variable {text front rest name : List Byte} {kind : BitVec 32}

theorem baseOf_dir (free : kNeFSSeparator ∉ rest) :
    baseOf (front ++ kNeFSSeparator :: rest ++ [kNeFSSeparator]) kNeFSCatalogKindDir =
      kNeFSSeparator :: rest ++ [kNeFSSeparator] := by
  have len : (front ++ kNeFSSeparator :: rest ++ [kNeFSSeparator]).length - 1 =
      (front ++ kNeFSSeparator :: rest).length := by simp
  simp only [baseOf, if_true, len, List.drop_left, List.take_left, takeWhile_last free]

theorem baseOf_file (free : kNeFSSeparator ∉ rest) (file : kind ≠ kNeFSCatalogKindDir) :
    baseOf (front ++ kNeFSSeparator :: rest) kind = kNeFSSeparator :: rest := by
  simp only [baseOf, if_neg file, takeWhile_last free, List.append_nil]

/-- What a catalog can be named: a component between two separators, or behind one. -/
def IsComponent (name : List Byte) : Prop :=
  ∃ rest, kNeFSSeparator ∉ rest ∧
    (name = kNeFSSeparator :: rest ++ [kNeFSSeparator] ∨ rest ≠ [] ∧ name = kNeFSSeparator :: rest)

theorem getLast_not_separator (free : kNeFSSeparator ∉ rest) (nonempty : rest ≠ []) :
    (front ++ kNeFSSeparator :: rest).getLast? ≠ some kNeFSSeparator := by
  intro last
  rw [List.getLast?_append, List.getLast?_cons_of_ne_nil nonempty,
    List.getLast?_eq_some_getLast nonempty] at last
  have equal : rest.getLast nonempty = kNeFSSeparator := by simpa using last
  exact free (equal ▸ List.getLast_mem nonempty)

/-- The end of a path is a component of that form exactly if it is the path's last one. -/
theorem suffix_iff (isComponent : IsComponent name) : name <:+ text ↔ component text = some name := by
  constructor
  · rintro ⟨front, rfl⟩
    obtain ⟨rest, free, rfl | ⟨nonempty, rfl⟩⟩ := isComponent
    · have last : (front ++ (kNeFSSeparator :: rest ++ [kNeFSSeparator])).getLast? = some kNeFSSeparator := by
        rw [← List.append_assoc, List.getLast?_concat]
      have inner : kNeFSSeparator ∈ (front ++ (kNeFSSeparator :: rest ++ [kNeFSSeparator])).dropLast := by
        rw [← List.append_assoc, List.dropLast_concat]
        simp
      rw [component, if_pos inner, last, if_pos rfl, ← List.append_assoc, baseOf_dir free]
    · have inner : kNeFSSeparator ∈ (front ++ kNeFSSeparator :: rest).dropLast := by
        rw [List.dropLast_append_of_ne_nil (by simp), List.dropLast_cons_of_ne_nil nonempty]
        simp
      rw [component, if_pos inner, if_neg (getLast_not_separator free nonempty),
        baseOf_file free (by decide)]
  · intro found
    rw [component] at found
    split at found
    · rename_i inner
      split at found
      · rename_i last
        obtain ⟨front, rest, split, free⟩ := exists_last inner
        have whole : text = front ++ kNeFSSeparator :: rest ++ [kNeFSSeparator] := by
          rw [← split]
          exact (List.dropLast_append_getLast? _ last).symm
        rw [whole, baseOf_dir free] at found
        cases found
        exact ⟨front, by rw [whole, List.append_assoc]⟩
      · obtain ⟨front, rest, split, free⟩ := exists_last (List.dropLast_subset _ inner)
        rw [split, baseOf_file free (by decide)] at found
        cases found
        exact ⟨front, split.symm⟩
    · cases found

theorem baseOf_isComponent (fits : endFits text kind) (inner : kNeFSSeparator ∈ text.dropLast) :
    IsComponent (baseOf text kind) := by
  rw [endFits] at fits
  split at fits
  · rename_i dir
    obtain ⟨front, rest, split, free⟩ := exists_last inner
    have whole : text = front ++ kNeFSSeparator :: rest ++ [kNeFSSeparator] := by
      rw [← split]
      exact (List.dropLast_append_getLast? _ fits).symm
    rw [whole, dir, baseOf_dir free]
    exact ⟨rest, free, .inl rfl⟩
  · rename_i file
    obtain ⟨front, rest, split, free⟩ := exists_last (List.dropLast_subset _ inner)
    have nonempty : rest ≠ [] := by
      rintro rfl
      exact fits (by simp [split])
    rw [split, baseOf_file free file]
    exact ⟨rest, free, .inr ⟨nonempty, rfl⟩⟩

end Components

theorem endsWith_iff {p : CString} {name : List Byte} (short : name.length ≤ p.length) :
    p.endsWith name = true ↔ name <:+ p.text := by
  rw [CString.endsWith, CString.ending, if_pos short, decide_eq_true_iff, List.suffix_iff_eq_drop]
  exact eq_comm

/-! ## Names in catalogs -/

/-- What is left of a name in a catalog that was created under it. -/
def keptName (text : List Byte) (kind : BitVec 32) : List Byte :=
  if (baseOf text kind).length ≤ kNeFSCatalogNameLen then baseOf text kind else []

section Names
variable {drive : NeDrive} {v : NeVolume} {text chars : List Byte} {flags kind : BitVec 32}
  {outLba slot : Lba} {part child s : Image} {x : BitVec 64}

theorem nameOf_of (short : chars.length ≤ kNeFSCatalogNameLen) (nonzero : ∀ c ∈ chars, c ≠ 0)
    (front : ByteMem.read s 1 chars.length = chars) (stop : s (1 + BitVec.ofNat 64 chars.length) = 0) :
    nameOf s = chars := by
  have room : kNeFSCatalogNameLen = 256 := rfl
  have whole := read_add s 1 chars.length (1 + (510 - chars.length))
  rw [read_add s _ 1, front, show chars.length + (1 + (510 - chars.length)) = 511 by omega] at whole
  have first : ByteMem.read s (1 + BitVec.ofNat 64 chars.length) 1 = [0] := by
    simpa [ByteMem.read] using stop
  have name : nameOf s = (ByteMem.read s 1 511).takeWhile (· ≠ 0) := rfl
  rw [name, whole, first, List.takeWhile_append_of_pos (by simpa using nonzero)]
  simp

theorem copyChars_congr {s' : Image} {off : BitVec 64} {room : Nat} (same : s x = s' x) :
    copyChars s off chars room x = copyChars s' off chars room x := by
  rw [copyChars, copyChars]
  split <;> rw [write, write, same]

theorem childCatalog_front (high : x.toNat < 457) : childCatalog text flags kind outLba x =
    copyChars zeroed NefsCatalogStruct.Name (baseOf text kind) kNeFSCatalogNameLen x := by
  have before {f : Field} {v : BitVec 64} {s : Image} (bound : 457 ≤ f.off) : f.set v s x = s x :=
    Field.set_outside (.inl (lt_of_lt_of_le high bound))
  apply copyChars_congr
  rw [before (by decide), before (by decide), before (by decide), before (by decide), before (by decide),
    before (by decide), before (by decide), before (by decide), before (by decide)]

theorem placeChild_front (high : x.toNat < 457) : placeChild drive part child slot x = child x := by
  have before {f : Field} {v : BitVec 64} {s : Image} (bound : 457 ≤ f.off) : f.set v s x = s x :=
    Field.set_outside (.inl (lt_of_lt_of_le high bound))
  rw [placeChild, before (by decide), before (by decide), before (by decide)]

theorem child_name (nonzero : ∀ c ∈ baseOf text kind, c ≠ 0) :
    nameOf (placeChild drive part (childCatalog text flags kind outLba) slot) = keptName text kind := by
  have room : kNeFSCatalogNameLen = 256 := rfl
  have same {x : BitVec 64} (high : x.toNat < 457) :
      placeChild drive part (childCatalog text flags kind outLba) slot x =
        copyChars zeroed NefsCatalogStruct.Name (baseOf text kind) kNeFSCatalogNameLen x :=
    (placeChild_front high).trans (childCatalog_front high)
  have one : (1 : BitVec 64).toNat = 1 := rfl
  by_cases fits : (baseOf text kind).length ≤ kNeFSCatalogNameLen
  · have stop : (1 + BitVec.ofNat 64 (baseOf text kind).length).toNat = 1 + (baseOf text kind).length := by
      rw [BitVec.toNat_add, BitVec.toNat_ofNat]
      omega
    have outside : ¬ Within NefsCatalogStruct.Name (baseOf text kind).length
        (1 + BitVec.ofNat 64 (baseOf text kind).length) := by
      have base : NefsCatalogStruct.Name = 1 := rfl
      rw [base, within_iff (by omega)]
      omega
    rw [keptName, if_pos fits]
    refine nameOf_of fits nonzero ?_ ?_
    · have written : ByteMem.read (write zeroed NefsCatalogStruct.Name (baseOf text kind))
          NefsCatalogStruct.Name (baseOf text kind).length = baseOf text kind := read_write_same (by omega)
      refine Eq.trans (read_congr (by omega) fun x inside => ?_) written
      rw [within_iff (by omega)] at inside
      rw [same (by omega), copyChars, if_pos fits]
    · rw [same (by omega), copyChars, if_pos fits, write_outside outside]
      rfl
  · rw [keptName, if_neg fits]
    refine nameOf_of (by simp) (by simp) rfl ?_
    rw [same (by decide), copyChars, if_neg fits]
    exact (by decide : write zeroed 1 (List.replicate 256 0) 1 = 0)

theorem child_live : live (placeChild drive part (childCatalog text flags kind outLba) slot) := by
  have flagsOf {s : Image} : NefsCatalogStruct.Flags.get
      (copyChars s NefsCatalogStruct.Name (baseOf text kind) kNeFSCatalogNameLen) =
        NefsCatalogStruct.Flags.get s := by
    refine Field.get_congr fun x low _ => ?_
    have base : NefsCatalogStruct.Flags.off = 457 := rfl
    have one : NefsCatalogStruct.Name.toNat = 1 := rfl
    have room : kNeFSCatalogNameLen = 256 := rfl
    rw [copyChars]
    split
    · refine write_outside ?_
      rw [within_iff (by omega)]
      omega
    · refine write_outside ?_
      rw [within_iff (by simp; omega), List.length_replicate]
      omega
  rw [live, placeChild, Field.get_set_other (by decide), Field.get_set_other (by decide),
    Field.get_set_other (by decide), childCatalog, flagsOf, Field.get_set_other (by decide)]
  exact set_live (by decide)

end Names

/-! ## Volumes built by creations -/

structure CreateCall where
  beside : Beside
  name : CString
  flags : BitVec 32
  kind : BitVec 32

/-- A volume, and the paths and kinds the catalogs in its sectors were created for. -/
structure NameHistory where
  volume : NeVolume
  made : Nat → Option (List Byte × BitVec 32)

inductive NameStep (drive : NeDrive) : CreateCall → NameHistory → NameHistory → Prop
  | create {call : CreateCall} {h : NameHistory} {fuel : Nat} {allocation : Option Allocation} :
      findSlot drive fuel call.beside call.name call.kind h.volume = some allocation →
      NameStep drive call h
        ⟨(useSlot drive call.name.text call.flags call.kind h.volume allocation).2,
          match allocation with
          | some ⟨_, .free slot _⟩ =>
            Function.update h.made (drive.sectorOf slot) (some (call.name.text, call.kind))
          | _ => h.made⟩

/-- The slot can be written, and a name in the sector of the partition block ends before the counters. -/
def Stored (drive : NeDrive) (call : CreateCall) (h : NameHistory) : Prop :=
  ∀ fuel outLba slot old, findSlot drive fuel call.beside call.name call.kind h.volume =
      some (some ⟨outLba, .free slot old⟩) →
    slot ≠ 0 ∧ (drive.sectorOf slot = drive.sectorOf kNeFSRootCatalogStartAddress →
      (baseOf call.name.text call.kind).length + 1 < NefsRootPartitionBlock.CatalogCount.off)

/-- A catalog that was created for a path is live and has the name of that path. -/
structure Created (drive : NeDrive) (s : Nat) (text : List Byte) (kind : BitVec 32) (catalog : Image) : Prop where
  isLive : live catalog
  name : nameOf catalog = keptName text kind
  fits : endFits text kind
  inner : kNeFSSeparator ∈ text.dropLast
  short : s = drive.sectorOf kNeFSRootCatalogStartAddress →
    (keptName text kind).length + 1 < NefsRootPartitionBlock.CatalogCount.off

def AllCreated (drive : NeDrive) (h : NameHistory) : Prop :=
  ∀ s text kind, h.made s = some (text, kind) → Created drive s text kind (h.volume.sectors s)

section Building
variable {drive : NeDrive} {v : NeVolume} {h h' : NameHistory} {call : CreateCall} {slot : Lba}
  {child part : Image} {s : Nat} {x : BitVec 64} {text : List Byte} {kind : BitVec 32}

theorem countCreated_other
    (outside : x.toNat < NefsRootPartitionBlock.CatalogCount.off ∨
      NefsRootPartitionBlock.FreeSectors.off + NefsRootPartitionBlock.FreeSectors.size ≤ x.toNat) :
    countCreated drive part x = part x := by
  have count : NefsRootPartitionBlock.CatalogCount.off = 56 ∧
    NefsRootPartitionBlock.CatalogCount.size = 8 := ⟨rfl, rfl⟩
  have free : NefsRootPartitionBlock.FreeCatalog.off = 72 ∧
    NefsRootPartitionBlock.FreeCatalog.size = 8 := ⟨rfl, rfl⟩
  have sectors : NefsRootPartitionBlock.FreeSectors.off = 80 ∧
    NefsRootPartitionBlock.FreeSectors.size = 8 := ⟨rfl, rfl⟩
  rw [countCreated, Field.set_outside (by omega), Field.set_outside (by omega), Field.set_outside (by omega)]

theorem takeSlot_byte (writable : drive.fPacketReadOnly = false) (nonzero : slot ≠ 0)
    (inside : x.toNat < kNeFSSectorSz)
    (off : s = drive.sectorOf kNeFSRootCatalogStartAddress →
      x.toNat < NefsRootPartitionBlock.CatalogCount.off ∨
        NefsRootPartitionBlock.FreeSectors.off + NefsRootPartitionBlock.FreeSectors.size ≤ x.toNat) :
    (takeSlot drive part child slot v).sectors s x =
      if s = drive.sectorOf slot then placeChild drive part child slot x else v.sectors s x := by
  have first : (drive.output slot NefsCatalogStruct.size (placeChild drive part child slot)
      (drive.output slot NefsCatalogStruct.size zeroed v)).sectors s x =
        if s = drive.sectorOf slot then placeChild drive part child slot x else v.sectors s x := by
    by_cases here : s = drive.sectorOf slot
    · rw [if_pos here, here, output_byte writable nonzero (by decide) inside]
    · rw [if_neg here, output_other here, output_other here]
  rw [takeSlot, ← first]
  by_cases block : s = drive.sectorOf kNeFSRootCatalogStartAddress
  · rw [block, output_byte writable (by decide) (by decide) inside, countCreated_other (off block)]
    rfl
  · rw [output_other block]

/-- The bytes a lookup reads of a catalog in sector `s`. -/
def SameName (drive : NeDrive) (s : Nat) (catalog catalog' : Image) : Prop :=
  ∀ x : BitVec 64, x.toNat < kNeFSSectorSz →
    (s = drive.sectorOf kNeFSRootCatalogStartAddress → x.toNat < NefsRootPartitionBlock.CatalogCount.off ∨
      NefsRootPartitionBlock.FreeSectors.off + NefsRootPartitionBlock.FreeSectors.size ≤ x.toNat) →
    catalog' x = catalog x

theorem keptName_length : (keptName text kind).length ≤ kNeFSCatalogNameLen := by
  rw [keptName]
  split
  · assumption
  · simp

theorem Created.congr {catalog catalog' : Image} (created : Created drive s text kind catalog)
    (same : SameName drive s catalog catalog') : Created drive s text kind catalog' := by
  have sector : kNeFSSectorSz = 512 := rfl
  have count : NefsRootPartitionBlock.CatalogCount.off = 56 := rfl
  have counted : NefsRootPartitionBlock.FreeSectors.off + NefsRootPartitionBlock.FreeSectors.size = 88 := rfl
  have room : kNeFSCatalogNameLen = 256 := rfl
  have base : NefsCatalogStruct.Flags.off = 457 := rfl
  have field : NefsCatalogStruct.Flags.off + NefsCatalogStruct.Flags.size = 459 := rfl
  have flags : NefsCatalogStruct.Flags.get catalog' = NefsCatalogStruct.Flags.get catalog :=
    Field.get_congr fun x low high => same x (by omega) fun _ => .inr (by omega)
  have length : (keptName text kind).length ≤ kNeFSCatalogNameLen := keptName_length
  refine ⟨?_, ?_, created.fits, created.inner, created.short⟩
  · rw [live, flags]
    exact created.isLive
  · rw [← created.name]
    by_cases block : s = drive.sectorOf kNeFSRootCatalogStartAddress
    · have short := created.short block
      rw [← created.name] at short
      exact nameOf_congr (fun x _ high => same x (by omega) fun _ => .inl high) short (by omega)
    · exact nameOf_congr (n := 300) (fun x _ high => same x (by omega) fun here => absurd here block)
        (by rw [created.name]; omega) (by omega)

theorem parent_inner {p q : CString} {behind : Nat → Byte} (above : p.parent behind = some q) :
    kNeFSSeparator ∈ p.text.dropLast := by
  have found {body : List Byte} (nonempty : (body.reverse.dropWhile (· ≠ kNeFSSeparator)).reverse ≠ []) :
      kNeFSSeparator ∈ body := by
    by_contra free
    apply nonempty
    have reversed : kNeFSSeparator ∉ body.reverse := fun member => free (List.mem_reverse.mp member)
    rw [List.dropWhile_eq_nil_iff.mpr (ne_of_absent reversed), List.reverse_nil]
  by_cases closed : p.text.getLast? = some kNeFSSeparator
  · apply found
    intro empty
    rw [CString.parent, if_pos (by rw [if_pos closed]; exact empty)] at above
    cases above
  · have inner : kNeFSSeparator ∈ p.text := by
      apply found
      intro empty
      rw [CString.parent, if_pos (by rw [if_neg closed]; exact empty)] at above
      cases above
    obtain ⟨front, last, split⟩ := List.eq_nil_or_concat' p.text |>.resolve_left fun empty => by
      rw [empty] at inner
      cases inner
    rw [split, List.getLast?_concat] at closed
    rw [split] at inner ⊢
    rw [List.dropLast_concat]
    rcases List.mem_append.mp inner with inner | inner
    · exact inner
    · exact absurd (congrArg some (List.mem_singleton.mp inner).symm) closed

theorem findSlot_path {fuel : Nat} {beside : Beside} {name : CString} {allocation : Allocation}
    (ends : findSlot drive fuel beside name kind v = some (some allocation)) :
    endFits name.text kind ∧ kNeFSSeparator ∈ name.text.dropLast := by
  obtain ⟨⟨-, fits⟩, -, -, above, -, -, parent, -⟩ := findSlot_some ends
  exact ⟨fits, parent_inner parent⟩

theorem component_baseOf (fits : endFits text kind) (inner : kNeFSSeparator ∈ text.dropLast) :
    component text = some (baseOf text kind) := by
  rw [component, if_pos inner]
  by_cases dir : kind = kNeFSCatalogKindDir
  · rw [endFits, if_pos dir] at fits
    rw [if_pos fits, dir]
  · rw [endFits, if_neg dir] at fits
    rw [if_neg fits]
    simp only [baseOf, if_neg dir, if_neg (by decide : ¬ kNeFSCatalogKindFile = kNeFSCatalogKindDir)]

theorem baseOf_suffix (fits : endFits text kind) (inner : kNeFSSeparator ∈ text.dropLast) :
    baseOf text kind <:+ text :=
  (suffix_iff (baseOf_isComponent fits inner)).mpr (component_baseOf fits inner)

theorem baseOf_nonzero {p : CString} (fits : endFits p.text kind)
    (inner : kNeFSSeparator ∈ p.text.dropLast) : ∀ c ∈ baseOf p.text kind, c ≠ 0 :=
  fun c member => p.ended c ((baseOf_suffix fits inner).subset member)

theorem step_created (guarded : Stored drive call h) (created : AllCreated drive h)
    (taken : NameStep drive call h h') : AllCreated drive h' := by
  cases taken with
  | @create fuel allocation found =>
      rcases allocation with _ | ⟨outLba, slot⟩
      · exact created
      cases slot with
      | present catalog => exact created
      | free slot old =>
          obtain ⟨nonzero, short⟩ := guarded fuel outLba slot old found
          obtain ⟨_, searched⟩ := findSlot_cases found
          obtain ⟨writable, -⟩ := findSlotFrom_checks searched
          obtain ⟨fits, inner⟩ := findSlot_path found
          intro s text kind isMade
          dsimp only at isMade
          by_cases here : s = drive.sectorOf slot
          · subst here
            rw [Function.update_self] at isMade
            cases isMade
            have child : Created drive (drive.sectorOf slot) call.name.text call.kind
                (placeChild drive (drive.partition h.volume)
                  (childCatalog call.name.text call.flags call.kind outLba) slot) := by
              refine ⟨child_live, child_name (baseOf_nonzero fits inner), fits, inner, fun block => ?_⟩
              rw [keptName]
              split
              · exact short block
              · decide
            refine child.congr fun x inside off => ?_
            dsimp only [useSlot]
            rw [takeSlot_byte writable nonzero inside off, if_pos rfl]
          · rw [Function.update_of_ne here] at isMade
            refine (created s text kind isMade).congr fun x inside off => ?_
            dsimp only [useSlot]
            rw [takeSlot_byte writable nonzero inside off, if_neg here]

end Building

/-! ## Lookups -/

/-- A scan reads the catalog at the address. -/
def Scanned (drive : NeDrive) (v : NeVolume) (cursor : Lba) : Prop :=
  NefsRootPartitionBlock.StartCatalog.get (drive.partition v) ≤ cursor ∧ v.fPacketGood = true

/-- The name is compared inside its array and inside the path. -/
def NameInside (p : CString) (catalog : Image) : Prop :=
  (nameOf catalog).length < kNeFSCatalogNameLen ∧ (nameOf catalog).length ≤ p.length

/-- The addresses a scan for `p` comes to. -/
inductive Visits (drive : NeDrive) (v : NeVolume) (p : CString) (start : Lba) : Lba → Prop
  | start : Visits drive v p start start
  | next {cursor : Lba} : Visits drive v p start cursor → Scanned drive v cursor →
      p.endsWith (nameOf (drive.input cursor v)) = false →
      Visits drive v p start (NefsCatalogStruct.NextSibling.get (drive.input cursor v))

/-- A scan for `p` that compares inside the names and the path only, and its result. -/
inductive Walk (drive : NeDrive) (v : NeVolume) (p : CString) : Lba → Option Found → Prop
  | outside {cursor : Lba} : ¬ Scanned drive v cursor → Walk drive v p cursor none
  | ends {cursor : Lba} : Scanned drive v cursor → NameInside p (drive.input cursor v) →
      nameOf (drive.input cursor v) <:+ p.text →
      Walk drive v p cursor (matched true cursor (drive.input cursor v))
  | passes {cursor : Lba} {found : Option Found} : Scanned drive v cursor →
      NameInside p (drive.input cursor v) → ¬ nameOf (drive.input cursor v) <:+ p.text →
      Walk drive v p (NefsCatalogStruct.NextSibling.get (drive.input cursor v)) found →
      Walk drive v p cursor found

section Walks
variable {drive : NeDrive} {v : NeVolume} {p : CString} {start cursor : Lba} {found : Option Found} {fuel : Nat}

theorem scanRound_out (scanned : ¬ Scanned drive v cursor) :
    scanRound drive v p true cursor = .done none := if_neg scanned

theorem scanRound_ends (scanned : Scanned drive v cursor)
    (same : p.endsWith (nameOf (drive.input cursor v)) = true) :
    scanRound drive v p true cursor = .done (matched true cursor (drive.input cursor v)) :=
  (if_pos scanned).trans (if_pos same)

theorem scanRound_passes (scanned : Scanned drive v cursor)
    (other : p.endsWith (nameOf (drive.input cursor v)) = false) :
    scanRound drive v p true cursor = .again (NefsCatalogStruct.NextSibling.get (drive.input cursor v)) :=
  (if_pos scanned).trans (if_neg (by simp [other]))

theorem scan_walk (ends : scanFrom drive fuel v p true start = some found)
    (inside : ∀ cursor, Visits drive v p start cursor → Scanned drive v cursor → NameInside p (drive.input cursor v)) :
    Walk drive v p start found := by
  suffices ∀ cursor, Visits drive v p start cursor →
      loop (scanRound drive v p true) fuel cursor = some found → Walk drive v p cursor found from
    this start .start ends
  clear ends
  induction fuel with
  | zero => exact fun _ _ ends => nomatch ends
  | succ fuel ih =>
      intro cursor visits ends
      by_cases scanned : Scanned drive v cursor
      · have inBounds := inside cursor visits scanned
        cases same : p.endsWith (nameOf (drive.input cursor v)) with
        | true =>
            rw [loop_done (scanRound_ends scanned same)] at ends
            cases ends
            exact .ends scanned inBounds ((endsWith_iff inBounds.2).mp same)
        | false =>
            rw [loop_again (scanRound_passes scanned same)] at ends
            refine .passes scanned inBounds ?_ (ih _ (.next visits scanned same) ends)
            rw [← endsWith_iff inBounds.2, same]
            exact Bool.false_ne_true
      · rw [loop_done (scanRound_out scanned)] at ends
        cases ends
        exact .outside scanned

theorem Walk.scan (walk : Walk drive v p start found) :
    ∃ fuel, scanFrom drive fuel v p true start = some found := by
  induction walk with
  | outside scanned => exact ⟨1, loop_done (scanRound_out scanned)⟩
  | ends scanned inBounds same =>
      exact ⟨1, loop_done (scanRound_ends scanned ((endsWith_iff inBounds.2).mpr same))⟩
  | passes scanned inBounds other _ ih =>
      obtain ⟨fuel, ends⟩ := ih
      have passes := Bool.eq_false_iff.mpr fun same => other ((endsWith_iff inBounds.2).mp same)
      exact ⟨fuel + 1, (loop_again (scanRound_passes scanned passes)).trans ends⟩

theorem Visits.cases_start (visits : Visits drive v p start cursor) : cursor = start ∨
    Scanned drive v start ∧ p.endsWith (nameOf (drive.input start v)) = false ∧
      Visits drive v p (NefsCatalogStruct.NextSibling.get (drive.input start v)) cursor := by
  induction visits with
  | start => exact .inl rfl
  | next _ scanned other ih =>
      rcases ih with rfl | ⟨scanned', other', visits⟩
      · exact .inr ⟨scanned, other, .start⟩
      · exact .inr ⟨scanned', other', .next visits scanned other⟩

theorem Walk.inside (walk : Walk drive v p start found) :
    ∀ cursor, Visits drive v p start cursor → Scanned drive v cursor → NameInside p (drive.input cursor v) := by
  induction walk with
  | outside scanned =>
      intro cursor visits scanned'
      rcases visits.cases_start with rfl | ⟨scanned'', -⟩
      · exact absurd scanned' scanned
      · exact absurd scanned'' scanned
  | ends _ inBounds same =>
      intro cursor visits _
      rcases visits.cases_start with rfl | ⟨-, other, -⟩
      · exact inBounds
      · rw [(endsWith_iff inBounds.2).mpr same] at other
        cases other
  | passes _ inBounds _ _ ih =>
      intro cursor visits scanned
      rcases visits.cases_start with rfl | ⟨-, -, later⟩
      · exact inBounds
      · exact ih cursor later scanned

end Walks

/-! ## Paths and the catalogs they lead to -/

/-- No catalog was created for the path. -/
def Unmade (h : NameHistory) (p : CString) : Prop := ∀ s kind, h.made s ≠ some (p.text, kind)

/-- The result is the catalog that was created for the path, or null if none was. -/
def Answers (drive : NeDrive) (h : NameHistory) (p : CString) : Option Found → Prop
  | some found => ∃ kind, h.made (drive.sectorOf found.lba) = some (p.text, kind)
  | none => Unmade h p

/-- `FindCatalog` of a path, with the comparisons it makes. -/
structure Resolves (drive : NeDrive) (beside : Beside) (h : NameHistory) (p : CString) : Prop where
  answer : ∃ fuel found, findCatalog drive fuel beside p true false h.volume = some found ∧
    Answers drive h p found
  inside : p.text ≠ [] → ∀ cursor,
    Visits drive h.volume p (NefsRootPartitionBlock.StartCatalog.get (drive.partition h.volume)) cursor →
      Scanned drive h.volume cursor → NameInside p (drive.input cursor h.volume)

/-- The catalog at the address was created for a path whose last component is another one that is no
longer than `p`, or is not one of the created ones and has another name. -/
def Passed (drive : NeDrive) (h : NameHistory) (p : CString) (cursor : Lba) : Prop :=
  match h.made (drive.sectorOf cursor) with
  | some (text, kind) => (baseOf text kind).length < kNeFSCatalogNameLen ∧
      (baseOf text kind).length ≤ p.length ∧ component p.text ≠ some (baseOf text kind)
  | none => NameInside p (drive.input cursor h.volume) ∧ ¬ nameOf (drive.input cursor h.volume) <:+ p.text

/-- The catalogs on the chain, up to the one that was created for `p`, have other last components. -/
inductive Trail (drive : NeDrive) (h : NameHistory) (p : CString) : Lba → Prop
  | passed {cursor : Lba} : Scanned drive h.volume cursor → Passed drive h p cursor →
      Trail drive h p (NefsCatalogStruct.NextSibling.get (drive.input cursor h.volume)) →
      Trail drive h p cursor
  | own {cursor : Lba} {kind : BitVec 32} : Scanned drive h.volume cursor →
      h.made (drive.sectorOf cursor) = some (p.text, kind) →
      (keptName p.text kind).length < kNeFSCatalogNameLen → Trail drive h p cursor
  | blank {cursor : Lba} : Scanned drive h.volume cursor → h.made (drive.sectorOf cursor) = none →
      NameInside p (drive.input cursor h.volume) → nameOf (drive.input cursor h.volume) <:+ p.text →
      ¬ live (drive.input cursor h.volume) → Unmade h p → Trail drive h p cursor
  | ended {cursor : Lba} : ¬ Scanned drive h.volume cursor → Unmade h p → Trail drive h p cursor

section Trails
variable {drive : NeDrive} {v : NeVolume} {h : NameHistory} {p : CString} {cursor : Lba}
  {found : Option Found} {text : List Byte} {kind : BitVec 32} {s : Nat}

theorem matched_live {catalog : Image} (isLive : live catalog) :
    matched true cursor catalog = some ⟨cursor, catalog⟩ := by
  rw [matched, if_neg (by simp), if_pos isLive]

theorem matched_blank {catalog : Image} (blank : ¬ live catalog) : matched true cursor catalog = none := by
  rw [matched, if_neg (by simp), if_neg blank]

theorem Created.component {catalog : Image} (created : Created drive s text kind catalog)
    (kept : (baseOf text kind).length < kNeFSCatalogNameLen) :
    nameOf catalog <:+ p.text ↔ component p.text = some (baseOf text kind) := by
  rw [created.name, keptName, if_pos (by omega)]
  exact suffix_iff (baseOf_isComponent created.fits created.inner)

theorem Created.own {catalog : Image} (created : Created drive s p.text kind catalog) :
    nameOf catalog <:+ p.text := by
  rw [created.name, keptName]
  split
  · exact baseOf_suffix created.fits created.inner
  · exact List.nil_suffix

/-- A catalog with a name that does not end the path, as the path it was created for has it. -/
theorem passed_iff (created : AllCreated drive h) : Passed drive h p cursor ↔
    NameInside p (drive.input cursor h.volume) ∧ ¬ nameOf (drive.input cursor h.volume) <:+ p.text := by
  rw [Passed]
  cases isMade : h.made (drive.sectorOf cursor) with
  | none => exact Iff.rfl
  | some made =>
      obtain ⟨text, kind⟩ := made
      have record : Created drive (drive.sectorOf cursor) text kind (drive.input cursor h.volume) :=
        created _ text kind isMade
      constructor
      · rintro ⟨kept, short, other⟩
        rw [NameInside, record.component kept, record.name, keptName, if_pos (by omega)]
        exact ⟨⟨kept, short⟩, other⟩
      · rintro ⟨⟨kept, short⟩, other⟩
        by_cases fits : (baseOf text kind).length ≤ kNeFSCatalogNameLen
        · rw [record.name, keptName, if_pos fits] at kept short
          exact ⟨kept, short, fun same => other ((record.component kept).mpr same)⟩
        · rw [record.name, keptName, if_neg fits] at other
          exact absurd List.nil_suffix other

theorem Trail.walk (created : AllCreated drive h) (trail : Trail drive h p cursor) :
    ∃ found, Walk drive h.volume p cursor found ∧ Answers drive h p found := by
  induction trail with
  | passed scanned passed _ ih =>
      obtain ⟨found, walk, answers⟩ := ih
      obtain ⟨inside, other⟩ := (passed_iff created).mp passed
      exact ⟨found, .passes scanned inside other walk, answers⟩
  | @own cursor kind scanned isMade kept =>
      have record : Created drive (drive.sectorOf cursor) p.text kind (drive.input cursor h.volume) :=
        created _ p.text kind isMade
      have short := record.own.length_le
      refine ⟨_, .ends scanned ⟨?_, short⟩ record.own, ?_⟩
      · rw [record.name]
        exact kept
      · rw [matched_live record.isLive]
        exact ⟨kind, isMade⟩
  | blank scanned _ inside same blank unmade =>
      refine ⟨_, .ends scanned inside same, ?_⟩
      rw [matched_blank blank]
      exact unmade
  | ended scanned unmade => exact ⟨none, .outside scanned, unmade⟩

theorem Walk.trail (created : AllCreated drive h) (walk : Walk drive h.volume p cursor found)
    (answers : Answers drive h p found) : Trail drive h p cursor := by
  induction walk with
  | outside scanned => exact .ended scanned answers
  | @ends cursor scanned inside same =>
      by_cases isLive : live (drive.input cursor h.volume)
      · rw [matched_live isLive] at answers
        obtain ⟨kind, isMade⟩ := answers
        refine .own scanned isMade ?_
        rw [← (created _ p.text kind isMade).name]
        exact inside.1
      · rw [matched_blank isLive] at answers
        cases isMade : h.made (drive.sectorOf cursor) with
        | none => exact .blank scanned isMade inside same isLive answers
        | some made => exact absurd (created _ made.1 made.2 isMade).isLive isLive
  | passes scanned inside other _ ih => exact .passed scanned ((passed_iff created).mpr ⟨inside, other⟩) (ih answers)

end Trails

/-- On a volume that creations built, a path leads to the catalog created for it exactly if the chain
comes to that catalog past other components that are no longer than the path. -/
theorem resolves_iff_trail {drive : NeDrive} {v : NeVolume} {h : NameHistory} {calls : List CreateCall}
    (run : Run (Guarded (Stored drive) (NameStep drive)) ⟨v, fun _ => none⟩ calls h)
    (beside : Beside) (p : CString) : Resolves drive beside h p ↔
      p.text = [] ∨ Trail drive h p (NefsRootPartitionBlock.StartCatalog.get (drive.partition h.volume)) := by
  have created : AllCreated drive h :=
    run.invariant (fun _ _ _ created taken => step_created taken.1 created taken.2) (fun _ _ _ isMade => nomatch isMade)
  have anywhere (fuel : Nat) : findCatalog drive fuel beside p true false h.volume =
      findAnywhere drive fuel p true h.volume := if_neg fun local_ => Bool.false_ne_true local_.2.2
  by_cases empty : p.text = []
  · refine ⟨fun _ => .inl empty, fun _ => ⟨⟨0, none, ?_, ?_⟩, fun nonempty => absurd empty nonempty⟩⟩
    · rw [anywhere, findAnywhere, if_pos empty]
    · intro s kind isMade
      have inner := (created s _ kind isMade).inner
      rw [empty] at inner
      cases inner
  · constructor
    · rintro ⟨⟨fuel, found, ends, answers⟩, inside⟩
      rw [anywhere, findAnywhere, if_neg empty] at ends
      exact .inr ((scan_walk ends (inside empty)).trail created answers)
    · rintro (empty' | trail)
      · exact absurd empty' empty
      obtain ⟨found, walk, answers⟩ := trail.walk created
      obtain ⟨fuel, ends⟩ := walk.scan
      refine ⟨⟨fuel, found, ?_, answers⟩, fun _ => walk.inside⟩
      rw [anywhere, findAnywhere, if_neg empty]
      exact ends

/-! ## Two files of one name -/

def pathXA : CString := ⟨fun _ => 0, utf8 ['/', 'x', '/', 'a'], by decide⟩

def Slot.freeLba : Slot → Option Lba
  | .free lba _ => some lba
  | .present _ => none

/-- The prepared volume with the file `/a`, and what a lookup of `/x/a` then returns. -/
theorem prepared_named : ∃ h,
    Run (Guarded (Stored preparedDrive) (NameStep preparedDrive)) ⟨preparedVolume, fun _ => none⟩
      [⟨cleared, pathA, 0, kNeFSCatalogKindFile⟩] h ∧
    h.made (preparedDrive.sectorOf 2558) = some (pathA.text, kNeFSCatalogKindFile) ∧
    (findCatalog preparedDrive 2 cleared pathXA true false h.volume).map (·.map (·.lba)) = some (some 2558) := by
  have runs : ((findSlot preparedDrive 3 cleared pathA kNeFSCatalogKindFile preparedVolume).bind fun allocation =>
      (findCatalog preparedDrive 2 cleared pathXA true false
        (useSlot preparedDrive pathA.text 0 kNeFSCatalogKindFile preparedVolume allocation).2).map fun found =>
        (allocation.map fun allocation => allocation.slot.freeLba, found.map (·.lba))) =
      some (some (some 2558), some 2558) := by decide +kernel
  simp only [Option.bind_eq_some_iff, Option.map_eq_some_iff, Prod.mk.injEq] at runs
  obtain ⟨allocation, searched, found, looked, ⟨⟨outLba, slot⟩, rfl, shape⟩, lba⟩ := runs
  cases slot with
  | present catalog => cases shape
  | free slot old =>
      cases shape
      refine ⟨_, .single ⟨?_, .create searched⟩, ?_, ?_⟩
      · intro fuel outLba' slot' old' searched'
        cases findSlot_steady.unique searched searched'
        exact ⟨by decide, fun block => absurd block (by decide)⟩
      · simp
      · rw [looked]
        exact congrArg some (by simpa using lba)

theorem prepared_resolves_iff : ∃ h,
    Run (Guarded (Stored preparedDrive) (NameStep preparedDrive)) ⟨preparedVolume, fun _ => none⟩
      [⟨cleared, pathA, 0, kNeFSCatalogKindFile⟩] h ∧
    (Resolves preparedDrive cleared h pathXA ↔ pathXA.text = [] ∨ Trail preparedDrive h pathXA
      (NefsRootPartitionBlock.StartCatalog.get (preparedDrive.partition h.volume))) := by
  obtain ⟨h, run, -⟩ := prepared_named
  exact ⟨h, run, resolves_iff_trail run cleared pathXA⟩

/-- A lookup of `/x/a` returns the catalog of `/a`. -/
theorem other_directory_found : ∃ h found,
    Run (Guarded (Stored preparedDrive) (NameStep preparedDrive)) ⟨preparedVolume, fun _ => none⟩
      [⟨cleared, pathA, 0, kNeFSCatalogKindFile⟩] h ∧
    findCatalog preparedDrive 2 cleared pathXA true false h.volume = some (some found) ∧
    h.made (preparedDrive.sectorOf found.lba) = some (pathA.text, kNeFSCatalogKindFile) ∧
    ¬ Resolves preparedDrive cleared h pathXA := by
  obtain ⟨h, run, made, looked⟩ := prepared_named
  obtain ⟨found, ends, shape⟩ := Option.map_eq_some_iff.mp looked
  obtain ⟨found, rfl, lba⟩ := Option.map_eq_some_iff.mp shape
  rw [← lba] at made
  refine ⟨h, found, run, ends, made, ?_⟩
  rintro ⟨⟨fuel, found', ends', answers⟩, -⟩
  obtain rfl := findCatalog_steady.unique ends ends'
  obtain ⟨kind, isMade⟩ := answers
  rw [made, Option.some.injEq, Prod.mk.injEq] at isMade
  exact absurd isMade.1 (by decide)

end Ne.Kernel.FS
