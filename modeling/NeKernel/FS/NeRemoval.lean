import NeKernel.FS.NeForks

/-!
# Removal of a catalog

`kNeFSFlagDeleted` shares bits with `kNeFSFlagCreated`, so a catalog that was marked as deleted still
passes the test for a created one, and the lookup that found it before its removal finds it again.
-/

namespace Ne.Kernel.FS
open ByteMem Loops

/-! ## Flags -/

section Flags
variable {f : Field} {s : Image} {x : BitVec 64}

theorem clear_high (flags : BitVec 64) : (flags &&& ~~~ kNeFSFlagCreated) >>> 8 = flags >>> 8 := by
  have mask : (~~~ kNeFSFlagCreated) >>> 8 = BitVec.allOnes 64 >>> 8 := by decide
  rw [BitVec.ushiftRight_and_distrib, mask, ← BitVec.ushiftRight_and_distrib, BitVec.and_allOnes]

theorem deleted_high (flags : BitVec 64) : (flags ||| kNeFSFlagDeleted) >>> 8 = flags >>> 8 := by
  have mask : kNeFSFlagDeleted >>> 8 = 0#64 := by decide
  rw [BitVec.ushiftRight_or_distrib, mask, BitVec.or_zero]

theorem markDeleted_other (other : x ≠ BitVec.ofNat 64 f.off) : markDeleted f s x = s x := by
  rw [markDeleted, Field.set_low (deleted_high _) other, Field.set_low (clear_high _) other]

theorem set_live {flags mark : BitVec 64} (shared : mark.getLsbD 1 = true) :
    live (NefsCatalogStruct.Flags.set (flags ||| mark) s) := by
  have width : 256 ^ NefsCatalogStruct.Flags.size = 2 ^ 16 := by decide
  intro none
  have bit := congrArg (fun flags : BitVec 64 => flags.getLsbD 1) none
  rw [BitVec.getLsbD_and, Field.get_set_same, width, BitVec.getLsbD_ofNat, Nat.testBit_mod_two_pow,
    BitVec.testBit_toNat, BitVec.getLsbD_or, shared] at bit
  simp [kNeFSFlagCreated] at bit

theorem markDeleted_live (s : Image) : live (markDeleted NefsCatalogStruct.Flags s) := set_live (by decide)

end Flags

/-! ## Transfers -/

section Transfers
variable {drive : NeDrive} {v v' : NeVolume} {lba : Lba} {size : Nat} {body : Image} {s : Nat}
  {x : BitVec 64}

theorem output_taken (writable : drive.fPacketReadOnly = false) (nonzero : lba ≠ 0) :
    (drive.output lba size body v).fPacketGood = v.fPacketGood := by
  rw [NeDrive.output, if_neg (by simp [writable]), if_neg nonzero]

theorem output_other (other : s ≠ drive.sectorOf lba) :
    (drive.output lba size body v).sectors s = v.sectors s := by
  rw [NeDrive.output]
  split
  · rfl
  · split
    · rfl
    · exact if_neg other

theorem output_byte (writable : drive.fPacketReadOnly = false) (nonzero : lba ≠ 0)
    (full : kNeFSSectorSz ≤ size) (inside : x.toNat < kNeFSSectorSz) :
    (drive.output lba size body v).sectors (drive.sectorOf lba) x = body x := by
  rw [NeDrive.output, if_neg (by simp [writable]), if_neg nonzero]
  have filled : place (v.sectors (drive.sectorOf lba)) 0#64 (min size kNeFSSectorSz) body (0#64 + x) = body x :=
    place_inside x (lt_of_lt_of_eq inside (Nat.min_eq_right full).symm)
  rw [BitVec.zero_add] at filled
  simpa using filled

end Transfers

/-! ## Catalogs linked from the first one -/

inductive Linked (drive : NeDrive) (v : NeVolume) : Lba → Prop
  | first : Linked drive v (NefsRootPartitionBlock.StartCatalog.get (drive.partition v))
  | next {lba : Lba} : Linked drive v lba →
      NefsRootPartitionBlock.StartCatalog.get (drive.partition v) ≤ lba →
      Linked drive v (NefsCatalogStruct.NextSibling.get (drive.input lba v))

/-- A volume that is mounted for writing, whose catalogs have names that end in their array, and before
the counters where a catalog shares the sector of the partition block. -/
structure WellLinked (drive : NeDrive) (v : NeVolume) : Prop where
  writable : drive.fPacketReadOnly = false
  nonzero {lba : Lba} : Linked drive v lba →
    NefsRootPartitionBlock.StartCatalog.get (drive.partition v) ≤ lba → lba ≠ 0
  named {lba : Lba} : Linked drive v lba →
    NefsRootPartitionBlock.StartCatalog.get (drive.partition v) ≤ lba →
    (nameOf (drive.input lba v)).length ≤ kNeFSCatalogNameLen
  clear {lba : Lba} : Linked drive v lba →
    NefsRootPartitionBlock.StartCatalog.get (drive.partition v) ≤ lba →
    drive.sectorOf lba = drive.sectorOf kNeFSRootCatalogStartAddress →
    (nameOf (drive.input lba v)).length + 1 < NefsRootPartitionBlock.CatalogCount.off

section Lookup
variable {drive : NeDrive} {v : NeVolume} {fuel : Nat} {beside : Beside} {name : CString}
  {hidden localSearch : Bool} {start : Lba} {found : Found}

/-- What a lookup finds is read from the volume. -/
structure Finds (drive : NeDrive) (v : NeVolume) (found : Found) : Prop where
  linked : Linked drive v found.lba
  above : NefsRootPartitionBlock.StartCatalog.get (drive.partition v) ≤ found.lba
  catalog : found.catalog = drive.input found.lba v
  isLive : live found.catalog

theorem scanFrom_finds (linked : Linked drive v start)
    (ends : scanFrom drive fuel v name hidden start = some (some found)) : Finds drive v found := by
  refine loop_invariant (I := Linked drive v) (Q := fun result => ∀ found, result = some found →
    Finds drive v found) ?_ ?_ linked ends found rfl
  · intro cursor next linked turn
    obtain ⟨above, rfl⟩ := scanRound_again turn
    exact linked.next above
  · rintro cursor result linked turn found rfl
    obtain ⟨above, rfl, isLive⟩ := scanRound_found turn
    exact ⟨linked, above, rfl, isLive⟩

theorem findAnywhere_finds (ends : findAnywhere drive fuel name hidden v = some (some found)) :
    Finds drive v found := by
  rw [findAnywhere] at ends
  split at ends
  · cases ends
  · exact scanFrom_finds .first ends

theorem findCatalog_finds
    (ends : findCatalog drive fuel beside name hidden localSearch v = some (some found)) :
    Finds drive v found := by
  rw [findCatalog] at ends
  split at ends
  · rw [findBelow] at ends
    split at ends
    · cases ends
    split at ends
    · cases ends
    cases split : name.parent beside.stack with
    | none => simp [split] at ends
    | some parentName =>
        simp only [split, Option.bind_eq_bind, Option.bind_eq_some_iff] at ends
        obtain ⟨parentCatalog, search, ends⟩ := ends
        cases parentCatalog with
        | none => exact findAnywhere_finds ends
        | some parentCatalog =>
            simp only [Option.bind_eq_some_iff] at ends
            obtain ⟨below, scan, ends⟩ := ends
            cases below with
            | none => exact findAnywhere_finds ends
            | some below =>
                cases ends
                have above := findAnywhere_finds search
                rw [above.catalog] at scan
                exact scanFrom_finds (above.linked.next above.above) scan
  · exact findAnywhere_finds ends

end Lookup

/-! ## Lookups in volumes that resemble each other -/

/-- Catalogs that a lookup of hidden ones treats the same way. -/
structure Alike (s s' : Image) : Prop where
  name : nameOf s' = nameOf s
  next : NefsCatalogStruct.NextSibling.get s' = NefsCatalogStruct.NextSibling.get s
  isLive : live s' ↔ live s

structure Resembles (drive : NeDrive) (v v' : NeVolume) : Prop where
  start : NefsRootPartitionBlock.StartCatalog.get (drive.partition v') =
    NefsRootPartitionBlock.StartCatalog.get (drive.partition v)
  good : v'.fPacketGood = v.fPacketGood
  alike {lba : Lba} : Linked drive v lba →
    NefsRootPartitionBlock.StartCatalog.get (drive.partition v) ≤ lba →
    Alike (drive.input lba v) (drive.input lba v')

/-- Lookups that find nothing both, or catalogs with the same sibling. -/
def Agree (found found' : Option Found) : Prop :=
  found'.map (fun f => NefsCatalogStruct.NextSibling.get f.catalog) =
    found.map (fun f => NefsCatalogStruct.NextSibling.get f.catalog)

section Again
variable {drive : NeDrive} {v v' : NeVolume} {fuel : Nat} {beside : Beside} {name : CString}
  {localSearch : Bool} {start cursor : Lba} {found : Option Found} {s s' : Image}

theorem nameOf_congr {n : Nat} (same : ∀ x : BitVec 64, 0 < x.toNat → x.toNat < n → s' x = s x)
    (short : (nameOf s).length + 1 < n) (inside : n ≤ kNeFSSectorSz) : nameOf s' = nameOf s := by
  have sector : kNeFSSectorSz = 512 := rfl
  have front : read s' 1 (n - 1) = read s 1 (n - 1) := by
    refine read_congr (by omega) fun x within => ?_
    have low : (1 : BitVec 64).toNat = 1 := rfl
    rw [within_iff (by omega)] at within
    exact same x (by omega) (by omega)
  have split (s : Image) : nameOf s =
      (read s 1 (n - 1) ++ read s (1 + BitVec.ofNat 64 (n - 1)) (512 - n)).takeWhile (· ≠ 0) := by
    rw [← read_add, show n - 1 + (512 - n) = 511 by omega]
    rfl
  have stops : ((read s 1 (n - 1)).takeWhile (· ≠ 0)).length ≠ (read s 1 (n - 1)).length := by
    intro full
    rw [split, List.takeWhile_append, if_pos full, List.length_append, read_length] at short
    omega
  rw [split s', split s, front, List.takeWhile_append, List.takeWhile_append, if_neg stops, if_neg stops]

theorem matched_alike (alike : Alike s s') : Agree (matched true cursor s) (matched true cursor s') := by
  by_cases isLive : live s
  · simp [Agree, matched, isLive, alike.isLive.mpr isLive, alike.next]
  · simp [Agree, matched, isLive, mt alike.isLive.mp isLive]

theorem scanFrom_again (same : Resembles drive v v') (linked : Linked drive v start)
    (ends : scanFrom drive fuel v name true start = some found) :
    ∃ found', scanFrom drive fuel v' name true start = some found' ∧ Agree found found' := by
  apply loop_simulation (P := fun cursor cursor' => cursor = cursor' ∧ Linked drive v cursor) _
    ⟨rfl, linked⟩ ends
  rintro cursor _ ⟨rfl, linked⟩
  rw [scanRound, scanRound, same.start, same.good]
  by_cases inside : NefsRootPartitionBlock.StartCatalog.get (drive.partition v) ≤ cursor ∧ v.fPacketGood
  · have alike := same.alike linked inside.1
    rw [if_pos inside, if_pos inside]
    simp only [alike.name]
    cases name.endsWith (nameOf (drive.input cursor v)) with
    | true => exact matched_alike alike
    | false => exact ⟨alike.next.symm, linked.next inside.1⟩
  · rw [if_neg inside, if_neg inside]
    rfl

theorem findAnywhere_again (same : Resembles drive v v')
    (ends : findAnywhere drive fuel name true v = some found) :
    ∃ found', findAnywhere drive fuel name true v' = some found' ∧ Agree found found' := by
  rw [findAnywhere] at ends ⊢
  by_cases empty : name.text = []
  · rw [if_pos empty] at ends ⊢
    cases ends
    exact ⟨none, rfl, rfl⟩
  · rw [if_neg empty] at ends ⊢
    rw [same.start]
    exact scanFrom_again same .first ends

theorem Agree.isSome {found' : Option Found} (agree : Agree found found') :
    found'.isSome = found.isSome := by
  simpa using congrArg Option.isSome agree

theorem findCatalog_again (same : Resembles drive v v') {before : Found}
    (ends : findCatalog drive fuel beside name true localSearch v = some (some before)) :
    ∃ after, findCatalog drive fuel beside name true localSearch v' = some (some after) := by
  have anywhere (ends : findAnywhere drive fuel name true v = some (some before)) :
      ∃ after, findAnywhere drive fuel name true v' = some (some after) := by
    obtain ⟨found', ends', agree⟩ := findAnywhere_again same ends
    obtain ⟨after, rfl⟩ := Option.isSome_iff_exists.mp agree.isSome
    exact ⟨after, ends'⟩
  rw [findCatalog] at ends ⊢
  split at ends
  · rename_i searched
    rw [if_pos searched]
    rw [findBelow] at ends ⊢
    split at ends
    · cases ends
    rename_i room
    rw [if_neg room]
    split at ends
    · cases ends
    rename_i copied
    rw [if_neg copied]
    cases split : name.parent beside.stack with
    | none => simp [split] at ends
    | some parentName =>
        simp only [split, Option.bind_eq_bind, Option.bind_eq_some_iff] at ends
        obtain ⟨parentCatalog, search, ends⟩ := ends
        obtain ⟨parentCatalog', search', agree⟩ := findAnywhere_again same search
        simp only [Option.bind_eq_bind, search', Option.bind_some]
        cases parentCatalog with
        | none =>
            obtain rfl : parentCatalog' = none := by simpa [Agree] using agree
            exact anywhere ends
        | some parentCatalog =>
            obtain ⟨parentCatalog', rfl⟩ := Option.isSome_iff_exists.mp agree.isSome
            simp only [Option.bind_eq_some_iff] at ends
            obtain ⟨below, scan, ends⟩ := ends
            have next : NefsCatalogStruct.NextSibling.get parentCatalog'.catalog =
                NefsCatalogStruct.NextSibling.get parentCatalog.catalog := by simpa [Agree] using agree
            have above := findAnywhere_finds search
            have linked : Linked drive v (NefsCatalogStruct.NextSibling.get parentCatalog.catalog) := by
              rw [above.catalog]
              exact above.linked.next above.above
            obtain ⟨below', scan', agree'⟩ := scanFrom_again same linked scan
            rw [← next] at scan'
            simp only [scan', Option.bind_some]
            cases below with
            | none =>
                obtain rfl : below' = none := by simpa [Agree] using agree'
                exact anywhere ends
            | some below =>
                obtain ⟨below', rfl⟩ := Option.isSome_iff_exists.mp agree'.isSome
                exact ⟨below', rfl⟩
  · rename_i notSearched
    rw [if_neg notSearched]
    exact anywhere ends

end Again

/-! ## What a removal leaves -/

section Removal
variable {drive : NeDrive} {v v' v₂ : NeVolume} {fuel : Nat} {beside : Beside} {name : CString}
  {found : Found} {lba : Lba}

/-- Marking forks as deleted changes the first byte of their flags. In a catalog that is the last byte
of its type. -/
structure ForksMarked (v v' : NeVolume) : Prop where
  good : v'.fPacketGood = v.fPacketGood
  bytes (s : Nat) (x : BitVec 64) : x.toNat < kNeFSSectorSz → x.toNat ≠ 456 →
    v'.sectors s x = v.sectors s x

theorem forks_marked (writable : drive.fPacketReadOnly = false)
    (ends : loop (forkRound drive) fuel (lba, v) = some v') : ForksMarked v v' := by
  refine loop_invariant (I := fun here => ForksMarked v here.2) (Q := ForksMarked v) ?_ ?_
    ⟨rfl, fun _ _ _ _ => rfl⟩ ends
  · rintro ⟨cursor, w⟩ ⟨next, w'⟩ marked turn
    rw [forkRound] at turn
    split at turn
    · rename_i above
      cases turn
      have nonzero : cursor ≠ 0 := by
        rintro rfl
        exact absurd above (by decide)
      refine ⟨(output_taken writable nonzero).trans marked.good, fun s x inside other => ?_⟩
      by_cases here : s = drive.sectorOf cursor
      · subst here
        have place : x ≠ BitVec.ofNat 64 NefsForkStruct.Flags.off := by
          rintro rfl
          exact other rfl
        dsimp only
        rw [output_byte writable nonzero (by decide) inside, markDeleted_other place]
        exact marked.bytes _ x inside other
      · dsimp only
        rw [output_other here]
        exact marked.bytes s x inside other
    · cases turn
  · rintro ⟨cursor, w⟩ w' marked turn
    rw [forkRound] at turn
    split at turn
    · cases turn
    · cases turn
      exact marked

theorem ForksMarked.trans {v₁ : NeVolume} (first : ForksMarked v v₁) (second : ForksMarked v₁ v₂) :
    ForksMarked v v₂ :=
  ⟨second.good.trans first.good, fun s x inside other =>
    (second.bytes s x inside other).trans (first.bytes s x inside other)⟩

theorem removeCatalog_cases
    (removed : removeCatalog drive fuel beside name v = some (true, v')) :
    ∃ found v₁ v₂, findCatalog drive fuel beside name true true v = some (some found) ∧
      loop (forkRound drive) fuel (NefsCatalogStruct.DataFork.get found.catalog, v) = some v₁ ∧
      loop (forkRound drive) fuel (NefsCatalogStruct.ResourceFork.get found.catalog, v₁) = some v₂ ∧
      v' = markRemoved drive found v₂ := by
  rw [removeCatalog] at removed
  split at removed
  · cases removed
  simp only [Option.bind_eq_bind, Option.bind_eq_some_iff] at removed
  obtain ⟨catalog, search, removed⟩ := removed
  cases catalog with
  | none => cases removed
  | some found =>
      simp only [Option.bind_eq_some_iff] at removed
      obtain ⟨v₁, data, v₂, resource, removed⟩ := removed
      split at removed
      · cases removed
        exact ⟨found, v₁, v₂, search, data, resource, rfl⟩
      · cases removed

theorem countRemoved_other {part : Image} {x : BitVec 64}
    (outside : x.toNat < NefsRootPartitionBlock.CatalogCount.off ∨
      NefsRootPartitionBlock.FreeSectors.off + NefsRootPartitionBlock.FreeSectors.size ≤ x.toNat) :
    countRemoved part x = part x := by
  have count : NefsRootPartitionBlock.CatalogCount.off = 56 ∧
    NefsRootPartitionBlock.CatalogCount.size = 8 := ⟨rfl, rfl⟩
  have sectors : NefsRootPartitionBlock.FreeSectors.off = 80 ∧
    NefsRootPartitionBlock.FreeSectors.size = 8 := ⟨rfl, rfl⟩
  rw [countRemoved, Field.set_outside (by omega)]
  split
  · exact Field.set_outside (by omega)
  · rfl

/-- The sectors after the removal of a catalog, the counters of the partition block apart. -/
theorem markRemoved_byte (writable : drive.fPacketReadOnly = false) (nonzero : found.lba ≠ 0)
    {s : Nat} {x : BitVec 64} (inside : x.toNat < kNeFSSectorSz)
    (off : s = drive.sectorOf kNeFSRootCatalogStartAddress →
      x.toNat < NefsRootPartitionBlock.CatalogCount.off ∨
        NefsRootPartitionBlock.FreeSectors.off + NefsRootPartitionBlock.FreeSectors.size ≤ x.toNat) :
    (markRemoved drive found v).sectors s x =
      if s = drive.sectorOf found.lba then markDeleted NefsCatalogStruct.Flags found.catalog x
      else v.sectors s x := by
  have first : (drive.output found.lba NefsCatalogStruct.size
      (markDeleted NefsCatalogStruct.Flags found.catalog) v).sectors s x =
        if s = drive.sectorOf found.lba then markDeleted NefsCatalogStruct.Flags found.catalog x
        else v.sectors s x := by
    by_cases here : s = drive.sectorOf found.lba
    · rw [if_pos here, here, output_byte writable nonzero (by decide) inside]
    · rw [if_neg here, output_other here]
  rw [markRemoved, ← first]
  by_cases block : s = drive.sectorOf kNeFSRootCatalogStartAddress
  · rw [block, output_byte writable (by decide) (by decide) inside, countRemoved_other (off block)]
    rfl
  · rw [output_other block]

theorem removed_resembles (linked : WellLinked drive v) (finds : Finds drive v found)
    (forks : ForksMarked v v₂) : Resembles drive v (markRemoved drive found v₂) := by
  have writable := linked.writable
  have nonzero := linked.nonzero finds.linked finds.above
  have sector : kNeFSSectorSz = 512 := rfl
  have count : NefsRootPartitionBlock.CatalogCount.off = 56 := rfl
  have counted : NefsRootPartitionBlock.FreeSectors.off + NefsRootPartitionBlock.FreeSectors.size = 88 := rfl
  have bytes {lba : Lba} {x : BitVec 64} (inside : x.toNat < kNeFSSectorSz) (notMime : x.toNat ≠ 456)
      (notFlags : x.toNat ≠ 457)
      (off : drive.sectorOf lba = drive.sectorOf kNeFSRootCatalogStartAddress →
        x.toNat < 56 ∨ 88 ≤ x.toNat) :
      drive.input lba (markRemoved drive found v₂) x = drive.input lba v x := by
    rw [NeDrive.input, markRemoved_byte writable nonzero inside (by rwa [count, counted])]
    split
    · rename_i here
      have other : x ≠ BitVec.ofNat 64 NefsCatalogStruct.Flags.off := by
        rintro rfl
        exact notFlags rfl
      rw [markDeleted_other other, finds.catalog, NeDrive.input, NeDrive.input, here]
    · exact forks.bytes _ x inside notMime
  constructor
  · have field : NefsRootPartitionBlock.StartCatalog.off + NefsRootPartitionBlock.StartCatalog.size = 56 := rfl
    refine Field.get_congr fun x _ high => ?_
    exact bytes (by omega) (by omega) (by omega) fun _ => .inl (by omega)
  · rw [markRemoved, output_taken writable (by decide), output_taken writable nonzero, forks.good]
  · intro lba link above
    have room : kNeFSCatalogNameLen = 256 := rfl
    have named := linked.named link above
    constructor
    · by_cases block : drive.sectorOf lba = drive.sectorOf kNeFSRootCatalogStartAddress
      · exact nameOf_congr (fun x _ high => bytes (by omega) (by omega) (by omega) fun _ => .inl high)
          (linked.clear link above block) (by omega)
      · exact nameOf_congr (n := 300)
          (fun x _ high => bytes (by omega) (by omega) (by omega) fun here => absurd here block)
          (by omega) (by omega)
    · have field : NefsCatalogStruct.NextSibling.off + NefsCatalogStruct.NextSibling.size = 507 := rfl
      have base : NefsCatalogStruct.NextSibling.off = 499 := rfl
      exact Field.get_congr fun x low high => bytes (by omega) (by omega) (by omega) fun _ => .inr (by omega)
    · have field : NefsCatalogStruct.Flags.off + NefsCatalogStruct.Flags.size = 459 := rfl
      have base : NefsCatalogStruct.Flags.off = 457 := rfl
      by_cases here : drive.sectorOf lba = drive.sectorOf found.lba
      · have flags : NefsCatalogStruct.Flags.get (drive.input lba (markRemoved drive found v₂)) =
            NefsCatalogStruct.Flags.get (markDeleted NefsCatalogStruct.Flags found.catalog) := by
          refine Field.get_congr fun x low high => ?_
          rw [NeDrive.input, markRemoved_byte writable nonzero (by omega) fun _ => .inr (by omega),
            if_pos here]
        have before : live (drive.input lba v) := by
          have same : drive.input lba v = found.catalog := by
            rw [finds.catalog, NeDrive.input, NeDrive.input, here]
          rw [same]
          exact finds.isLive
        refine iff_of_true ?_ before
        rw [live, flags]
        exact markDeleted_live found.catalog
      · have flags : NefsCatalogStruct.Flags.get (drive.input lba (markRemoved drive found v₂)) =
            NefsCatalogStruct.Flags.get (drive.input lba v) := by
          refine Field.get_congr fun x low high => ?_
          rw [NeDrive.input, markRemoved_byte writable nonzero (by omega) fun _ => .inr (by omega),
            if_neg here]
          exact forks.bytes _ x (by omega) (by omega)
        rw [live, live, flags]

/-- `GetCatalog` of the path is null. -/
def Gone (drive : NeDrive) (name : CString) (v : NeVolume) : Prop :=
  ∀ beside fuel found, getCatalog drive fuel beside name v = some found → found = none

/-- `CreateCatalog` of the path succeeds where there is a parent for it and a free slot behind. -/
def Recreates (drive : NeDrive) (name : CString) (v : NeVolume) : Prop :=
  ∀ beside fuel flags kind parentName parentCatalog slot old, endFits name.text kind →
    name.parent beside.heap = some parentName →
    findCatalog drive fuel beside parentName true false v = some (some parentCatalog) →
    NefsCatalogStruct.Kind.get parentCatalog.catalog ≠ kNeFSCatalogKindFile.setWidth 64 →
    ¬ NefsRootPartitionBlock.FreeCatalog.get (drive.partition v) < 1 →
    loop (slotRound drive v (drive.partition v) name.text) fuel parentCatalog.lba =
      some (some (.free slot old)) →
    ∃ fuel catalog v', createCatalog drive fuel beside name flags kind v = some (some catalog, v')

theorem removed_found (linked : WellLinked drive v)
    (removed : removeCatalog drive fuel beside name v = some (true, v')) :
    ∃ after, getCatalog drive fuel beside name v' = some (some after) := by
  obtain ⟨found, v₁, v₂, search, data, resource, rfl⟩ := removeCatalog_cases removed
  have forks := (forks_marked linked.writable data).trans (forks_marked linked.writable resource)
  exact findCatalog_again (removed_resembles linked (findCatalog_finds search) forks) search

/-- A catalog outlives its removal. -/
theorem removed_not_gone (linked : WellLinked drive v)
    (removed : removeCatalog drive fuel beside name v = some (true, v')) :
    ¬ (Gone drive name v' ∧ Recreates drive name v') := by
  rintro ⟨gone, -⟩
  obtain ⟨after, present⟩ := removed_found linked removed
  cases gone _ _ _ present

end Removal

/-! ## A removal on the prepared volume -/

def preparedFile : NeVolume :=
  ((createCatalog preparedDrive 2 cleared pathA 0 kNeFSCatalogKindFile preparedVolume).map
    (·.2)).getD preparedVolume

theorem preparedFile_links {lba : Lba} (linked : Linked preparedDrive preparedFile lba) :
    lba = 2558 ∨ lba = 2560 ∨ lba = 0 := by
  induction linked with
  | first => exact .inl (by decide +kernel)
  | next _ above ih =>
      rcases ih with rfl | rfl | rfl
      · exact .inr (.inl (by decide +kernel))
      · exact .inr (.inr (by decide +kernel))
      · exact absurd above (by decide +kernel)

theorem preparedFile_wellLinked : WellLinked preparedDrive preparedFile := by
  have above {lba : Lba} (linked : Linked preparedDrive preparedFile lba)
      (high : NefsRootPartitionBlock.StartCatalog.get (preparedDrive.partition preparedFile) ≤ lba) :
      lba = 2558 ∨ lba = 2560 := by
    rcases preparedFile_links linked with first | second | rfl
    · exact .inl first
    · exact .inr second
    · exact absurd high (by decide +kernel)
  constructor
  · rfl
  · intro lba linked high
    rcases above linked high with rfl | rfl <;> decide
  · intro lba linked high
    rcases above linked high with rfl | rfl <;> decide +kernel
  · intro lba linked high
    rcases above linked high with rfl | rfl <;> decide

theorem preparedFile_removed : ∃ v' found, ∃ v'',
    removeCatalog preparedDrive 3 cleared pathA preparedFile = some (true, v') ∧
      getCatalog preparedDrive 3 cleared pathA v' = some (some found) ∧
      createCatalog preparedDrive 3 cleared pathA 0 kNeFSCatalogKindFile v' = some (none, v'') := by
  have runs : ((removeCatalog preparedDrive 3 cleared pathA preparedFile).bind fun removed =>
      (getCatalog preparedDrive 3 cleared pathA removed.2).bind fun found =>
        (createCatalog preparedDrive 3 cleared pathA 0 kNeFSCatalogKindFile removed.2).map
          fun created => (removed.1, found.isSome, created.1.isNone)) = some (true, true, true) := by
    decide +kernel
  simp only [Option.bind_eq_some_iff, Option.map_eq_some_iff, Prod.mk.injEq,
    Option.isNone_iff_eq_none] at runs
  obtain ⟨⟨removed, v'⟩, ends, found, search, ⟨created, v''⟩, again, rfl, present, rfl⟩ := runs
  obtain ⟨found, rfl⟩ := Option.isSome_iff_exists.mp present
  exact ⟨v', found, v'', ends, search, again⟩

theorem prepared_removed_not_gone : ∃ v',
    removeCatalog preparedDrive 3 cleared pathA preparedFile = some (true, v') ∧
      ¬ (Gone preparedDrive pathA v' ∧ Recreates preparedDrive pathA v') := by
  have runs : (removeCatalog preparedDrive 3 cleared pathA preparedFile).map (·.1) = some true := by
    decide +kernel
  obtain ⟨⟨removed, v'⟩, ends, rfl⟩ := Option.map_eq_some_iff.mp runs
  exact ⟨v', ends, removed_not_gone preparedFile_wellLinked ends⟩

end Ne.Kernel.FS
