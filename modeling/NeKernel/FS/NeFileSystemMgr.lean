import NeKernel.FS.NeCreation
import NeKernel.FS.NeForkChain
import NeKernel.Lib.Runs

/-!
# The NeFS file manager and the journal

A created catalog has forks of no size, no function of the manager changes a size, and the parser transfers no more
than the size. The journal creates a fork of its own, and after that nothing is found on the volume any more.
-/

namespace Ne.Kernel.FS
open ByteMem Loops Runs

def kNeFSCatalogKindAlias : BitVec 32 := 3
def kNeFSCatalogKindPage : BitVec 32 := 8
def kNeFSForkSize : Nat := NefsForkStruct.size
def kNeFSDataFork : List Byte := utf8 ['m', 'a', 'i', 'n', '_', 'd', 'a', 't', 'a']
def kFileFlagRsrc : BitVec 32 := 104

/-! ## The manager -/

/-- The kinds of nodes that the manager creates. -/
inductive NeNodeKind where
  | file
  | directory
  | alias
  | swapFile

def NeNodeKind.kind : NeNodeKind → BitVec 32
  | .file => kNeFSCatalogKindFile
  | .directory => kNeFSCatalogKindDir
  | .alias => kNeFSCatalogKindAlias
  | .swapFile => kNeFSCatalogKindPage

/-- The kinds as a catalog has them. -/
def kNodeKinds : List (BitVec 64) :=
  [kNeFSCatalogKindFile, kNeFSCatalogKindDir, kNeFSCatalogKindAlias, kNeFSCatalogKindPage].map (·.setWidth 64)

def isValidNefsCatalog (node : Option Image) : Bool :=
  match node with
  | none => false
  | some cat =>
      if cat 0 &&& 1 ≠ 0 then false
      else if NefsCatalogStruct.Kind.get cat ∉ kNodeKinds then false
      else 0 ∈ ByteMem.read cat NefsCatalogStruct.Name kNeFSCatalogNameLen

/-- The name in a catalog as a path. Before it lie the first byte of the catalog and the bytes of `before`. -/
def namePath (cat : Image) (before : Nat → Byte) : CString where
  behind := fun i => if i = 0 then cat 0 else before (i - 1)
  text := nameOf cat
  ended := fun _ => charsOf_ended

namespace NeFileSystemMgr

/-- `Create`, `CreateDirectory`, `CreateAlias` and `CreateSwapFile`. -/
def create (drive : NeDrive) (fuel : Nat) (beside : Beside) (kind : NeNodeKind) (path : Option CString)
    (v : NeVolume) : Option (Option Image × NeVolume) :=
  match path with
  | none => some (none, v)
  | some path => if path.text = [] then some (none, v) else createCatalog drive fuel beside path 0 kind.kind v

def remove (drive : NeDrive) (fuel : Nat) (beside : Beside) (path : Option CString) (v : NeVolume) :
    Option (Bool × NeVolume) :=
  match path with
  | none => some (false, v)
  | some path => if path.text = [] then some (false, v) else removeCatalog drive fuel beside path v

/-- `Open`. -/
def openNode (drive : NeDrive) (fuel : Nat) (beside : Beside) (path : Option CString) (r : Option (List Byte))
    (v : NeVolume) : Option (Option Image) :=
  match path, r with
  | some path, some r =>
      if path.text = [] ∨ r = [] then some none
      else (getCatalog drive fuel beside path v).map (·.map Found.catalog)
  | _, _ => some none

/-- `Write` of a fork. The bytes `before` lie before the node. -/
def writeFork (drive : NeDrive) (fuel : Nat) (beside : Beside) (before : Nat → Byte) (name : Option (List Byte))
    (node data : Option Image) (flags : BitVec 32) (size : SizeT) (v : NeVolume) : Option NeVolume :=
  if isValidNefsCatalog node = false then some v
  else match name, node, data with
    | some name, some cat, some data =>
        if name = [] then some v
        else if size = 0 ∨ kNeFSForkSize < size.toNat then some v
        else if NefsCatalogStruct.Kind.get cat = kNeFSCatalogKindFile.setWidth 64 then
          (writeCatalog drive fuel beside (namePath cat before) (flags &&& kFileFlagRsrc ≠ 0) data size name v).map
            Prod.snd
        else some v
    | _, _, _ => some v

/-- `Write`. -/
def write (drive : NeDrive) (fuel : Nat) (beside : Beside) (before : Nat → Byte) (node data : Option Image)
    (flags : BitVec 32) (size : SizeT) (v : NeVolume) : Option NeVolume :=
  if isValidNefsCatalog node = false then some v
  else if data.isNone then some v
  else if size = 0 ∨ kNeFSForkSize < size.toNat then some v
  else writeFork drive fuel beside before (some kNeFSDataFork) node data flags size v

/-- `Read` of a fork. -/
def readFork (drive : NeDrive) (fuel : Nat) (name : Option (List Byte)) (node : Option Image) (flags : BitVec 32)
    (sz : SizeT) (v : NeVolume) : Option (Option Image) :=
  if isValidNefsCatalog node = false then some none
  else match name, node with
    | some name, some cat =>
        if name = [] then some none
        else if sz = 0 ∨ kNeFSForkSize < sz.toNat then some none
        else if NefsCatalogStruct.Kind.get cat = kNeFSCatalogKindFile.setWidth 64 then
          readCatalog drive fuel (some cat) (flags &&& kFileFlagRsrc ≠ 0) sz name v
        else some none
    | _, _ => some none

/-- `Read`. -/
def read (drive : NeDrive) (fuel : Nat) (node : Option Image) (flags : BitVec 32) (sz : SizeT) (v : NeVolume) :
    Option (Option Image) :=
  if isValidNefsCatalog node = false then some none
  else if sz = 0 ∨ kNeFSForkSize < sz.toNat then some none
  else readFork drive fuel (some kNeFSDataFork) node flags sz v

end NeFileSystemMgr

/-! ## Sizes of forks -/

/-- The forks of a catalog in the sector have no size. -/
def Unsized (s : Image) : Prop :=
  NefsCatalogStruct.DataForkSize.get s = 0 ∧ NefsCatalogStruct.ResourceForkSize.get s = 0

def UnsizedVolume (v : NeVolume) : Prop := ∀ s, Unsized (v.sectors s)

section Sizes
variable {drive : NeDrive} {v : NeVolume} {s s' : Image} {f : Field} {lba : Lba} {size : Nat} {value : BitVec 64}

theorem SameSector.unsized (same : SameSector s s') (unsized : Unsized s) : Unsized s' :=
  ⟨(same.get (by decide)).trans unsized.1, (same.get (by decide)).trans unsized.2⟩

theorem Unsized.set (unsized : Unsized s) (data : NefsCatalogStruct.DataForkSize.Disjoint f)
    (resource : NefsCatalogStruct.ResourceForkSize.Disjoint f) : Unsized (f.set value s) :=
  ⟨(Field.get_set_other data).trans unsized.1, (Field.get_set_other resource).trans unsized.2⟩

theorem zeroed_unsized : Unsized zeroed := ⟨by decide +kernel, by decide +kernel⟩

theorem UnsizedVolume.output (unsized : UnsizedVolume v) (body : Unsized s) (full : kNeFSSectorSz ≤ size) :
    UnsizedVolume (drive.output lba size s v) := by
  intro i
  by_cases written : drive.fPacketReadOnly = false ∧ lba ≠ 0
  · by_cases here : i = drive.sectorOf lba
    · have same : SameSector s ((drive.output lba size s v).sectors i) := by
        intro x inside
        rw [here, output_byte written.1 written.2 full inside]
      exact same.unsized body
    · rw [output_other here]
      exact unsized i
  · rw [output_refused written]
    exact unsized i

theorem UnsizedVolume.input (unsized : UnsizedVolume v) (lba : Lba) : Unsized (drive.input lba v) := unsized _

theorem Unsized.congr (unsized : Unsized s)
    (same : ∀ x : BitVec 64, 467 ≤ x.toNat → x.toNat < 483 → s' x = s x) : Unsized s' := by
  constructor
  · exact (Field.get_congr fun x low high => same x low (high.trans_le (by decide))).trans unsized.1
  · refine (Field.get_congr fun x low high => ?_).trans unsized.2
    have bounds : 475 ≤ x.toNat ∧ x.toNat < 483 := ⟨low, high⟩
    exact same x (by omega) bounds.2

theorem write_before {off x : BitVec 64} {bytes : List Byte} (before : off.toNat + bytes.length ≤ x.toNat) :
    write s off bytes x = s x := by
  have bound := x.isLt
  apply write_outside
  rw [within_iff (by omega)]
  omega

theorem copyChars_before {off x : BitVec 64} {chars : List Byte} {room : Nat} (before : off.toNat + room ≤ x.toNat) :
    copyChars s off chars room x = s x := by
  unfold copyChars
  split
  next fits => exact write_before (by omega)
  next => exact write_before (by rwa [List.length_replicate])

theorem childCatalog_unsized {text : List Byte} {flags kind : BitVec 32} {outLba : Lba} :
    Unsized (childCatalog text flags kind outLba) := by
  unfold childCatalog
  refine Unsized.congr ?_ fun x low _ => copyChars_before (show 1 + 256 ≤ x.toNat by omega)
  have checked : Unsized (NefsCatalogStruct.Checksum.set 0 zeroed) := zeroed_unsized.set (by decide) (by decide)
  have bare : Unsized (NefsCatalogStruct.DataForkSize.set 0
      (NefsCatalogStruct.ResourceForkSize.set 0 (NefsCatalogStruct.Checksum.set 0 zeroed))) := by
    constructor
    · exact Field.get_set_full rfl
    · exact (Field.get_set_other (by decide)).trans (Field.get_set_full rfl)
  repeat apply Unsized.set _ (by decide) (by decide)
  exact bare

theorem placeChild_unsized {part child : Image} (unsized : Unsized child) :
    Unsized (placeChild drive part child lba) := by
  unfold placeChild
  repeat apply Unsized.set _ (by decide) (by decide)
  exact unsized

theorem countCreated_unsized (unsized : Unsized s) : Unsized (countCreated drive s) := by
  unfold countCreated
  repeat apply Unsized.set _ (by decide) (by decide)
  exact unsized

theorem countRemoved_unsized (unsized : Unsized s) : Unsized (countRemoved s) := by
  unfold countRemoved
  split
  · exact (unsized.set (by decide) (by decide)).set (by decide) (by decide)
  · exact unsized.set (by decide) (by decide)

end Sizes

end Ne.Kernel.FS
