import NeKernel.FS.FileTransfers

/-!
# File streams

`FileStream` over the OpenHeFS manager. What a stream may do is read from a table of modes, and a write
counts the bytes it was given. What reaches the drive is beside it.
-/

namespace Ne.Kernel.FS
open ByteMem
open HefsBootNode hiding size fChecksum

def kOpenHeFSFileKindRegular : BitVec 8 := 0
def kOpenHeFSSeparator : Byte := 0x2F

inductive FileMgrRestrict where
  | read
  | readBinary
  | write
  | fork
  | writeBinary
  | readWrite
  | readWriteFork
  | readWriteBinary
  | readWriteBinaryFork
  deriving DecidableEq

def kRestrictR : List Byte := utf8 ['r']
def kRestrictRB : List Byte := utf8 ['r', 'b']
def kRestrictW : List Byte := utf8 ['w']
def kRestrictWR : List Byte := utf8 ['r', 'w']
def kRestrictWRB : List Byte := utf8 ['r', 'w', 'b']

def kRestrictList : List (List Byte × FileMgrRestrict) :=
  [ (kRestrictR, .read),
    (kRestrictRB, .readBinary),
    (kRestrictWRB, .readWriteBinary),
    (kRestrictW, .write),
    (kRestrictWR, .readWrite) ]

/-- `rt_string_cmp` of two strings, which are followed by their NUL. -/
def rtStringCmp (src cmp : List Byte) : Nat → Int
  | 0 => 0
  | size + 1 =>
      if src.headD 0 ≠ cmp.headD 0 then (src.headD 0).toInt - (cmp.headD 0).toInt
      else rtStringCmp src.tail cmp.tail size

/-- The mode begins with an entry's text. -/
def restricts (mode : List Byte) (entry : List Byte × FileMgrRestrict) : Bool :=
  rtStringCmp mode entry.1 entry.1.length = 0

/-- The first entry counts. -/
def restrictOf (mode : List Byte) : FileMgrRestrict :=
  match kRestrictList.find? (restricts mode) with
  | some entry => entry.2
  | none => .readBinary

def FileMgrRestrict.writes (restrict : FileMgrRestrict) : Bool :=
  restrict = .readWrite ∨ restrict = .readWriteBinary ∨ restrict = .write ∨ restrict = .writeBinary

def FileMgrRestrict.reads (restrict : FileMgrRestrict) : Bool :=
  restrict = .readWrite ∨ restrict = .readWriteBinary ∨ restrict = .read ∨ restrict = .readBinary

/-! ## The manager -/

/-- `hefs_split_path`, of a path without its NUL. -/
def hefsSplitPath (path : List Byte) : Option (Path × Path) :=
  if path.head? ≠ some kOpenHeFSSeparator then none
  else if path.length < 2 ∨ path.length ≥ kOpenHeFSFileNameLen then none
  else
    let name := (path.reverse.takeWhile (· ≠ kOpenHeFSSeparator)).reverse
    let cut := path.length - name.length - 1
    if name.length < 1 then none
    else some (path.take (if cut = 0 then 1 else cut), name)

/-- `Open`. A null pointer is `none`. -/
def openNode (mnt : DriveTrait) (path mode : List Byte) (m : FileMgr) : Option HefsNodeDesc × FileMgr :=
  if path = [] then (none, m)
  else if mode = [] then (none, m)
  else match hefsSplitPath path with
    | none => (none, { m with errLocal := kErrorInvalidData })
    | some (dir, name) =>
        let (there, σ) := iNodeExists mnt dir name kOpenHeFSFileKindRegular m.mount
        if !there then (none, ⟨σ, kErrorFileNotFound⟩)
        else (some ⟨dir, name, 0, kOpenHeFSFileKindRegular⟩, ⟨σ, kErrorSuccess⟩)

/-- `Seek`. -/
def seekNode (node : Option HefsNodeDesc) (off : SizeT) (m : FileMgr) : Option HefsNodeDesc × FileMgr :=
  match node with
  | none => (none, m)
  | some desc =>
      if off ≥ kOpenHeFSBlockLen then (some desc, { m with errLocal := kErrorInvalidData })
      else (some { desc with fCursor := off }, m)

/-! ## The stream -/

structure FileStream where
  fFile : Option HefsNodeDesc
  fFileRestrict : FileMgrRestrict

/-- The overloads of `Write`: at an offset, or with a name. -/
inductive StreamCall where
  | offset (offset : UIntPtr)
  | name (name : Option Path)

/-- What a read returns. `MUST_PASS` of a null pointer stops the kernel. -/
inductive StreamRead where
  | error (code : Int)
  | panic
  | blob (blob : Image)

namespace FileStream

/-- The constructor. -/
def make (mnt : DriveTrait) (path mode : List Byte) (m : FileMgr) : FileStream × FileMgr :=
  let (node, m) := openNode mnt path mode m
  (⟨node, restrictOf mode⟩, m)

/-- `Write`, with the count that it returns. The manager is passed no flags. -/
def write (mnt : DriveTrait) (call : StreamCall) (data : Option Image) (len : SizeT) (stream : FileStream)
    (m : FileMgr) : SizeT × FileStream × FileMgr :=
  if stream.fFileRestrict.writes = false then (0, stream, m)
  else if data = none then (0, stream, m)
  else match call with
    | .offset offset =>
        let (node, m) := seekNode stream.fFile offset m
        match node with
        | none => (len, stream, m)
        | some desc =>
            let (desc, m) := writeNode mnt desc data len m
            (len, { stream with fFile := some desc }, m)
    | .name name => (len, stream, writeNamed mnt name data 0 len m)

/-- `Read` at an offset. -/
def read (mnt : DriveTrait) (offset : UIntPtr) (sz : SizeT) (stream : FileStream) (m : FileMgr) :
    StreamRead × FileMgr :=
  if stream.fFileRestrict.reads = false then (.error kErrorInvalidData, m)
  else if sz = 0 then (.error kErrorInvalidData, m)
  else
    let (node, m) := seekNode stream.fFile offset m
    match node with
    | none => (.panic, m)
    | some desc => match readNode mnt desc sz m with
      | (none, _, m) => (.panic, m)
      | (some blob, _, m) => (.blob blob, m)

end FileStream

/-! ## What is stored -/

/-- The bytes of the packet that `INodeManip` sent, if the drive took it. -/
def Manip.stored (mnt : DriveTrait) (done : Manip) : SizeT :=
  match done.issued with
  | none => 0
  | some packet => if mnt.fPacketReadOnly ∨ packet.fPacketLba = 0 then 0 else packet.fPacketSize

/-- The bytes that the manager's `Write` of a node stores. -/
def storedNode (mnt : DriveTrait) (node : Option HefsNodeDesc) (data : Image) (size : SizeT) (m : FileMgr) : SizeT :=
  match node with
  | none => 0
  | some desc =>
      if size = 0 ∨ size > kOpenHeFSBlockLen then 0
      else (iNodeManip mnt data size desc.fDir desc.fName desc.fKind false m.mount).stored mnt

/-- The bytes that a call of the stream stores. -/
def FileStream.stored (mnt : DriveTrait) (call : StreamCall) (data : Option Image) (len : SizeT) (stream : FileStream)
    (m : FileMgr) : SizeT :=
  match call, data with
  | .offset _, some data => if stream.fFileRestrict.writes then storedNode mnt stream.fFile data len m else 0
  | _, _ => 0

section Modes
variable {mode : List Byte}

theorem restricts_head {entry : List Byte × FileMgrRestrict} (differ : mode.headD 0 ≠ entry.1.headD 0)
    (text : entry.1 ≠ []) : restricts mode entry = false := by
  rw [restricts, decide_eq_false_iff_not]
  cases length : entry.1.length with
  | zero => exact absurd (List.length_eq_zero_iff.mp length) text
  | succ size =>
      rw [rtStringCmp, if_pos differ]
      intro zero
      exact differ (BitVec.eq_of_toInt_eq (by omega))

theorem restricts_single {c : Byte} {restrict : FileMgrRestrict} (same : mode.headD 0 = c) :
    restricts mode ([c], restrict) = true := by
  rw [restricts, decide_eq_true_eq]
  show rtStringCmp mode [c] 1 = 0
  have there : ¬ mode.headD 0 ≠ [c].headD 0 := not_not.mpr same
  rw [rtStringCmp, if_neg there, rtStringCmp]

theorem restrictOf_eq : restrictOf mode =
    if mode.headD 0 = 0x72 then .read else if mode.headD 0 = 0x77 then .write else .readBinary := by
  unfold restrictOf kRestrictList
  by_cases r : mode.headD 0 = 0x72
  · have hit : restricts mode (kRestrictR, .read) = true := restricts_single r
    rw [List.find?_cons_of_pos hit, if_pos r]
  · rw [List.find?_cons_of_neg (by rw [restricts_head r (by decide)]; decide),
      List.find?_cons_of_neg (by rw [restricts_head r (by decide)]; decide),
      List.find?_cons_of_neg (by rw [restricts_head r (by decide)]; decide), if_neg r]
    by_cases w : mode.headD 0 = 0x77
    · have hit : restricts mode (kRestrictW, .write) = true := restricts_single w
      rw [List.find?_cons_of_pos hit, if_pos w]
    · rw [List.find?_cons_of_neg (by rw [restricts_head w (by decide)]; decide),
        List.find?_cons_of_neg (by rw [restricts_head r (by decide)]; decide), List.find?_nil, if_neg w]

theorem restrictOf_writes : (restrictOf mode).writes = true ↔ mode.headD 0 = 0x77 := by
  rw [restrictOf_eq]
  split_ifs with r w
  · rw [r]
    decide
  · exact iff_of_true rfl w
  · exact iff_of_false (by decide) w

end Modes

section Stores
variable {mnt : DriveTrait} {σ : Mount} {m : FileMgr} {file : HefsFile} {data : Image} {size : SizeT} {lba : Lba}
  {stream : FileStream} {call : StreamCall}

theorem place_none : place σ.disk lba 0 data = σ.disk := by
  funext x
  exact place_outside (Nat.not_lt_zero _)

theorem hefsiFetchIn_disk {boot : Image} {dir name : Path} {kind : BitVec 8} :
    (hefsiFetchIn mnt boot dir name kind σ).2.disk = σ.disk := by
  unfold hefsiFetchIn
  split
  · rfl
  split
  · rfl
  split
  · rfl
  dsimp only
  split <;> exact completed_disk

theorem manip_kept (none : (file.manip mnt data size false σ).issued = none) :
    (file.manip mnt data size false σ).mount.disk = σ.disk := by
  have read : ioDrvInput mnt .boot mnt.fLbaStart σ = (bootAt mnt σ.disk, mnt.completed σ) := rfl
  rw [HefsFile.manip, iNodeManip] at none ⊢
  split
  · rfl
  rename_i dirFits
  rw [if_neg dirFits] at none
  split
  · rfl
  rename_i nameFits
  rw [if_neg nameFits] at none
  simp only [read] at none ⊢
  split
  · exact completed_disk
  rename_i valid
  rw [if_neg valid] at none
  have disk : (hefsiFetchIn mnt (bootAt mnt σ.disk) file.dir file.name file.kind (mnt.completed σ)).2.disk =
      (mnt.completed σ).disk := hefsiFetchIn_disk
  rw [completed_disk] at disk
  cases fetched : hefsiFetchIn mnt (bootAt mnt σ.disk) file.dir file.name file.kind (mnt.completed σ) with
  | mk result τ =>
      rw [fetched] at none disk
      cases result with
      | none => exact disk
      | some node =>
          dsimp only at none ⊢
          split
          · rename_i addressed
            rw [if_pos addressed, if_neg Bool.false_ne_true] at none
            rw [if_neg Bool.false_ne_true]
            split
            · exact disk
            · rename_i writes
              rw [if_neg writes] at none
              cases none
          · exact disk

theorem manip_stored (mnt : DriveTrait) (file : HefsFile) (data : Image) (size : SizeT) (σ : Mount) :
    ∃ lba, (file.manip mnt data size false σ).mount.disk =
      place σ.disk lba ((file.manip mnt data size false σ).stored mnt).toNat data := by
  by_cases held : ∃ node, Holds mnt σ file node
  · obtain ⟨node, held⟩ := held
    rw [held.manip]
    by_cases addressed : Addressed node
    · by_cases readOnly : ReadOnly node
      · refine ⟨0, ?_⟩
        simp only [addressed, readOnly, Manip.stored, if_true, Bool.false_eq_true, if_false, completed_disk]
        exact place_none.symm
      · refine ⟨offsetSlice node, ?_⟩
        have nonzero := offsetSlice_ne_zero addressed.1
        simp only [addressed, readOnly, Manip.stored, if_true, Bool.false_eq_true, if_false, nonzero, or_false]
        cases writable : mnt.fPacketReadOnly with
        | true =>
            rw [outputData_refused writable, completed_disk]
            exact place_none.symm
        | false => rw [outputData_disk writable nonzero, completed_disk]; rfl
    · refine ⟨0, ?_⟩
      simp only [addressed, Manip.stored, if_false, completed_disk]
      exact place_none.symm
  · have none : (file.manip mnt data size false σ).issued = none := by
      cases issued : (file.manip mnt data size false σ).issued with
      | none => rfl
      | some packet =>
          obtain ⟨node, holds, -⟩ := manip_issued issued
          exact absurd ⟨node, holds⟩ held
    refine ⟨0, ?_⟩
    rw [Manip.stored, none, manip_kept none]
    exact place_none.symm

theorem Holds.stored {node : Image} (held : Holds mnt σ file node) :
    (file.manip mnt data size false σ).stored mnt =
      if Addressed node ∧ ¬ ReadOnly node ∧ mnt.fPacketReadOnly = false then size else 0 := by
  rw [held.manip]
  by_cases addressed : Addressed node
  · have there : ¬ offsetSlice node = 0#64 := offsetSlice_ne_zero addressed.1
    by_cases readOnly : ReadOnly node
    · simp [addressed, readOnly, Manip.stored]
    · cases writable : mnt.fPacketReadOnly <;> simp [addressed, readOnly, Manip.stored, writable, there]
  · simp [addressed, Manip.stored]

/-- The manager stores all of the data, when there is a block for it and the drive takes it. -/
theorem manip_stores (nonzero : size ≠ 0) : (file.manip mnt data size false σ).stored mnt = size ↔
    mnt.fPacketReadOnly = false ∧ ∃ node, Holds mnt σ file node ∧ Addressed node ∧ ¬ ReadOnly node := by
  constructor
  · intro stored
    cases issued : (file.manip mnt data size false σ).issued with
    | none =>
        rw [Manip.stored, issued] at stored
        exact absurd stored.symm nonzero
    | some packet =>
        obtain ⟨node, held, -⟩ := manip_issued issued
        rw [held.stored] at stored
        split at stored
        · rename_i taken
          exact ⟨taken.2.2, node, held, taken.1, taken.2.1⟩
        · exact absurd stored.symm nonzero
  · rintro ⟨writable, node, held, addressed, writes⟩
    rw [held.stored, if_pos ⟨addressed, writes, writable⟩]

/-- The calls whose data can be stored. -/
def Storable (mnt : DriveTrait) (call : StreamCall) (len : SizeT) (stream : FileStream) (m : FileMgr) : Prop :=
  ∃ offset desc, call = .offset offset ∧ stream.fFile = some desc ∧ len ≤ kOpenHeFSBlockLen ∧
    mnt.fPacketReadOnly = false ∧
    ∃ node, Holds mnt m.mount ⟨desc.fDir, desc.fName, desc.fKind⟩ node ∧ Addressed node ∧ ¬ ReadOnly node

theorem storedNode_iff {node : Option HefsNodeDesc} (nonzero : size ≠ 0) : storedNode mnt node data size m = size ↔
    ∃ desc, node = some desc ∧ size ≤ kOpenHeFSBlockLen ∧ mnt.fPacketReadOnly = false ∧
      ∃ inode, Holds mnt m.mount ⟨desc.fDir, desc.fName, desc.fKind⟩ inode ∧ Addressed inode ∧ ¬ ReadOnly inode := by
  unfold storedNode
  cases node with
  | none =>
      refine iff_of_false (fun zero => nonzero zero.symm) ?_
      rintro ⟨desc, there, -⟩
      cases there
  | some desc =>
      simp only [Option.some.injEq, exists_eq_left']
      by_cases long : size > kOpenHeFSBlockLen
      · rw [if_pos (.inr long)]
        exact iff_of_false (fun zero => nonzero zero.symm) fun stored => absurd stored.1 (BitVec.not_le.mpr long)
      · rw [if_neg (not_or.mpr ⟨nonzero, long⟩), and_iff_right (BitVec.not_lt.mp long)]
        exact @manip_stores mnt _ ⟨desc.fDir, desc.fName, desc.fKind⟩ _ _ nonzero

theorem write_count {data : Option Image} : (stream.write mnt call data size m).1 =
    if stream.fFileRestrict.writes = true ∧ data ≠ none then size else 0 := by
  unfold FileStream.write
  by_cases writes : stream.fFileRestrict.writes = false
  · simp [writes]
  · by_cases null : data = none
    · simp [null]
    · rw [if_neg writes, if_neg null, if_pos ⟨by simpa using writes, null⟩]
      cases call with
      | name name => rfl
      | offset offset => dsimp only; split <;> rfl

theorem storedNode_zero {node : Option HefsNodeDesc} : storedNode mnt node data 0 m = 0 := by
  cases node with
  | none => rfl
  | some desc => rw [storedNode, if_pos (.inl rfl)]

theorem stored_refused {data : Option Image} (refuses : stream.fFileRestrict.writes = false) :
    stream.stored mnt call data size m = 0 := by
  cases call with
  | name name => rfl
  | offset offset =>
      cases data with
      | none => rfl
      | some data => exact if_neg (by simp [refuses])

theorem stored_offset {offset : UIntPtr} (writes : stream.fFileRestrict.writes = true) :
    stream.stored mnt (.offset offset) (some data) size m = storedNode mnt stream.fFile data size m := if_pos writes

/-- The count is of the bytes that are stored exactly when none are asked for or all can be stored. -/
theorem write_count_iff {data : Option Image} :
    (stream.write mnt call data size m).1 = stream.stored mnt call data size m ↔
      stream.fFileRestrict.writes = false ∨ data = none ∨ size = 0 ∨ Storable mnt call size stream m := by
  rw [write_count]
  by_cases refuses : stream.fFileRestrict.writes = false
  · rw [stored_refused refuses, if_neg (by simp [refuses])]
    exact iff_of_true rfl (Or.inl refuses)
  have writes : stream.fFileRestrict.writes = true := by simpa using refuses
  cases data with
  | none =>
      rw [if_neg (by simp)]
      refine iff_of_true ?_ (.inr (.inl rfl))
      cases call <;> rfl
  | some data =>
      rw [if_pos ⟨writes, Option.some_ne_none data⟩, or_iff_right refuses, or_iff_right (Option.some_ne_none data)]
      by_cases empty : size = 0
      · refine iff_of_true ?_ (.inl empty)
        rw [empty]
        cases call with
        | name name => rfl
        | offset offset => exact ((stored_offset writes).trans storedNode_zero).symm
      · rw [or_iff_right empty]
        cases call with
        | name name =>
            refine iff_of_false empty ?_
            rintro ⟨offset, desc, named, -⟩
            cases named
        | offset offset =>
            rw [stored_offset writes, eq_comm, storedNode_iff empty]
            constructor
            · rintro ⟨desc, stores⟩
              exact ⟨offset, desc, rfl, stores⟩
            · rintro ⟨_, desc, -, stores⟩
              exact ⟨desc, stores⟩

theorem writeNode_disk (mnt : DriveTrait) (desc : HefsNodeDesc) (data : Image) (size : SizeT) (m : FileMgr) :
    ∃ lba, (writeNode mnt desc (some data) size m).2.mount.disk =
      place m.mount.disk lba (storedNode mnt (some desc) data size m).toNat data := by
  unfold writeNode storedNode
  dsimp only
  by_cases empty : size = 0
  · rw [if_pos empty, if_pos (.inl empty)]
    exact ⟨0, place_none.symm⟩
  · by_cases long : size > kOpenHeFSBlockLen
    · rw [if_neg empty, if_pos long, if_pos (.inr long)]
      exact ⟨0, place_none.symm⟩
    · rw [if_neg empty, if_neg long, if_neg (not_or.mpr ⟨empty, long⟩)]
      obtain ⟨lba, stored⟩ := manip_stored mnt ⟨desc.fDir, desc.fName, desc.fKind⟩ data size m.mount
      refine ⟨lba, ?_⟩
      split <;> exact stored

theorem write_disk (stream : FileStream) (call : StreamCall) (data : Image) (m : FileMgr) :
    ∃ lba, (stream.write mnt call (some data) size m).2.2.mount.disk =
      place m.mount.disk lba (stream.stored mnt call (some data) size m).toNat data := by
  unfold FileStream.write
  by_cases refuses : stream.fFileRestrict.writes = false
  · rw [if_pos refuses, stored_refused refuses]
    exact ⟨0, place_none.symm⟩
  rw [if_neg refuses, if_neg (Option.some_ne_none data)]
  cases call with
  | name name => exact ⟨0, place_none.symm⟩
  | offset offset =>
      rw [stored_offset (by simpa using refuses)]
      cases stream.fFile with
      | none => exact ⟨0, place_none.symm⟩
      | some desc =>
          by_cases far : offset ≥ kOpenHeFSBlockLen
          · simp only [seekNode, if_pos far]
            exact writeNode_disk mnt desc data size { m with errLocal := kErrorInvalidData }
          · simp only [seekNode, if_neg far]
            exact writeNode_disk mnt { desc with fCursor := offset } data size m

end Stores

end Ne.Kernel.FS
