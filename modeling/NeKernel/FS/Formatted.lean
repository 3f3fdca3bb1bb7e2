import NeKernel.FS.BootNode
import NeKernel.Lib.Runs

/-!
# Formatted volumes

`Format` stores a boot node, creates the default directories on top of it, and does not look at what
became of them.
-/

namespace Ne.Kernel.FS
open ByteMem Strides Runs
open HefsBootNode hiding size fChecksum
open HefsIndexNodeDirectory hiding size fChecksum

theorem output_bootAt {mnt : DriveTrait} (writable : mnt.fPacketReadOnly = false) (nonzero : mnt.fLbaStart ≠ 0)
    (body : Image) (σ : Mount) :
    bootAt mnt (ioDrvOutput mnt .boot mnt.fLbaStart body σ).disk = window body 0 HefsBootNode.size := by
  rw [ioDrvOutput_taken writable nonzero, completed_disk]
  exact window_place_same

def defaultCalls : List FsCall := kFileMap.map fun dir => .directory kOpenHeFSEncodingFlagsUTF8 dir false

def formatHeader (mnt : DriveTrait) (flags : BitVec 32) (volName : Path) (σ : Mount) : Mount :=
  ioDrvOutput mnt .boot mnt.fLbaStart (sealBoot (formatBoot mnt flags volName (bootAt mnt σ.disk)))
    (mnt.completed σ)

section Format
variable {mnt : DriveTrait} {flags : BitVec 32} {volName : Path} {boot : Image} {σ σ' τ : Mount}

theorem createDefaults_run {dirs : List Path} (created : createDefaults mnt dirs σ = some τ) :
    Run (FsStep mnt) σ (dirs.map fun dir => .directory kOpenHeFSEncodingFlagsUTF8 dir false) τ := by
  induction dirs generalizing σ with
  | nil =>
      cases created
      exact .nil _
  | cons dir rest ih =>
      unfold createDefaults at created
      split at created
      · cases created
      · rename_i r σ' taken
        exact .cons ⟨r, taken⟩ (ih created)

theorem heFormat_cases (blank : bootValid (bootAt mnt σ.disk) = false)
    (formatted : heFormat mnt flags volName σ = some (true, σ')) :
    mnt.fPacketReadOnly = false ∧ mnt.fLbaStart ≠ 0 ∧ ∃ τ,
      createDefaults mnt kFileMap (formatHeader mnt flags volName σ) = some τ ∧
      σ' = { τ with errGlobal := kErrorSuccess } := by
  unfold heFormat at formatted
  split at formatted
  · cases formatted
  rw [ioDrvInput_boot] at formatted
  dsimp only at formatted
  rw [blank, if_neg Bool.false_ne_true] at formatted
  split at formatted
  · cases formatted
  split at formatted
  · cases formatted
  split at formatted
  · cases formatted
  by_cases refused : mnt.fPacketReadOnly = true ∨ mnt.fLbaStart = 0
  · rw [ioDrvOutput_refused refused] at formatted
    cases formatted
  · obtain ⟨writable, nonzero⟩ := not_or.mp refused
    refine ⟨Bool.eq_false_iff.mpr writable, nonzero, ?_⟩
    split at formatted
    · cases formatted
    · split at formatted
      · cases formatted
      · rename_i τ created
        obtain ⟨-, rfl⟩ := Prod.ext_iff.mp (Option.some.inj formatted)
        exact ⟨τ, created, rfl⟩

theorem checksumGood_unset (unset : HefsBootNode.fChecksum.get boot = 0) : checksumGood boot = true :=
  decide_eq_true (.inr unset)

theorem heFormat_blank (good : σ.fPacketGood = true) (blank : bootValid (bootAt mnt σ.disk) = false)
    (sum : checksumGood (bootAt mnt σ.disk) = true) (order : mnt.fLbaStart ≤ mnt.fLbaEnd)
    (sectors : mnt.fSectorSz ≠ 0) (writable : mnt.fPacketReadOnly = false) (nonzero : mnt.fLbaStart ≠ 0)
    (created : createDefaults mnt kFileMap (formatHeader mnt flags volName σ) = some τ) :
    heFormat mnt flags volName σ = some (true, { τ with errGlobal := kErrorSuccess }) := by
  have kept : (formatHeader mnt flags volName σ).fPacketGood = true := by
    rw [formatHeader, ioDrvOutput_taken writable nonzero, completed_good]
    exact completed_good.trans good
  unfold formatHeader at kept created
  unfold heFormat
  rw [good, ioDrvInput_boot]
  dsimp only
  rw [blank, sum, if_neg (by decide), if_neg (by decide), if_neg (by decide), if_neg (BitVec.not_lt.mpr order),
    if_neg sectors, kept, if_neg (by decide), created]

theorem formatBoot_magic (ninth : boot 8 = 0) :
    read (formatBoot mnt flags volName boot) fMagic (kOpenHeFSMagic.length + 1) = kOpenHeFSMagic ++ [0] := by
  simp (disch := decide) only [formatBoot, magic_set]
  have short : kOpenHeFSMagic.length ≤ 2 ^ 64 := by decide
  have front : ¬ Within fVolName ((volName ++ [0]).take (HefsBootNode.size - 9)).length 8 := by
    intro inside
    have bound := inside.mono (List.length_take_le _ _)
    exact absurd bound (by decide)
  have behind : ¬ Within fMagic kOpenHeFSMagic.length 8 := by decide
  have last (s : Image) : read s (fMagic + BitVec.ofNat 64 kOpenHeFSMagic.length) 1 = [s 8] := rfl
  rw [read_add, read_write_same short, last, write_outside behind, write_outside front, ninth]

theorem formatBoot_valid (ninth : boot 8 = 0) : bootValid (formatBoot mnt flags volName boot) = true := by
  unfold bootValid
  rw [formatBoot_magic ninth]
  simp (disch := decide) only [formatBoot, Field.get_set_other, Field.get_set_same]
  decide

theorem formatBoot_sane (valid : bootValid (formatBoot mnt flags volName boot) = true) :
    BootSane mnt (formatBoot mnt flags volName boot) := by
  have inodes := indEnd_toNat mnt
  have blocks := inEnd_toNat mnt
  constructor
  · exact valid
  · simp (disch := decide) only [formatBoot, Field.get_set_other, Field.get_set_full]
    rfl
  · simp (disch := decide) only [formatBoot, Field.get_set_other, Field.get_set_full]
    rfl
  · simp (disch := decide) only [formatBoot, Field.get_set_other, Field.get_set_full]
    rfl
  · simp (disch := decide) only [formatBoot, Field.get_set_other, Field.get_set_full]
  · simp (disch := decide) only [formatBoot, Field.get_set_other, Field.get_set_full]
    exact le_rfl
  · simp (disch := decide) only [formatBoot, Field.get_set_other, Field.get_set_full]
    change (indEnd mnt).toNat ≤ _
    omega
  · simp (disch := decide) only [formatBoot, Field.get_set_other, Field.get_set_full]
    exact le_rfl

theorem header_boot (writable : mnt.fPacketReadOnly = false) (nonzero : mnt.fLbaStart ≠ 0) :
    bootAt mnt (formatHeader mnt flags volName σ).disk =
      window (sealBoot (formatBoot mnt flags volName (bootAt mnt σ.disk))) 0 HefsBootNode.size :=
  output_bootAt writable nonzero _ _

theorem bootAt_ninth (ninth : σ.disk (mnt.fLbaStart + 8) = 0) : bootAt mnt σ.disk 8 = 0 := by
  rw [bootAt, window, if_pos (by decide), ninth]

/-- The volume `Format` leaves before its default directories, when it is one at all. -/
theorem header_sane (writable : mnt.fPacketReadOnly = false) (nonzero : mnt.fLbaStart ≠ 0)
    (valid : bootValid (bootAt mnt (formatHeader mnt flags volName σ).disk) = true) :
    BootSane mnt (bootAt mnt (formatHeader mnt flags volName σ).disk) := by
  rw [header_boot writable nonzero] at valid ⊢
  rw [bootValid_trim, sealBoot, bootValid_set (by decide) (by decide)] at valid
  exact (formatBoot_sane valid).sealed.trim

theorem header_valid (writable : mnt.fPacketReadOnly = false) (nonzero : mnt.fLbaStart ≠ 0)
    (ninth : σ.disk (mnt.fLbaStart + 8) = 0) :
    bootValid (bootAt mnt (formatHeader mnt flags volName σ).disk) = true := by
  rw [header_boot writable nonzero, bootValid_trim, sealBoot, bootValid_set (by decide) (by decide)]
  exact formatBoot_valid (bootAt_ninth ninth)

theorem run_idle {calls : List FsCall} (invalid : bootValid (bootAt mnt σ.disk) = false)
    (run : Run (FsStep mnt) σ calls σ') : σ'.disk = σ.disk ∧ σ'.written = σ.written := by
  induction run with
  | nil => exact ⟨rfl, rfl⟩
  | cons head _ ih =>
      obtain ⟨r, taken⟩ := head
      obtain ⟨disk, written⟩ := run_invalid invalid taken
      obtain ⟨disk', written'⟩ := ih (by rwa [disk])
      exact ⟨disk'.trans disk, written'.trans written⟩

end Format

/-! ## A volume without a free directory node -/

section Full
variable {mnt : DriveTrait} {boot : Image} {σ τ : Mount}

def NoneFree (mnt : DriveTrait) (disk : Memory) : Prop :=
  (indScan (bootAt mnt disk)).find? (fun start => indMatches [] false (directoryAt disk start)) = none

theorem indMatches_create (dir : Path) : indMatches dir false = indMatches [] false := by
  funext tmpdir
  simp [indMatches]

theorem create_full {flags : BitVec 32} {dir : Path} (sane : BootSane mnt (bootAt mnt σ.disk))
    (full : NoneFree mnt σ.disk) (named : dir.length ≤ kOpenHeFSFileNameLen ∧ dir ≠ kOpenHeFSSearchAllStr) :
    createINodeDirectory mnt flags dir σ = some (false, { mnt.completed σ with errGlobal := kErrorDisk }) := by
  have behind : mnt.fLbaStart < fStartIND.get (bootAt mnt σ.disk) := by
    have first := indStart_toNat mnt
    rw [sane.startIND, BitVec.lt_def]
    omega
  have search : (indScan (bootAt mnt σ.disk)).find? (fun start =>
      indMatches dir false (directoryAt σ.disk start)) = none := by
    rw [indMatches_create]
    exact full
  unfold createINodeDirectory iNodeDirectoryCtlManip
  rw [if_neg (Nat.not_lt.mpr named.1), ioDrvInput_boot]
  dsimp only
  rw [sane.valid, if_neg (by decide), if_neg named.2, hefsiUpdateIndStatus, if_pos behind]
  dsimp only
  rw [completed_disk, completed_disk, search, completed_completed]

theorem createDefaults_full {dir : Path} {rest : List Path} (sane : BootSane mnt (bootAt mnt σ.disk))
    (full : NoneFree mnt σ.disk)
    (named : ∀ d ∈ dir :: rest, d.length ≤ kOpenHeFSFileNameLen ∧ d ≠ kOpenHeFSSearchAllStr) :
    createDefaults mnt (dir :: rest) σ = some { mnt.completed σ with errGlobal := kErrorDisk } := by
  induction rest generalizing dir σ with
  | nil =>
      rw [createDefaults, create_full sane full (named dir (by simp))]
      rfl
  | cons next rest ih =>
      have same : ({ mnt.completed σ with errGlobal := kErrorDisk } : Mount).disk = σ.disk := completed_disk
      have again : ({ mnt.completed { mnt.completed σ with errGlobal := kErrorDisk } with
          errGlobal := kErrorDisk } : Mount) = { mnt.completed σ with errGlobal := kErrorDisk } := by
        unfold DriveTrait.completed
        split <;> rfl
      rw [createDefaults, create_full sane full (named dir (by simp))]
      exact (ih (by rwa [same]) (by rwa [same]) fun d member => named d (by simp [member])).trans (congrArg some again)

theorem kFileMap_named : ∀ dir ∈ kFileMap, dir.length ≤ kOpenHeFSFileNameLen ∧ dir ≠ kOpenHeFSSearchAllStr := by
  decide

theorem format_full {flags : BitVec 32} {volName : Path} (good : σ.fPacketGood = true)
    (blank : bootValid (bootAt mnt σ.disk) = false) (sum : checksumGood (bootAt mnt σ.disk) = true)
    (order : mnt.fLbaStart ≤ mnt.fLbaEnd) (sectors : mnt.fSectorSz ≠ 0) (writable : mnt.fPacketReadOnly = false)
    (nonzero : mnt.fLbaStart ≠ 0) (sane : BootSane mnt (bootAt mnt (formatHeader mnt flags volName σ).disk))
    (full : NoneFree mnt (formatHeader mnt flags volName σ).disk) : heFormat mnt flags volName σ =
      some (true, { mnt.completed (formatHeader mnt flags volName σ) with errGlobal := kErrorSuccess }) := by
  have formatted := heFormat_blank good blank sum order sectors writable nonzero
    (createDefaults_full sane full kFileMap_named)
  exact formatted

theorem update_full {flags : BitVec 32} {dir : Path} (full : NoneFree mnt σ.disk) :
    FsCall.update mnt σ (.directory flags dir false) = none := by
  have search : (indScan (bootAt mnt σ.disk)).find? (fun start =>
      indMatches dir false (directoryAt σ.disk start)) = none := by
    rw [indMatches_create]
    exact full
  unfold FsCall.update
  dsimp only
  rw [search, Option.map_none]

theorem defaults_full {guard : FsCall → Mount → Prop} (sane : BootSane mnt (bootAt mnt σ.disk))
    (full : NoneFree mnt σ.disk) (holds : ∀ τ, ∀ dir ∈ kFileMap, NoneFree mnt τ.disk →
      guard (.directory kOpenHeFSEncodingFlagsUTF8 dir false) τ) :
    AllSteps (FsStep mnt) guard σ defaultCalls := by
  intro before call after split τ run
  have default (call : FsCall) (member : call ∈ defaultCalls) :
      ∃ dir ∈ kFileMap, .directory kOpenHeFSEncodingFlagsUTF8 dir false = call := List.mem_map.mp member
  have kept : ∀ l ∈ before, ∀ s t, s.disk = σ.disk → FsStep mnt l s t → t.disk = σ.disk := by
    intro l member s t inv step
    obtain ⟨dir, named, rfl⟩ := default l (by simp [split, member])
    obtain ⟨r, taken⟩ := step
    rw [FsCall.run] at taken
    have failed : createINodeDirectory mnt kOpenHeFSEncodingFlagsUTF8 dir s = _ :=
      create_full (by rwa [inv]) (by rwa [inv]) (kFileMap_named dir named)
    obtain ⟨-, rfl⟩ := Prod.ext_iff.mp (Option.some.inj (failed.symm.trans taken))
    exact completed_disk.trans inv
  have same : τ.disk = σ.disk := run.invariant_of_mem kept rfl
  obtain ⟨dir, named, rfl⟩ := default call (by simp [split])
  exact holds τ dir named (by rwa [same])

theorem indScan_single (short : fStartIND.get boot + kNodeSize > fEndIND.get boot) :
    indScan boot = [fStartIND.get boot] := by
  have rounds : kNodeMax = (kNodeMax - 1) + 1 := by decide
  rw [indScan, rounds, scan]
  simp [short]

end Full

/-! A drive of five sectors, with room for one directory node, and `/a` still there from before. -/

def fullDrive : DriveTrait where
  fKind := 0
  fLbaStart := 1024
  fLbaEnd := 1024
  fSectorSz := 512
  fPacketReadOnly := false
  sectorCount := 5
  ahci := false
  start_lt := by decide
  sectors_lt := by decide

def fullDirectory : Image := fCreated.set 1 (fHashPath.set (hefsiHash64 (utf8 ['/', 'a'])) zeroed)

def fullMount : Mount :=
  ⟨place (fun _ => 0) 1537 HefsIndexNodeDirectory.size fullDirectory, true, kErrorSuccess, []⟩

theorem fullDrive_sane :
    BootSane fullDrive (bootAt fullDrive (formatHeader fullDrive 0 [] fullMount).disk) :=
  header_sane rfl (by decide) (header_valid rfl (by decide) (by decide))

theorem fullDrive_full : NoneFree fullDrive (formatHeader fullDrive 0 [] fullMount).disk := by
  have regions : indStart fullDrive = 1537 ∧ indEnd fullDrive = 1537 := by decide
  rw [NoneFree, indScan_single, fullDrive_sane.startIND, regions.1]
  · decide +kernel
  · rw [fullDrive_sane.startIND, fullDrive_sane.endIND, regions.1, regions.2]
    decide

theorem fullDrive_formatted : ∃ σ, heFormat fullDrive 0 [] fullMount = some (true, σ) ∧
    σ.disk = (formatHeader fullDrive 0 [] fullMount).disk :=
  ⟨_, format_full rfl (by decide +kernel) (checksumGood_unset (by decide +kernel)) (by decide) (by decide) rfl
    (by decide) fullDrive_sane fullDrive_full, completed_disk⟩

/-- The full volume is formatted all the same, and takes no directory. -/
theorem fullDrive_refuses {dir : Path} (named : dir.length ≤ kOpenHeFSFileNameLen ∧ dir ≠ kOpenHeFSSearchAllStr) :
    ∃ σ₁ σ, heFormat fullDrive 0 [] fullMount = some (true, σ₁) ∧ NoneFree fullDrive σ₁.disk ∧
      FsStep fullDrive (.directory 0 dir false) σ₁ σ := by
  obtain ⟨σ₁, formatted, same⟩ := fullDrive_formatted
  have sane : BootSane fullDrive (bootAt fullDrive σ₁.disk) := by
    rw [same]
    exact fullDrive_sane
  have full : NoneFree fullDrive σ₁.disk := by
    rw [same]
    exact fullDrive_full
  exact ⟨σ₁, _, formatted, full, false, create_full sane full named⟩

end Ne.Kernel.FS
