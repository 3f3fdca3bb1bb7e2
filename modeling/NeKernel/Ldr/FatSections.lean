import NeKernel.Ldr.SectionLoads

/-!
# The sections of a fat container

A fat container has sections for several processors under one name. The search takes the first header with the name
and the kind, whichever processor it is for, and its checks are the last word on the lookup.
-/

namespace Ne.Kernel.Ldr
open ByteMem Access HAL

/-- The tests of the search that pass over a header. -/
structure Selects (sectName : List Byte) (kind : BitVec 32) (hdr : Image) : Prop where
  kind : (PEFCommandHeader.Kind.get hdr).setWidth 32 = kind
  name : pefNameEq (read hdr PEFCommandHeader.Name kPefNameLen) (some sectName) = true

instance (sectName : List Byte) (kind : BitVec 32) (hdr : Image) : Decidable (Selects sectName kind hdr) :=
  decidable_of_iff (_ ∧ _) ⟨fun ⟨ofKind, named⟩ => ⟨ofKind, named⟩, fun ⟨ofKind, named⟩ => ⟨ofKind, named⟩⟩

section Table
variable (m : Memory) (blob : UIntPtr) (len : SizeT) (name : List Byte) (kind : BitVec 32) (k : Nat)

def headerAt : Image := window m (blob + BitVec.ofNat 64 (64 + k * 304)) 304

def sectionCount : Nat := (PEFContainer.Count.on m blob).toNat

/-- The magic of the container is the one for several processors. -/
def isFatAt : Bool := pefMagicEq (read (window m blob PEFContainer.size) PEFContainer.Magic kPefMagicLen) kPefMagicFat

/-- The `k`th header has the requested name and kind. -/
def Requested : Prop := ∃ sectName, pefMakeName kind name = some sectName ∧ Selects sectName kind (headerAt m blob k)

/-- The `k`th header is that of a valid section, requested and for the processor that runs. -/
structure RunningSection : Prop where
  listed : k < sectionCount m blob
  requested : Requested m blob name kind k
  cpu : PEFCommandHeader.Cpu.get (headerAt m blob k) = ldrGetPlatform
  bounds : SectionBounds len.toNat (64 + sectionCount m blob * 304) (headerAt m blob k)

structure FatContainer : Prop where
  fat : (PEFLoader.make m blob len).val.fFatBinary = true
  read : (pefReadContainer m blob len).val.isSome = true

/-- `FindSymbol` finds a section of the processor that runs, and loads its content. -/
def LoadsRunning : Prop := ∃ k, RunningSection m blob len name kind k ∧
  (PEFLoader.make m blob len).val.foundHeader m (some name) kind = some (headerAt m blob k) ∧
  0 < contentSize (headerAt m blob k) ∧
  ∀ root σ, ((PEFLoader.make m blob len).val.findSymbol root m (some name) kind σ).val =
    (pefLoadSection root m (headerAt m blob k) (blob + PEFCommandHeader.Offset.get (headerAt m blob k)) σ).val

/-- The first header of the table with the requested name and kind is that of such a section with content. -/
def FirstRunning : Prop := ∃ k, RunningSection m blob len name kind k ∧ 0 < contentSize (headerAt m blob k) ∧
  ∀ j < k, ¬ Requested m blob name kind j

end Table

section First
variable {m : Memory} {blob : UIntPtr} {len tableSz i : SizeT} {isFat : Bool} {sectName : List Byte}
  {kind : BitVec 32} {k left : Nat}

theorem pefFindFrom_first (few : i.toNat + left ≤ 64) (low : i.toNat ≤ k) (high : k < i.toNat + left)
    (hit : Selects sectName kind (headerAt m blob k))
    (misses : ∀ j, i.toNat ≤ j → j < k → ¬ Selects sectName kind (headerAt m blob j)) :
    (pefFindFrom m blob len tableSz isFat (some sectName) kind left i).val =
      if (pefCheckSection len tableSz isFat (headerAt m blob k)).val then some (headerAt m blob k) else none := by
  induction left generalizing i with
  | zero => omega
  | succ left ih =>
      have next := header_next (i := i) (by omega)
      have here : window m (blob + BitVec.ofNat 64 PEFContainer.size + i * BitVec.ofNat 64 PEFCommandHeader.size)
          PEFCommandHeader.size = headerAt m blob i.toNat := by
        unfold headerAt
        rw [← header_address]
        rfl
      rw [pefFindFrom]
      simp only [Traced.val_ite, Traced.val_pure, Traced.val_bind, fetch_val, mulWord_val, here]
      rcases Nat.eq_or_lt_of_le low with rfl | above
      · rw [if_neg (not_not.mpr hit.kind), if_neg (by rw [hit.name]; decide)]
      · have later := ih (i := i + 1) (by omega) (by omega) (by omega) fun j lowJ => misses j (by omega)
        have miss := misses i.toNat le_rfl above
        by_cases other : (PEFCommandHeader.Kind.get (headerAt m blob i.toNat)).setWidth 32 ≠ kind
        · rwa [if_pos other]
        rw [if_neg other]
        by_cases unlike : pefNameEq (read (headerAt m blob i.toNat) PEFCommandHeader.Name kPefNameLen)
            (some sectName) = false
        · rwa [if_pos unlike]
        exact absurd ⟨not_not.mp other, by simpa using unlike⟩ miss

theorem pefFindSection_first (read : (pefReadContainer m blob len).val.isSome = true) (listed : k < sectionCount m blob)
    (hit : Selects sectName kind (headerAt m blob k))
    (misses : ∀ j < k, ¬ Selects sectName kind (headerAt m blob j)) :
    ∃ tableSz : SizeT, tableSz.toNat = sectionCount m blob * 304 ∧ 64 + tableSz.toNat < 2 ^ 64 ∧
      (pefFindSection m blob len (some sectName) kind).val =
        if (pefCheckSection len tableSz (isFatAt m blob) (headerAt m blob k)).val then some (headerAt m blob k)
        else none := by
  obtain ⟨container, there⟩ := Option.isSome_iff_exists.mp read
  obtain ⟨rfl, -, few, -⟩ := pefReadContainer_some there
  have size := table_size few
  have count := congrArg BitVec.toNat (PEFContainer.Count.get_window (m := m) (a := blob)
    (n := PEFContainer.size) (by decide))
  have zero : (0 : SizeT).toNat = 0 := rfl
  simp only [pefFindSection, Traced.val_bind, there, mulWord_val]
  refine ⟨_, size.trans (congrArg (· * 304) count), by omega, pefFindFrom_first ?_ ?_ ?_ hit fun j _ => misses j⟩
  · rwa [zero, Nat.zero_add]
  · rw [zero]
    exact Nat.zero_le k
  · rwa [zero, Nat.zero_add, count]

end First

section Lookup
variable {m : Memory} {blob : UIntPtr} {len : SizeT} {name : List Byte} {kind : BitVec 32} {k : Nat}

theorem FatContainer.make (container : FatContainer m blob len) :
    blob ≠ 0 ∧ (PEFLoader.make m blob len).val = ⟨blob, len, true, false⟩ := by
  have fat := container.fat
  unfold PEFLoader.make at fat ⊢
  simp only [Traced.val_ite, Traced.val_pure, Traced.val_bind] at fat ⊢
  split_ifs at fat ⊢ <;> first | exact ⟨‹_›, rfl⟩ | exact absurd fat Bool.false_ne_true

theorem FatContainer.foundHeader (container : FatContainer m blob len) :
    (PEFLoader.make m blob len).val.foundHeader m (some name) kind = match pefMakeName kind name with
      | none => none
      | some sectName => (pefFindSection m blob len (some sectName) kind).val := by
  obtain ⟨null, made⟩ := container.make
  obtain ⟨_, there⟩ := Option.isSome_iff_exists.mp container.read
  obtain ⟨-, -, -, room⟩ := pefReadContainer_some there
  have long : len ≠ 0 := by
    rintro rfl
    exact absurd room (by simp)
  rw [made]
  unfold PEFLoader.foundHeader
  dsimp only
  refine (if_neg (by simpa using null)).trans ((if_neg long).trans ?_)
  cases pefMakeName kind name <;> rfl

/-- The first requested header is found if it is that of a running section, and no other header is. -/
theorem FatContainer.first (container : FatContainer m blob len) (listed : k < sectionCount m blob)
    (requested : Requested m blob name kind k) (misses : ∀ j < k, ¬ Requested m blob name kind j) :
    (RunningSection m blob len name kind k →
      (PEFLoader.make m blob len).val.foundHeader m (some name) kind = some (headerAt m blob k)) ∧
    ∀ hdr, (PEFLoader.make m blob len).val.foundHeader m (some name) kind = some hdr → hdr = headerAt m blob k := by
  obtain ⟨sectName, made, hit⟩ := requested
  obtain ⟨tableSz, size, table, found⟩ := pefFindSection_first container.read listed hit
    fun j below selects => misses j below ⟨sectName, made, selects⟩
  rw [container.foundHeader, made]
  dsimp only
  rw [found]
  refine ⟨fun running => if_pos ((pefCheckSection_iff table).mpr ⟨.inl running.cpu, ?_⟩), fun hdr taken => ?_⟩
  · rw [size]
    exact running.bounds
  · split at taken
    · exact (Option.some.inj taken).symm
    · cases taken

theorem RunningSection.of_same {j : Nat} (running : RunningSection m blob len name kind k)
    (same : headerAt m blob j = headerAt m blob k) (listed : j < sectionCount m blob) :
    RunningSection m blob len name kind j := by
  obtain ⟨-, ⟨sectName, made, selects⟩, cpu, bounds⟩ := running
  refine ⟨listed, ⟨sectName, made, ?_⟩, ?_, ?_⟩ <;> rwa [same]

end Lookup

/-- In a fat container the section of the running processor is loaded exactly when its header comes first among those
with the requested name and kind, and it has content. -/
theorem running_section_loaded_iff (m : Memory) (blob : UIntPtr) (len : SizeT) (container : FatContainer m blob len)
    (name : List Byte) (kind : BitVec 32) :
    LoadsRunning m blob len name kind ↔ FirstRunning m blob len name kind := by
  classical
  constructor
  · rintro ⟨k, running, found, content, -⟩
    have some : ∃ j, Requested m blob name kind j := ⟨k, running.requested⟩
    have le := Nat.find_min' some running.requested
    have misses : ∀ j < Nat.find some, ¬ Requested m blob name kind j := fun j => Nat.find_min some
    have listed := Nat.lt_of_le_of_lt le running.listed
    have same := (container.first listed (Nat.find_spec some) misses).2 _ found
    exact ⟨Nat.find some, running.of_same same.symm listed, same ▸ content, misses⟩
  · rintro ⟨k, running, content, misses⟩
    have found := (container.first running.listed running.requested misses).1 running
    refine ⟨k, running, found, content, fun root σ => ?_⟩
    rw [PEFLoader.findSymbol_val, found]
    dsimp only
    have some : PEFCommandHeader.OffsetSize.get (headerAt m blob k) > 0 := BitVec.lt_def.mpr content
    rw [PEFLoader.contentAt, if_pos some, container.make.2]

/-! ## A container for two processors -/

/-- The same header for another processor. -/
def forCpu (cpu : Nat) (hdr : List Byte) : List Byte := hdr.take 256 ++ leBytes 4 cpu ++ hdr.drop 260

/-- A fat container with a section `main` for each of two processors. -/
def fatAt (blob : UIntPtr) (cpu cpu' : Nat) : Memory :=
  write (fun _ => 0) blob (kPefMagicFat ++ leBytes 12 0 ++ leBytes 4 0x5046 ++ leBytes 4 1 ++ leBytes 20 0 ++
    leBytes 8 3 ++ leBytes 11 0 ++ forCpu cpu (codeHeader 0x40000000 8 976 2) ++
    forCpu cpu' (codeHeader 0x40000000 8 976 2) ++ leBytes 304 0 ++ [1, 2])

theorem symbolMain_mangled : pefMakeName kPefCode symbolMain = some mainName := by decide +kernel

theorem running_section_loaded_iff_main : LoadsRunning (fatAt mainAt 1 6) mainAt 978 symbolMain kPefCode :=
  (running_section_loaded_iff _ _ _ ⟨by decide +kernel, by decide +kernel⟩ _ _).mpr
    ⟨0, ⟨by decide +kernel, ⟨mainName, symbolMain_mangled, by decide +kernel⟩, by decide +kernel, by decide +kernel⟩,
      by decide +kernel, nofun⟩

/-- The header for the other processor comes first and is taken. -/
theorem other_cpu_found : ¬ ∀ m blob len, FatContainer m blob len → ∀ name kind k,
    RunningSection m blob len name kind k → LoadsRunning m blob len name kind := by
  intro claim
  have own : RunningSection (fatAt mainAt 6 1) mainAt 978 symbolMain kPefCode 1 :=
    ⟨by decide +kernel, ⟨mainName, symbolMain_mangled, by decide +kernel⟩, by decide +kernel, by decide +kernel⟩
  obtain ⟨k, running, found, -⟩ := claim _ _ _ ⟨by decide +kernel, by decide +kernel⟩ _ _ 1 own
  have cpu : ((PEFLoader.make (fatAt mainAt 6 1) mainAt 978).val.foundHeader (fatAt mainAt 6 1) (some symbolMain)
      kPefCode).map PEFCommandHeader.Cpu.get = some 6 := by decide +kernel
  rw [found, Option.map_some, running.cpu] at cpu
  exact absurd cpu (by decide)

end Ne.Kernel.Ldr
