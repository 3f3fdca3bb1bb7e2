import NeKernel.Lib.Loop
import NeKernel.Machine

/-!
# The port scan of the AHCI driver

`drv_std_init_ahci` shifts the mask of the implemented ports as it goes through the ports, but never
looks at the bit of the port it is at, and at a port that is not active it does not go on.
-/

namespace Ne.Kernel.Storage
open Loops

def kSATASig : BitVec 32 := 0x00000101
def kSATAPISig : BitVec 32 := 0xEB140101
def kSATAPresent : BitVec 8 := 0x03
def kSATAIPMActive : BitVec 8 := 0x01

/-- The status and the signature of a port, which stay as they are during the scan. -/
structure PortRegisters where
  Ssts : BitVec 32
  Sig : BitVec 32

def PortRegisters.ipm (port : PortRegisters) : BitVec 8 := ((port.Ssts >>> 8) &&& 0x0F).setWidth 8

def PortRegisters.det (port : PortRegisters) : BitVec 8 := (port.Ssts &&& 0x0F).setWidth 8

/-- A round of the scan: `ports_implemented` and `ahci_index`. -/
def scanRound (atapi : Bool) (ports : ℕ → PortRegisters) (s : BitVec 32 × BitVec 16) :
    Turn (BitVec 32 × BitVec 16) (Option (BitVec 16)) :=
  if s.1 = 0 then .done none
  else if (ports s.2.toNat).det ≠ kSATAPresent ∨ (ports s.2.toNat).ipm ≠ kSATAIPMActive then .again s
  else if (ports s.2.toNat).Sig = kSATASig ∨ (atapi = true ∧ kSATAPISig = (ports s.2.toNat).Sig) then
    .done (some s.2)
  else .again (s.1 >>> 1, s.2 + 1)

/-- What `drv_std_init_ahci` makes of a controller: the port it selects, or none when it moves on. -/
def scanPorts (fuel : ℕ) (pi : BitVec 32) (atapi : Bool) (ports : ℕ → PortRegisters) :
    Option (Option (BitVec 16)) :=
  let kSATAMaxPortsImplemented := pi.setWidth 16
  if kSATAMaxPortsImplemented < 1 then some none
  else loop (scanRound atapi ports) fuel (pi, 0)

/-! ## What a scan should select -/

def Active (port : PortRegisters) : Prop := port.det = kSATAPresent ∧ port.ipm = kSATAIPMActive

def Accepted (atapi : Bool) (port : PortRegisters) : Prop :=
  port.Sig = kSATASig ∨ (atapi = true ∧ kSATAPISig = port.Sig)

def Candidate (pi : BitVec 32) (atapi : Bool) (ports : ℕ → PortRegisters) (i : ℕ) : Prop :=
  pi.getLsbD i = true ∧ Active (ports i) ∧ Accepted atapi (ports i)

instance (port : PortRegisters) : Decidable (Active port) := inferInstanceAs (Decidable (_ ∧ _))

instance (atapi : Bool) (port : PortRegisters) : Decidable (Accepted atapi port) :=
  inferInstanceAs (Decidable (_ ∨ _))

/-- The lowest candidate or, if there is none, no port. -/
def Lowest (pi : BitVec 32) (atapi : Bool) (ports : ℕ → PortRegisters) : Option (BitVec 16) → Prop
  | some index => Candidate pi atapi ports index.toNat ∧ ∀ j < index.toNat, ¬ Candidate pi atapi ports j
  | none => ∀ i, ¬ Candidate pi atapi ports i

def Selects (pi : BitVec 32) (atapi : Bool) (ports : ℕ → PortRegisters) : Prop :=
  ∃ fuel r, scanPorts fuel pi atapi ports = some r ∧ Lowest pi atapi ports r

/-- The scan steps over the port. -/
def Passes (atapi : Bool) (ports : ℕ → PortRegisters) (i : ℕ) : Prop :=
  Active (ports i) ∧ ¬ Accepted atapi (ports i)

section Scan
variable {pi : BitVec 32} {atapi : Bool} {ports : ℕ → PortRegisters} {i n fuel : ℕ} {r : Option (BitVec 16)}

/-- Where the scan stands when it has stepped over `i` ports. -/
def reached (pi : BitVec 32) (i : ℕ) : BitVec 32 × BitVec 16 := (pi >>> i, BitVec.ofNat 16 i)

theorem reached_zero : pi >>> i = 0 ↔ pi.toNat < 2 ^ i := by
  rw [← BitVec.toNat_inj, BitVec.toNat_ushiftRight, Nat.shiftRight_eq_div_pow]
  exact Nat.div_eq_zero_iff.trans (or_iff_right (Nat.two_pow_pos i).ne')

theorem lt_of_reached (more : 2 ^ i ≤ pi.toNat) : i < 32 := by
  by_contra far
  have large : 2 ^ 32 ≤ 2 ^ i := Nat.pow_le_pow_right (by decide) (by omega)
  have bound := pi.isLt
  omega

theorem reached_index (more : 2 ^ i ≤ pi.toNat) : (reached pi i).2.toNat = i := by
  have low := lt_of_reached more
  rw [reached, BitVec.toNat_ofNat, Nat.mod_eq_of_lt (by omega)]

theorem reached_live (more : 2 ^ i ≤ pi.toNat) : ¬ (reached pi i).1 = 0 := by
  rw [reached, reached_zero]
  omega

theorem scanRound_passes (more : 2 ^ i ≤ pi.toNat) (passes : Passes atapi ports i) :
    scanRound atapi ports (reached pi i) = .again (reached pi (i + 1)) := by
  obtain ⟨⟨present, powered⟩, refused⟩ := passes
  unfold Accepted at refused
  unfold scanRound
  rw [if_neg (reached_live more), reached_index more, if_neg (by simp [present, powered]), if_neg refused]
  unfold reached
  rw [BitVec.shiftRight_add, BitVec.ofNat_add]
  rfl

theorem scanRound_inactive (more : 2 ^ i ≤ pi.toNat) (inactive : ¬ Active (ports i)) :
    scanRound atapi ports (reached pi i) = .again (reached pi i) := by
  unfold scanRound
  rw [if_neg (reached_live more), reached_index more, if_pos (not_and_or.mp inactive)]

theorem scanRound_accepts (more : 2 ^ i ≤ pi.toNat) (active : Active (ports i))
    (accepted : Accepted atapi (ports i)) :
    scanRound atapi ports (reached pi i) = .done (some (reached pi i).2) := by
  unfold Accepted at accepted
  unfold scanRound
  rw [if_neg (reached_live more), reached_index more, if_neg (by simp [active.1, active.2]), if_pos accepted]

theorem scanRound_ends (past : pi.toNat < 2 ^ i) :
    scanRound atapi ports (reached pi i) = .done none :=
  if_pos (reached_zero.mpr past)

/-- The first port the scan does not step over settles it. -/
theorem scan_iff (steps : ∀ j < n, 2 ^ j ≤ pi.toNat ∧ Passes atapi ports j) :
    (∃ fuel, loop (scanRound atapi ports) fuel (pi, 0) = some r) ↔
      ∃ fuel, loop (scanRound atapi ports) fuel (reached pi n) = some r := by
  have start : (pi, 0) = reached pi 0 := by simp [reached]
  rw [start]
  exact loop_along_iff fun j less => scanRound_passes (steps j less).1 (steps j less).2

theorem scan_stops (steps : ∀ j < n, 2 ^ j ≤ pi.toNat ∧ Passes atapi ports j)
    (ends : scanRound atapi ports (reached pi n) = .done r) {r' : Option (BitVec 16)} :
    (∃ fuel, loop (scanRound atapi ports) fuel (pi, 0) = some r') ↔ r' = r := by
  have here : loop (scanRound atapi ports) 1 (reached pi n) = some r := loop_done ends
  rw [scan_iff steps]
  constructor
  · rintro ⟨fuel, stopped⟩
    exact (loop_steady _ _).unique stopped here
  · rintro rfl
    exact ⟨1, here⟩

theorem scan_hangs (steps : ∀ j < n, 2 ^ j ≤ pi.toNat ∧ Passes atapi ports j) (more : 2 ^ n ≤ pi.toNat)
    (inactive : ¬ Active (ports n)) : ¬ ∃ fuel, loop (scanRound atapi ports) fuel (pi, 0) = some r := by
  rw [scan_iff steps]
  rintro ⟨fuel, ends⟩
  rw [loop_stuck (scanRound_inactive more inactive)] at ends
  cases ends

theorem Candidate.below (candidate : Candidate pi atapi ports i) : 2 ^ i ≤ pi.toNat :=
  Nat.ge_two_pow_of_testBit candidate.1

theorem Passes.not_candidate (passes : Passes atapi ports i) : ¬ Candidate pi atapi ports i :=
  fun candidate => passes.2 candidate.2.2

theorem scanPorts_over (no_low : pi.setWidth 16 = 0#16) : scanPorts fuel pi atapi ports = some none := by
  have few : pi.setWidth 16 < 1 := by
    rw [no_low]
    decide
  exact if_pos few

theorem scanPorts_loop (low : pi.setWidth 16 ≠ 0#16) :
    scanPorts fuel pi atapi ports = loop (scanRound atapi ports) fuel (pi, 0) := by
  have many : ¬ pi.setWidth 16 < 1 := by bv_omega
  exact if_neg many

theorem selects_of_stops (low : pi.setWidth 16 ≠ 0#16)
    (steps : ∀ j < n, 2 ^ j ≤ pi.toNat ∧ Passes atapi ports j)
    (ends : scanRound atapi ports (reached pi n) = .done r) :
    Selects pi atapi ports ↔ Lowest pi atapi ports r := by
  constructor
  · rintro ⟨fuel, r', stopped, lowest⟩
    rw [scanPorts_loop low] at stopped
    rwa [← (scan_stops steps ends).mp ⟨fuel, stopped⟩]
  · intro lowest
    obtain ⟨fuel, stopped⟩ := (scan_stops steps ends).mpr rfl
    exact ⟨fuel, r, (scanPorts_loop low).trans stopped, lowest⟩

/-- The first port that is past the mask or not stepped over. -/
theorem first_stop (pi : BitVec 32) (atapi : Bool) (ports : ℕ → PortRegisters) :
    ∃ n, ¬ (2 ^ n ≤ pi.toNat ∧ Passes atapi ports n) ∧ ∀ j < n, 2 ^ j ≤ pi.toNat ∧ Passes atapi ports j := by
  have stops : ∃ n, ¬ (2 ^ n ≤ pi.toNat ∧ Passes atapi ports n) :=
    ⟨32, fun more => Nat.lt_irrefl 32 (lt_of_reached more.1)⟩
  classical
  exact ⟨Nat.find stops, Nat.find_spec stops, fun j less => not_not.mp (Nat.find_min stops less)⟩

theorem candidate_of_stop (steps : ∀ j < n, 2 ^ j ≤ pi.toNat ∧ Passes atapi ports j) (more : 2 ^ n ≤ pi.toNat)
    (stays : ¬ Passes atapi ports n) (sound : (∀ i, 2 ^ i ≤ pi.toNat → Passes atapi ports i) ∨
      ∃ i, Candidate pi atapi ports i ∧ ∀ j < i, Passes atapi ports j) : Candidate pi atapi ports n := by
  rcases sound with all | ⟨i, candidate, before⟩
  · exact absurd (all n more) stays
  · rcases Nat.lt_trichotomy i n with less | rfl | later
    · exact absurd candidate (steps i less).2.not_candidate
    · exact candidate
    · exact absurd (before n later) stays

end Scan

/-- What the registers must be like: with no port below 16 the controller is passed over, and otherwise the
scan must find only active ports up to the one that it selects, and that one implemented. -/
def ScanSound (pi : BitVec 32) (atapi : Bool) (ports : ℕ → PortRegisters) : Prop :=
  if pi.setWidth 16 = 0#16 then ∀ i, ¬ Candidate pi atapi ports i
  else (∀ i, 2 ^ i ≤ pi.toNat → Passes atapi ports i) ∨
    ∃ i, Candidate pi atapi ports i ∧ ∀ j < i, Passes atapi ports j

theorem scanPorts_selects_iff (pi : BitVec 32) (atapi : Bool) (ports : ℕ → PortRegisters) :
    Selects pi atapi ports ↔ ScanSound pi atapi ports := by
  unfold ScanSound
  by_cases low : pi.setWidth 16 = 0#16
  · rw [if_pos low]
    constructor
    · rintro ⟨fuel, r, passed, lowest⟩
      rw [scanPorts_over low] at passed
      cases passed
      exact lowest
    · intro without
      exact ⟨0, none, scanPorts_over low, without⟩
  rw [if_neg low]
  obtain ⟨n, first, steps⟩ := first_stop pi atapi ports
  by_cases more : 2 ^ n ≤ pi.toNat
  case neg =>
    have within (i : ℕ) (below : 2 ^ i ≤ pi.toNat) : i < n := by
      by_contra past
      have large : 2 ^ n ≤ 2 ^ i := Nat.pow_le_pow_right (by decide) (by omega)
      omega
    rw [selects_of_stops low steps (scanRound_ends (by omega))]
    refine iff_of_true (fun i candidate => ?_) (.inl fun i below => (steps i (within i below)).2)
    exact (steps i (within i candidate.below)).2.not_candidate candidate
  have stays : ¬ Passes atapi ports n := fun passes => first ⟨more, passes⟩
  by_cases active : Active (ports n)
  case neg =>
    refine iff_of_false ?_ ?_
    · rintro ⟨fuel, r, ends, -⟩
      rw [scanPorts_loop low] at ends
      exact scan_hangs steps more active ⟨fuel, ends⟩
    · intro sound
      exact active (candidate_of_stop steps more stays sound).2.1
  have accepted : Accepted atapi (ports n) := by
    by_contra refused
    exact stays ⟨active, refused⟩
  rw [selects_of_stops low steps (scanRound_accepts more active accepted), Lowest, reached_index more]
  constructor
  · rintro ⟨candidate, -⟩
    exact .inr ⟨n, candidate, fun j less => (steps j less).2⟩
  · intro sound
    exact ⟨candidate_of_stop steps more stays sound, fun j less => (steps j less).2.not_candidate⟩

/-- Port 0 is implemented and nothing is plugged into it, port 1 has a disk. -/
def secondPort (i : ℕ) : PortRegisters := if i = 1 then ⟨0x103, kSATASig⟩ else ⟨0, 0⟩

theorem scanPorts_hangs : ¬ ∀ (pi : BitVec 32) (atapi : Bool) (ports : ℕ → PortRegisters),
    Selects pi atapi ports := by
  intro selects
  obtain ⟨fuel, r, ends, -⟩ := selects 3 false secondPort
  rw [scanPorts_loop (by decide)] at ends
  exact scan_hangs (fun j less => absurd less (Nat.not_lt_zero j)) (by decide) (by decide) ⟨fuel, ends⟩

end Ne.Kernel.Storage
