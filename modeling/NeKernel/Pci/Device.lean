import NeKernel.Machine
import Mathlib.Logic.Function.Basic
import Mathlib.Tactic.IntervalCases

/-!
# Devices on the PCI bus

`PCI::Device` over the address port and the data port of the configuration space, and `PCI::Iterator`. The
functions that write select a register and then store to the address port again.
-/

namespace Ne.Kernel.Pci
structure PciFunction where
  bus : BitVec 8
  device : BitVec 5
  function : BitVec 3
  deriving DecidableEq

/-- The registers of the functions, of which only those with a device behind them are not all ones. -/
abbrev ConfigSpace := PciFunction → BitVec 6 → BitVec 32

namespace PciConfigKind
def ConfigAddress : BitVec 16 := 0xCF8
def ConfigData : BitVec 16 := 0xCFC
def Invalid : BitVec 32 := 0xFFFF
end PciConfigKind

/-- The address port keeps what was stored to it. The data port is the register that the address names, if the top
bit of the address is set. -/
structure PciPorts where
  address : BitVec 32
  space : ConfigSpace

def selectedFunction (address : BitVec 32) : PciFunction :=
  ⟨address.extractLsb' 16 8, address.extractLsb' 11 5, address.extractLsb' 8 3⟩

def selectedRegister (address : BitVec 32) : BitVec 6 := address.extractLsb' 2 6

def rtOut32 (port : BitVec 16) (value : BitVec 32) (s : PciPorts) : PciPorts :=
  if port = PciConfigKind.ConfigAddress then { s with address := value }
  else if port = PciConfigKind.ConfigData ∧ s.address.getLsbD 31 = true then
    { s with space := fun f r =>
        if f = selectedFunction s.address ∧ r = selectedRegister s.address then value else s.space f r }
  else s

def rtIn32 (port : BitVec 16) (s : PciPorts) : BitVec 32 :=
  if port = PciConfigKind.ConfigAddress then s.address
  else if port = PciConfigKind.ConfigData ∧ s.address.getLsbD 31 = true then
    s.space (selectedFunction s.address) (selectedRegister s.address)
  else BitVec.allOnes 32

def configTarget (bar : BitVec 32) (bus dev func : BitVec 16) : BitVec 32 :=
  0x80000000 ||| bus.setWidth 32 <<< 16 ||| dev.setWidth 32 <<< 11 ||| func.setWidth 32 <<< 8 ||| (bar &&& 0xFC)

def nePCIReadRaw (bar : BitVec 32) (bus dev func : BitVec 16) (s : PciPorts) : BitVec 32 × PciPorts :=
  let s := rtOut32 PciConfigKind.ConfigAddress (configTarget bar bus dev func) s
  (rtIn32 PciConfigKind.ConfigData s, s)

def nePCISetCfgTarget (bar : BitVec 32) (bus dev func : BitVec 16) (s : PciPorts) : PciPorts :=
  rtOut32 PciConfigKind.ConfigAddress (configTarget bar bus dev func) s

structure PciDevice where
  fBus : BitVec 16
  fDevice : BitVec 16
  fFunction : BitVec 16
  fBar : BitVec 32
  deriving DecidableEq

namespace PciDevice

def readRaw (d : PciDevice) (bar : BitVec 32) : PciPorts → BitVec 32 × PciPorts :=
  nePCIReadRaw bar d.fBus d.fDevice d.fFunction

def setCfgTarget (d : PciDevice) (bar : BitVec 32) : PciPorts → PciPorts :=
  nePCISetCfgTarget bar d.fBus d.fDevice d.fFunction

/-- The bits in front of the part of a register that two bytes or one lie in. -/
def shiftOf (bar mask : BitVec 32) : ℕ := ((bar &&& mask) * 8).toNat

def Read (d : PciDevice) (bar : BitVec 32) (sz : SizeT) (s : PciPorts) : BitVec 32 × PciPorts :=
  let s := d.setCfgTarget (bar &&& 0xFC) s
  let data := rtIn32 PciConfigKind.ConfigData s
  if sz = 4 then (data, s)
  else if sz = 2 then ((data >>> shiftOf bar 2) &&& 0xFFFF, s)
  else if sz = 1 then ((data >>> shiftOf bar 3) &&& 0xFF, s)
  else (PciConfigKind.Invalid, s)

def Write (d : PciDevice) (bar : BitVec 32) (data : UIntPtr) (sz : SizeT) (s : PciPorts) : PciPorts :=
  let s := d.setCfgTarget (bar &&& 0xFC) s
  if sz = 4 then rtOut32 PciConfigKind.ConfigAddress (data.setWidth 32) s
  else if sz = 2 then
    let temp := rtIn32 PciConfigKind.ConfigData s
    let temp := temp &&& ~~~((0xFFFF : BitVec 32) <<< shiftOf bar 2)
    let temp := temp ||| ((data &&& 0xFFFF) <<< shiftOf bar 2).setWidth 32
    rtOut32 PciConfigKind.ConfigAddress temp s
  else if sz = 1 then
    let temp := rtIn32 PciConfigKind.ConfigData s
    let temp := temp &&& ~~~((0xFF : BitVec 32) <<< shiftOf bar 3)
    let temp := temp ||| ((data &&& 0xFF) <<< shiftOf bar 3).setWidth 32
    rtOut32 PciConfigKind.ConfigAddress temp s
  else s

/-- A part of a register, as `DeviceId` and the functions below take it. -/
def part (d : PciDevice) (bar : BitVec 32) (low width : ℕ) (s : PciPorts) : BitVec width × PciPorts :=
  let (raw, s) := d.readRaw bar s
  ((raw >>> low).setWidth width, s)

def DeviceId (d : PciDevice) : PciPorts → BitVec 16 × PciPorts := d.part 0x0 16 16

def VendorId (d : PciDevice) : PciPorts → BitVec 16 × PciPorts := d.part 0x0 0 16

def InterfaceId (d : PciDevice) : PciPorts → BitVec 16 × PciPorts := d.part 0x09 16 16

def Class (d : PciDevice) : PciPorts → BitVec 8 × PciPorts := d.part 0x08 24 8

def Subclass (d : PciDevice) : PciPorts → BitVec 8 × PciPorts := d.part 0x08 16 8

def ProgIf (d : PciDevice) : PciPorts → BitVec 8 × PciPorts := d.part 0x08 8 8

def HeaderType (d : PciDevice) : PciPorts → BitVec 8 × PciPorts := d.part 0xC 16 8

def Vendor (d : PciDevice) : PciPorts → BitVec 16 × PciPorts := d.VendorId

/-- `operator bool`. -/
def isPresent (d : PciDevice) (s : PciPorts) : Bool × PciPorts :=
  let (vendor, s) := d.VendorId s
  (vendor != PciConfigKind.Invalid.setWidth 16, s)

/-- `EnableMmio` and `BecomeBusMaster`: a bit of the command register is to be set. -/
def enable (d : PciDevice) (bit : BitVec 32) (s : PciPorts) : PciPorts :=
  let (command, s) := d.Read 0x04 4 s
  d.Write 0x04 ((command ||| bit).setWidth 64) 4 s

def EnableMmio (d : PciDevice) : PciPorts → PciPorts := d.enable (1 <<< 1)

def BecomeBusMaster (d : PciDevice) : PciPorts → PciPorts := d.enable (1 <<< 2)

def PCI_BAR_IO : ℕ := 0
def PCI_BAR_64 : ℕ := 2

def Bar (d : PciDevice) (barIn : BitVec 32) (s : PciPorts) : UIntPtr × PciPorts :=
  let (bar, s) := d.readRaw barIn s
  if bar.getLsbD PCI_BAR_IO then ((bar &&& ~~~0x03).setWidth 64, s)
  else if bar.getLsbD PCI_BAR_64 then
    let (high, s) := d.readRaw ((barIn + 4) &&& ~~~0x03) s
    ((high ++ (bar &&& ~~~0x0F) : BitVec 64), s)
  else ((bar &&& ~~~0x0F).setWidth 64, s)

end PciDevice

def NE_BUS_COUNT : ℕ := 256
def NE_DEVICE_COUNT : ℕ := 33
def NE_FUNCTION_COUNT : ℕ := 8

/-- `fDevices`, and the ports. -/
abbrev Probe := (ℕ → PciDevice) × PciPorts

def PciDevice.at (bar : BitVec 32) (bus device function : ℕ) : PciDevice :=
  ⟨BitVec.ofNat 16 bus, BitVec.ofNat 16 device, BitVec.ofNat 16 function, bar⟩

def probeFunction (type : BitVec 8) (bus : ℕ) (s : Probe) (dev : PciDevice) : Probe :=
  let (kind, ports) := dev.Class s.2
  if kind = type then (Function.update s.1 bus dev, ports) else (s.1, ports)

/-- The constructor of `PCI::Iterator`. An entry that no device is put into stays as it was in memory. -/
def iterator (type : BitVec 8) (bar : BitVec 32) (fDevices : ℕ → PciDevice) (ports : PciPorts) : Probe :=
  (List.range NE_BUS_COUNT).foldl (fun s bus =>
    (List.range NE_DEVICE_COUNT).foldl (fun s device =>
      (List.range NE_FUNCTION_COUNT).foldl (fun s function =>
        probeFunction type bus s (.at bar bus device function)) s) s) (fDevices, ports)

/-- One call of a member function. -/
inductive PciCall where
  | Read (bar : BitVec 32) (sz : SizeT)
  | Write (bar : BitVec 32) (data : UIntPtr) (sz : SizeT)
  | DeviceId
  | VendorId
  | InterfaceId
  | Class
  | Subclass
  | ProgIf
  | HeaderType
  | Vendor
  | isPresent
  | EnableMmio
  | BecomeBusMaster
  | Bar (barIn : BitVec 32)

/-- The ports after a call, and what it returns, widened. -/
def PciCall.run (d : PciDevice) (call : PciCall) (s : PciPorts) : BitVec 64 × PciPorts :=
  match call with
  | .Read bar sz => (d.Read bar sz s).map (BitVec.setWidth 64) id
  | .Write bar data sz => (0, d.Write bar data sz s)
  | .DeviceId => (d.DeviceId s).map (BitVec.setWidth 64) id
  | .VendorId => (d.VendorId s).map (BitVec.setWidth 64) id
  | .InterfaceId => (d.InterfaceId s).map (BitVec.setWidth 64) id
  | .Class => (d.Class s).map (BitVec.setWidth 64) id
  | .Subclass => (d.Subclass s).map (BitVec.setWidth 64) id
  | .ProgIf => (d.ProgIf s).map (BitVec.setWidth 64) id
  | .HeaderType => (d.HeaderType s).map (BitVec.setWidth 64) id
  | .Vendor => (d.Vendor s).map (BitVec.setWidth 64) id
  | .isPresent => (d.isPresent s).map (fun present => (BitVec.ofBool present).setWidth 64) id
  | .EnableMmio => (0, d.EnableMmio s)
  | .BecomeBusMaster => (0, d.BecomeBusMaster s)
  | .Bar barIn => d.Bar barIn s

def PciCall.runAll (calls : List (PciDevice × PciCall)) (s : PciPorts) : PciPorts :=
  calls.foldl (fun s call => (call.2.run call.1 s).2) s

/-! ## What the registers say -/

/-- The function that the numbers of a device select. A number that is too large runs into the next one. -/
def PciDevice.selected (d : PciDevice) : PciFunction :=
  ⟨(d.fBus ||| d.fDevice >>> 5 ||| d.fFunction >>> 8).setWidth 8, (d.fDevice ||| d.fFunction >>> 3).setWidth 5,
    d.fFunction.setWidth 3⟩

/-- The `n` bytes from an offset on, which lie in one register. -/
def field (registers : BitVec 6 → BitVec 32) (off n : ℕ) : BitVec (8 * n) :=
  (registers (BitVec.ofNat 6 (off / 4))).extractLsb' (8 * (off % 4)) (8 * n)

/-- The address in a base address register and, for the wide kind, in the one behind it. -/
def baseAddress (registers : BitVec 6 → BitVec 32) (off : ℕ) : UIntPtr :=
  let bar := field registers (off / 4 * 4) 4
  if bar.getLsbD 0 then (bar &&& ~~~0x03).setWidth 64
  else if bar.getLsbD 2 then (field registers ((off + 4) / 4 * 4) 4 ++ (bar &&& ~~~0x0F) : BitVec 64)
  else (bar &&& ~~~0x0F).setWidth 64

/-- What the registers of the selected function give. -/
def PciCall.answer (registers : BitVec 6 → BitVec 32) : PciCall → BitVec 64
  | .Read bar sz =>
      let off := bar.toNat
      if sz = 4 then (field registers (off / 4 * 4) 4).setWidth 64
      else if sz = 2 then (field registers (off / 2 * 2) 2).setWidth 64
      else if sz = 1 then (field registers off 1).setWidth 64
      else PciConfigKind.Invalid.setWidth 64
  | .Write .. => 0
  | .DeviceId => (field registers 2 2).setWidth 64
  | .VendorId => (field registers 0 2).setWidth 64
  | .InterfaceId => (field registers 10 2).setWidth 64
  | .Class => (field registers 11 1).setWidth 64
  | .Subclass => (field registers 10 1).setWidth 64
  | .ProgIf => (field registers 9 1).setWidth 64
  | .HeaderType => (field registers 14 1).setWidth 64
  | .Vendor => (field registers 0 2).setWidth 64
  | .isPresent => if field registers 0 2 = 0xFFFF then 0 else 1
  | .EnableMmio => 0
  | .BecomeBusMaster => 0
  | .Bar barIn => baseAddress registers barIn.toNat

section Targets
variable {bar : BitVec 32} {bus dev func : BitVec 16} {d : PciDevice} {s : PciPorts}

theorem target_enabled : (configTarget bar bus dev func).getLsbD 31 = true := by
  simp [configTarget]

theorem target_function : selectedFunction (configTarget bar bus dev func) =
    ⟨(bus ||| dev >>> 5 ||| func >>> 8).setWidth 8, (dev ||| func >>> 3).setWidth 5, func.setWidth 3⟩ := by
  unfold selectedFunction configTarget
  congr 1
  all_goals
    apply BitVec.eq_of_getLsbD_eq
    intro i low
    interval_cases i <;> simp

theorem target_register : selectedRegister (configTarget bar bus dev func) = bar.extractLsb' 2 6 := by
  unfold selectedRegister configTarget
  apply BitVec.eq_of_getLsbD_eq
  intro i low
  interval_cases i <;> simp

theorem aligned_register : (bar &&& 0xFC).extractLsb' 2 6 = bar.extractLsb' 2 6 := by
  apply BitVec.eq_of_getLsbD_eq
  intro i low
  interval_cases i <;> simp

theorem register_ofNat : bar.extractLsb' 2 6 = BitVec.ofNat 6 (bar.toNat / 4) := by
  apply BitVec.eq_of_toNat_eq
  rw [BitVec.extractLsb'_toNat, BitVec.toNat_ofNat, Nat.shiftRight_eq_div_pow]

theorem setCfgTarget_eq : d.setCfgTarget bar s = ⟨configTarget bar d.fBus d.fDevice d.fFunction, s.space⟩ := by
  unfold PciDevice.setCfgTarget nePCISetCfgTarget rtOut32
  rw [if_pos rfl]

/-- What the data port gives while a register of the device is selected. -/
theorem rtIn32_target : rtIn32 PciConfigKind.ConfigData ⟨configTarget bar d.fBus d.fDevice d.fFunction, s.space⟩ =
    s.space d.selected (BitVec.ofNat 6 (bar.toNat / 4)) := by
  unfold rtIn32
  rw [if_neg (by decide), if_pos ⟨rfl, target_enabled⟩]
  dsimp only
  rw [target_function, target_register, register_ofNat]
  rfl

theorem readRaw_eq : d.readRaw bar s =
    (s.space d.selected (BitVec.ofNat 6 (bar.toNat / 4)),
      ⟨configTarget bar d.fBus d.fDevice d.fFunction, s.space⟩) := by
  unfold PciDevice.readRaw nePCIReadRaw rtOut32
  rw [if_pos rfl]
  dsimp only
  rw [rtIn32_target]

end Targets

/-! ## Parts of registers -/

section Parts
variable {bar data : BitVec 32} {registers : BitVec 6 → BitVec 32} {d : PciDevice} {s : PciPorts} {sz : SizeT}

theorem and_three : bar &&& 3 = BitVec.ofNat 32 (bar.toNat % 4) := by
  apply BitVec.eq_of_toNat_eq
  rw [BitVec.toNat_and, BitVec.toNat_ofNat, show (3 : BitVec 32).toNat = 2 ^ 2 - 1 from rfl,
    Nat.and_two_pow_sub_one_eq_mod]
  omega

theorem shiftOf_three : PciDevice.shiftOf bar 3 = 8 * (bar.toNat % 4) := by
  unfold PciDevice.shiftOf
  rw [and_three, BitVec.toNat_mul, BitVec.toNat_ofNat, show (8 : BitVec 32).toNat = 8 from rfl]
  omega

theorem shiftOf_two : PciDevice.shiftOf bar 2 = 8 * (bar.toNat / 2 * 2 % 4) := by
  have low : bar &&& 2 = BitVec.ofNat 32 (bar.toNat % 4) &&& 2 := by
    rw [← and_three, BitVec.and_assoc]
    rfl
  have parity : bar.toNat / 2 * 2 % 4 = bar.toNat % 4 / 2 * 2 := by omega
  have small : bar.toNat % 4 < 4 := Nat.mod_lt _ (by decide)
  unfold PciDevice.shiftOf
  rw [low, parity]
  generalize bar.toNat % 4 = v at small
  interval_cases v <;> rfl

theorem part_eq {k w : ℕ} (mask : BitVec 32) (ones : mask.toNat = 2 ^ w - 1) :
    ((data >>> k) &&& mask).setWidth 64 = (data.extractLsb' k w).setWidth 64 := by
  apply BitVec.eq_of_toNat_eq
  rw [BitVec.toNat_setWidth, BitVec.toNat_setWidth, BitVec.toNat_and, ones, Nat.and_two_pow_sub_one_eq_mod,
    BitVec.extractLsb'_toNat, BitVec.toNat_ushiftRight]

theorem read_space : (d.Read bar sz s).2.space = s.space := by
  unfold PciDevice.Read
  dsimp only
  rw [setCfgTarget_eq]
  split_ifs <;> rfl

theorem read_eq : (d.Read bar sz s).1.setWidth 64 = (PciCall.Read bar sz).answer (s.space d.selected) := by
  have register : BitVec.ofNat 6 ((bar &&& 0xFC).toNat / 4) = BitVec.ofNat 6 (bar.toNat / 4) := by
    rw [← register_ofNat, aligned_register, register_ofNat]
  have word : bar.toNat / 4 * 4 / 4 = bar.toNat / 4 := by omega
  have half : bar.toNat / 2 * 2 / 4 = bar.toNat / 4 := by omega
  unfold PciDevice.Read PciCall.answer
  dsimp only
  rw [setCfgTarget_eq, rtIn32_target, register]
  split_ifs
  · rw [field, word, Nat.mul_mod_left]
    simp
  · rw [field, half, shiftOf_two]
    exact part_eq _ rfl
  · rw [field, shiftOf_three]
    exact part_eq _ rfl
  · rfl

theorem part_answer (bar : BitVec 32) (off n : ℕ) (register : bar.toNat / 4 = off / 4) :
    (d.part bar (8 * (off % 4)) (8 * n) s).1.setWidth 64 = (field (s.space d.selected) off n).setWidth 64 := by
  unfold PciDevice.part field
  rw [readRaw_eq, register]
  apply BitVec.eq_of_toNat_eq
  rw [BitVec.toNat_setWidth, BitVec.toNat_setWidth, BitVec.toNat_setWidth, BitVec.extractLsb'_toNat,
    BitVec.toNat_ushiftRight]

theorem part_space (bar : BitVec 32) (low w : ℕ) : (d.part bar low w s).2.space = s.space := by
  unfold PciDevice.part
  rw [readRaw_eq]

theorem write_space {data : UIntPtr} : (d.Write bar data sz s).space = s.space := by
  unfold PciDevice.Write rtOut32
  rw [setCfgTarget_eq]
  split_ifs <;> rfl

theorem enable_space {bit : BitVec 32} : (d.enable bit s).space = s.space := by
  unfold PciDevice.enable
  dsimp only
  rw [write_space, read_space]

theorem bar_space : (d.Bar bar s).2.space = s.space := by
  unfold PciDevice.Bar
  rw [readRaw_eq]
  dsimp only
  rw [readRaw_eq]
  split_ifs <;> rfl

theorem bar_eq : (d.Bar bar s).1 = baseAddress (s.space d.selected) bar.toNat := by
  have whole (off : ℕ) :
      field (s.space d.selected) (off / 4 * 4) 4 = s.space d.selected (BitVec.ofNat 6 (off / 4)) := by
    rw [field, Nat.mul_mod_left, Nat.mul_div_cancel _ (by decide)]
    simp
  have next : BitVec.ofNat 6 (((bar + 4) &&& ~~~0x03).toNat / 4) = BitVec.ofNat 6 ((bar.toNat + 4) / 4) := by
    have cleared : ((bar + 4) &&& ~~~0x03).extractLsb' 2 6 = (bar + 4).extractLsb' 2 6 := by
      apply BitVec.eq_of_getLsbD_eq
      intro i low
      interval_cases i <;> simp
    rw [← register_ofNat, cleared, register_ofNat]
    apply BitVec.eq_of_toNat_eq
    rw [BitVec.toNat_ofNat, BitVec.toNat_ofNat, BitVec.toNat_add, show (4 : BitVec 32).toNat = 4 from rfl]
    omega
  unfold PciDevice.Bar baseAddress
  rw [readRaw_eq, whole, whole]
  dsimp only
  rw [readRaw_eq, next]
  unfold PciDevice.PCI_BAR_IO PciDevice.PCI_BAR_64
  split_ifs <;> rfl

end Parts

section Calls
variable {d : PciDevice} {call : PciCall} {s : PciPorts}

theorem isPresent_eq : (BitVec.ofBool (d.isPresent s).1).setWidth 64 =
    PciCall.isPresent.answer (s.space d.selected) := by
  have vendor : (d.VendorId s).1 = field (s.space d.selected) 0 2 := by
    have wide : ((d.VendorId s).1).setWidth 64 = (field (s.space d.selected) 0 2).setWidth 64 :=
      part_answer 0x0 0 2 rfl
    have narrow := congrArg (BitVec.setWidth 16) wide
    simpa [BitVec.setWidth_setWidth_of_le] using narrow
  unfold PciDevice.isPresent PciCall.answer
  dsimp only
  rw [vendor]
  by_cases absent : field (s.space d.selected) 0 2 = 0xFFFF
  · rw [if_pos absent, absent]
    rfl
  · have present : (field (s.space d.selected) 0 2 != PciConfigKind.Invalid.setWidth 16) = true :=
      bne_iff_ne.mpr absent
    rw [if_neg absent, present]
    rfl

theorem run_space : (call.run d s).2.space = s.space := by
  cases call with
  | Read bar sz => exact read_space
  | Write bar data sz => exact write_space
  | EnableMmio | BecomeBusMaster => exact enable_space
  | Bar barIn => exact bar_space
  | DeviceId => exact part_space 0x0 16 16
  | VendorId => exact part_space 0x0 0 16
  | InterfaceId => exact part_space 0x09 16 16
  | Class => exact part_space 0x08 24 8
  | Subclass => exact part_space 0x08 16 8
  | ProgIf => exact part_space 0x08 8 8
  | HeaderType => exact part_space 0xC 16 8
  | Vendor | isPresent => exact part_space 0x0 0 16

theorem run_answer : (call.run d s).1 = call.answer (s.space d.selected) := by
  cases call with
  | Read bar sz => exact read_eq
  | Write bar data sz => rfl
  | EnableMmio | BecomeBusMaster => rfl
  | Bar barIn => exact bar_eq
  | DeviceId => exact part_answer 0x0 2 2 rfl
  | VendorId => exact part_answer 0x0 0 2 rfl
  | InterfaceId => exact part_answer 0x09 10 2 rfl
  | Class => exact part_answer 0x08 11 1 rfl
  | Subclass => exact part_answer 0x08 10 1 rfl
  | ProgIf => exact part_answer 0x08 9 1 rfl
  | HeaderType => exact part_answer 0xC 14 1 rfl
  | Vendor => exact part_answer 0x0 0 2 rfl
  | isPresent => exact isPresent_eq

/-- No run of calls changes a register, so none enables a device, and each call answers by what the registers of the
function it selects held from the start. -/
theorem runAll_registers (calls : List (PciDevice × PciCall)) (s : PciPorts) :
    (PciCall.runAll calls s).space = s.space ∧
    ∀ d call, (PciCall.run d call (PciCall.runAll calls s)).1 = call.answer (s.space d.selected) := by
  have kept : (PciCall.runAll calls s).space = s.space := by
    unfold PciCall.runAll
    induction calls generalizing s with
    | nil => rfl
    | cons head tail ih => exact (ih (head.2.run head.1 s).2).trans run_space
  refine ⟨kept, fun d call => ?_⟩
  rw [run_answer, kept]

end Calls

/-! ## The iterator -/

/-- The devices that are looked at for the entry of a bus, in this order. -/
def probes (bar : BitVec 32) (bus : ℕ) : List PciDevice :=
  (List.range NE_DEVICE_COUNT).flatMap fun device =>
    (List.range NE_FUNCTION_COUNT).map fun function => .at bar bus device function

/-- The functions of the devices below `devices` on a bus. -/
def functionsBelow (bus devices : ℕ) : List PciFunction :=
  (List.range devices).flatMap fun device =>
    (List.range NE_FUNCTION_COUNT).map fun function =>
      ⟨BitVec.ofNat 8 bus, BitVec.ofNat 5 device, BitVec.ofNat 3 function⟩

def classOf (space : ConfigSpace) (d : PciDevice) : BitVec 8 := field (space d.selected) 11 1

section Iterator
variable {type : BitVec 8} {bar : BitVec 32} {fDevices : ℕ → PciDevice} {ports : PciPorts} {bus : ℕ} {s : Probe}
  {dev : PciDevice} {ds : List PciDevice}

/-- The last device of a kind, or what was there before. -/
def lastOf (space : ConfigSpace) (type : BitVec 8) (ds : List PciDevice) (before : PciDevice) : PciDevice :=
  (ds.filter fun d => classOf space d = type).getLast?.getD before

theorem class_eq : (dev.Class ports).1 = classOf ports.space dev := by
  have wide : ((dev.Class ports).1).setWidth 64 = (classOf ports.space dev).setWidth 64 := part_answer 0x08 11 1 rfl
  have narrow := congrArg (BitVec.setWidth 8) wide
  simpa [BitVec.setWidth_setWidth_of_le] using narrow

theorem probeFunction_eq : probeFunction type bus s dev =
    (Function.update s.1 bus (lastOf s.2.space type [dev] (s.1 bus)), (dev.Class s.2).2) := by
  unfold probeFunction lastOf
  dsimp only
  rw [class_eq]
  by_cases found : classOf s.2.space dev = type
  · simp [found]
  · simp [found]

theorem lastOf_append {space : ConfigSpace} {es : List PciDevice} {before : PciDevice} :
    lastOf space type (ds ++ es) before = lastOf space type es (lastOf space type ds before) := by
  unfold lastOf
  rw [List.filter_append, List.getLast?_append]
  cases (es.filter fun d => classOf space d = type).getLast? <;> rfl

theorem foldl_probe (ds : List PciDevice) (s : Probe) :
    (ds.foldl (probeFunction type bus) s).1 = Function.update s.1 bus (lastOf s.2.space type ds (s.1 bus)) ∧
      (ds.foldl (probeFunction type bus) s).2.space = s.2.space := by
  induction ds generalizing s with
  | nil => exact ⟨(Function.update_eq_self bus s.1).symm, rfl⟩
  | cons d ds ih =>
      have space : (d.Class s.2).2.space = s.2.space := part_space 0x08 24 8
      obtain ⟨devices, kept⟩ := ih (probeFunction type bus s d)
      rw [List.foldl_cons, devices, kept, probeFunction_eq]
      dsimp only
      rw [space, Function.update_idem, Function.update_self, ← lastOf_append, List.singleton_append]
      exact ⟨rfl, rfl⟩

theorem foldl_bus (s : Probe) : (List.range NE_DEVICE_COUNT).foldl (fun s device =>
      (List.range NE_FUNCTION_COUNT).foldl (fun s function =>
        probeFunction type bus s (.at bar bus device function)) s) s =
    (probes bar bus).foldl (probeFunction type bus) s := by
  rw [probes, List.foldl_flatMap]
  simp only [List.foldl_map]

theorem iterator_front (n : ℕ) (s : Probe) :
    let found := (List.range n).foldl (fun s bus => (probes bar bus).foldl (probeFunction type bus) s) s
    found.2.space = s.2.space ∧ ∀ bus, found.1 bus =
      if bus < n then lastOf s.2.space type (probes bar bus) (s.1 bus) else s.1 bus := by
  induction n with
  | zero => simp
  | succ n ih =>
      obtain ⟨space, entries⟩ := ih
      rw [List.range_succ, List.foldl_append]
      dsimp only [List.foldl_cons, List.foldl_nil]
      obtain ⟨devices, kept⟩ := @foldl_probe type n (probes bar n)
        ((List.range n).foldl (fun s bus => (probes bar bus).foldl (probeFunction type bus) s) s)
      refine ⟨kept.trans space, fun bus => ?_⟩
      rw [devices]
      by_cases here : bus = n
      · rw [here, Function.update_self, if_pos (Nat.lt_succ_self n), entries n, if_neg (Nat.lt_irrefl n), space]
      · rw [Function.update_of_ne here, entries bus]
        exact if_congr (by omega) rfl rfl

theorem at_selected {device function : ℕ} (inside : device < 32) (few : function < 8) :
    (PciDevice.at bar bus device function).selected =
      ⟨BitVec.ofNat 8 bus, BitVec.ofNat 5 device, BitVec.ofNat 3 function⟩ := by
  have low : function >>> 3 = 0 := by rw [Nat.shiftRight_eq_div_pow]; omega
  have lower : function >>> 8 = 0 := by rw [Nat.shiftRight_eq_div_pow]; omega
  have none : device >>> 5 = 0 := by rw [Nat.shiftRight_eq_div_pow]; omega
  unfold PciDevice.selected PciDevice.at
  congr 1
  all_goals
    apply BitVec.eq_of_toNat_eq
    simp [Nat.mod_eq_of_lt (show device < 65536 by omega),
      Nat.mod_eq_of_lt (show function < 65536 by omega), low, lower, none]

theorem at_selected_32 {function : ℕ} (few : function < 8) :
    (PciDevice.at bar bus 32 function).selected = ⟨BitVec.ofNat 8 (bus ||| 1), 0, BitVec.ofNat 3 function⟩ := by
  have low : function >>> 3 = 0 := by rw [Nat.shiftRight_eq_div_pow]; omega
  have lower : function >>> 8 = 0 := by rw [Nat.shiftRight_eq_div_pow]; omega
  unfold PciDevice.selected PciDevice.at
  congr 1
  all_goals
    apply BitVec.eq_of_toNat_eq
    simp [Nat.mod_eq_of_lt (show function < 65536 by omega), low, lower]

theorem probes_selected :
    (probes bar bus).map PciDevice.selected = functionsBelow bus 32 ++ functionsBelow (bus ||| 1) 1 := by
  have row (device : ℕ) (inside : device < 32) :
      ((List.range NE_FUNCTION_COUNT).map fun function => (PciDevice.at bar bus device function).selected) =
        (List.range NE_FUNCTION_COUNT).map fun function =>
          ⟨BitVec.ofNat 8 bus, BitVec.ofNat 5 device, BitVec.ofNat 3 function⟩ :=
    List.map_congr_left fun function member => at_selected inside (List.mem_range.mp member)
  have last : ((List.range NE_FUNCTION_COUNT).map fun function => (PciDevice.at bar bus 32 function).selected) =
      functionsBelow (bus ||| 1) 1 := by
    unfold functionsBelow
    rw [List.range_one, List.flatMap_singleton]
    exact List.map_congr_left fun function member => at_selected_32 (List.mem_range.mp member)
  unfold probes
  rw [show NE_DEVICE_COUNT = 32 + 1 from rfl, List.range_succ, List.flatMap_append, List.flatMap_singleton,
    List.map_append, List.map_flatMap, List.map_map]
  congr 1
  unfold functionsBelow
  rw [List.flatMap_def, List.flatMap_def]
  congr 1
  refine List.map_congr_left fun device member => ?_
  rw [List.map_map]
  exact row device (List.mem_range.mp member)

/-- The entry of a bus is the last device of the kind among the functions of the bus and, behind them, those of the
first device of the bus with the next odd number or of the bus itself. Nothing on the bus is changed. -/
theorem iterator_entries (type : BitVec 8) (bar : BitVec 32) (fDevices : ℕ → PciDevice) (ports : PciPorts) :
    (iterator type bar fDevices ports).2.space = ports.space ∧
    ∀ bus < NE_BUS_COUNT,
      (iterator type bar fDevices ports).1 bus = lastOf ports.space type (probes bar bus) (fDevices bus) ∧
      (probes bar bus).map PciDevice.selected = functionsBelow bus 32 ++ functionsBelow (bus ||| 1) 1 := by
  have front := @iterator_front type bar NE_BUS_COUNT (fDevices, ports)
  have same : iterator type bar fDevices ports =
      (List.range NE_BUS_COUNT).foldl (fun s bus => (probes bar bus).foldl (probeFunction type bus) s)
        (fDevices, ports) := by
    unfold iterator
    simp only [foldl_bus]
  obtain ⟨space, entries⟩ := front
  rw [same]
  refine ⟨space, fun bus onBus => ⟨?_, probes_selected⟩⟩
  rw [entries bus, if_pos onBus]

end Iterator

end Ne.Kernel.Pci
