import NeKernel.Storage.SectorCounts

/-!
# Transfers of the PIO driver

The driver beside an ATA drive that moves sectors through its data port. `boot_ata_read` and `boot_ata_write` of the
boot loader write to the same ports and move the same words.
-/

namespace Ne.Kernel.Storage
open ByteMem Loops

/-! ## The drive -/

/-- What a drive does with its data port. `left` counts the words or the sectors that are to come. -/
inductive DataPort where
  | idle
  | reading (place : UIntPtr) (left : ℕ)
  | writing (place : UIntPtr) (left : ℕ) (held : List Byte)

structure AtaDrive where
  disk : Mem 64
  count : Byte
  lba0 : Byte
  lba1 : Byte
  lba2 : Byte
  select : Byte
  port : DataPort

namespace AtaDrive

/-- A count of zero stands for 256 sectors. -/
def sectors (d : AtaDrive) : ℕ := if d.count = 0 then 256 else d.count.toNat

def sector (d : AtaDrive) : ℕ :=
  d.lba0.toNat + 2 ^ 8 * d.lba1.toNat + 2 ^ 16 * d.lba2.toNat + 2 ^ 24 * (d.select.toNat % 16)

def place (d : AtaDrive) : UIntPtr := BitVec.ofNat 64 (512 * d.sector)

/-- A command ends the transfer that the drive is in. -/
def command (d : AtaDrive) (code : Byte) : AtaDrive :=
  if code = ATA_CMD_READ_PIO.setWidth 8 then { d with port := .reading d.place (256 * d.sectors) }
  else if code = ATA_CMD_WRITE_PIO.setWidth 8 then { d with port := .writing d.place d.sectors [] }
  else d

/-- `rt_out8` to one of the ports from `io` on. -/
def out8 (io : BitVec 16) (d : AtaDrive) (write : PortWrite) : AtaDrive :=
  let value := write.value.setWidth 8
  if write.port = io + ATA_REG.SEC_COUNT0 then { d with count := value }
  else if write.port = io + ATA_REG.LBA0 then { d with lba0 := value }
  else if write.port = io + ATA_REG.LBA1 then { d with lba1 := value }
  else if write.port = io + ATA_REG.LBA2 then { d with lba2 := value }
  else if write.port = io + ATA_REG.HDDEVSEL then { d with select := value }
  else if write.port = io + ATA_REG.COMMAND then d.command value
  else d

/-- The word that `rt_in16` finds. The low byte comes first. -/
def word (d : AtaDrive) : BitVec 16 :=
  match d.port with
  | .reading place _ => d.disk (place + 1) ++ d.disk place
  | _ => 0

def afterIn (d : AtaDrive) : AtaDrive :=
  match d.port with
  | .reading place left => { d with port := if left ≤ 1 then .idle else .reading (place + 2) (left - 1) }
  | _ => d

/-- `rt_out16`. A sector goes to the disk when it is whole. -/
def out16 (d : AtaDrive) (word : BitVec 16) : AtaDrive :=
  match d.port with
  | .writing place left held =>
      let held := held ++ [word.setWidth 8, (word >>> 8).setWidth 8]
      if held.length < 512 then { d with port := .writing place left held }
      else { d with
        disk := write d.disk place held
        port := if left ≤ 1 then .idle else .writing (place + 512) (left - 1) [] }
  | _ => d

def placed (io : BitVec 16) (d : AtaDrive) (writes : List PortWrite) : AtaDrive := writes.foldl (out8 io) d

/-- The words in the order in which they are read. -/
def data (d : AtaDrive) (k : ℕ) : BitVec 16 := (afterIn^[k] d).word

end AtaDrive

/-- The stores of a transfer, one after the other. -/
def storeAll (stores : List (UIntPtr × Byte)) (mem : Memory) : Memory :=
  stores.foldl (fun mem store => write mem store.1 [store.2]) mem

/-- The words of a buffer, the last one padded. -/
def wordsOf (size : SizeT) : ℕ := (size.toNat + 1) / 2

/-- `drv_pio_std_read` beside a drive that gets ready. -/
def pioReadOn (fuel : ℕ) (lba : Lba) (io : BitVec 16) (master : Byte) (buf : UIntPtr) (size : SizeT) (mem : Memory)
    (d : AtaDrive) : Option (Memory × AtaDrive) :=
  let ready := d.placed io (drvPioStdRead fuel d.data lba io master buf kATASectorSize size).writes
  (drvPioStdRead fuel ready.data lba io master buf kATASectorSize size).stores.map fun stores =>
    (storeAll stores mem, AtaDrive.afterIn^[stores.length / 2] ready)

/-- `drv_pio_std_write` beside a drive that gets ready. -/
def pioWriteOn (fuel : ℕ) (lba : Lba) (io : BitVec 16) (master : Byte) (buf : UIntPtr) (size : SizeT) (mem : Memory)
    (d : AtaDrive) : Option AtaDrive :=
  let writing := drvPioStdWrite fuel mem lba io master buf kATASectorSize size
  writing.sent.map fun sent => sent.foldl AtaDrive.out16 (d.placed io writing.writes)

section Loops
variable {size : SizeT} {data : ℕ → BitVec 16} {buf : UIntPtr} {mem : Memory} {k left : ℕ}

/-- What is stored for the words from `k` on. -/
def storesFrom (data : ℕ → BitVec 16) (buf : UIntPtr) : ℕ → ℕ → List (UIntPtr × Byte)
  | 0, _ => []
  | left + 1, k =>
      [(buf + BitVec.ofNat 64 (2 * k), (data k).setWidth 8),
        (buf + BitVec.ofNat 64 (2 * k) + 1, (data k >>> 8).setWidth 8)] ++ storesFrom data buf left (k + 1)

theorem offset_toNat (small : 2 * k < 2 ^ 64) : (BitVec.ofNat 64 (2 * k)).toNat = 2 * k := by
  rw [BitVec.toNat_ofNat, Nat.mod_eq_of_lt small]

theorem offset_succ : BitVec.ofNat 64 (2 * k) + 2 = BitVec.ofNat 64 (2 * (k + 1)) := by
  rw [Nat.mul_succ, BitVec.ofNat_add]
  rfl

theorem pioRead_stores {stores : List (UIntPtr × Byte)} (small : size.toNat < 2 ^ 63) (here : k + left = wordsOf size) :
    loop (pioReadRound data buf size) (left + 1) ⟨BitVec.ofNat 64 (2 * k), k, stores⟩ =
      some (stores ++ storesFrom data buf left k) := by
  unfold wordsOf at here
  induction left generalizing k stores with
  | zero =>
      rw [storesFrom, List.append_nil]
      refine loop_done (if_neg ?_)
      rw [BitVec.lt_def, offset_toNat (by omega)]
      omega
  | succ left ih =>
      have inside : BitVec.ofNat 64 (2 * k) < size := by
        rw [BitVec.lt_def, offset_toNat (by omega)]
        omega
      have turn : pioReadRound data buf size ⟨BitVec.ofNat 64 (2 * k), k, stores⟩ =
          .again ⟨BitVec.ofNat 64 (2 * k) + 2, k + 1, _⟩ := if_pos inside
      rw [offset_succ] at turn
      rw [loop_again turn, ih (by omega), storesFrom, List.append_assoc]

/-- The words that are sent from `k` on. -/
def sentFrom (mem : Memory) (buf : UIntPtr) (size : SizeT) : ℕ → ℕ → List (BitVec 16)
  | 0, _ => []
  | left + 1, k =>
      let low := mem (buf + BitVec.ofNat 64 (2 * k))
      let high := if 2 * k + 1 < size.toNat then mem (buf + BitVec.ofNat 64 (2 * k) + 1) else 0
      (high ++ low) :: sentFrom mem buf size left (k + 1)

theorem packed_eq (high low : Byte) : (high.setWidth 16 <<< 8) ||| low.setWidth 16 = high ++ low := by
  apply BitVec.eq_of_getLsbD_eq
  intro i bound
  rw [BitVec.getLsbD_append, BitVec.getLsbD_or, BitVec.getLsbD_shiftLeft, BitVec.getLsbD_setWidth,
    BitVec.getLsbD_setWidth]
  by_cases low8 : i < 8
  · simp [low8, show i < 16 by omega]
  · simp [low8, show i < 16 by omega, show i - 8 < 16 by omega, BitVec.getLsbD_of_ge low i (by omega)]

theorem pioWrite_sent {sent : List (BitVec 16)} (small : size.toNat < 2 ^ 63) (here : k + left = wordsOf size) :
    loop (pioWriteRound mem buf size) (left + 1) ⟨BitVec.ofNat 64 (2 * k), sent⟩ =
      some (sent ++ sentFrom mem buf size left k) := by
  unfold wordsOf at here
  induction left generalizing k sent with
  | zero =>
      rw [sentFrom, List.append_nil]
      refine loop_done (if_neg ?_)
      rw [BitVec.lt_def, offset_toNat (by omega)]
      omega
  | succ left ih =>
      have place := @offset_toNat k (by omega)
      have inside : BitVec.ofNat 64 (2 * k) < size := by
        rw [BitVec.lt_def, place]
        omega
      have odd : BitVec.ofNat 64 (2 * k) + 1 < size ↔ 2 * k + 1 < size.toNat := by
        have next : (BitVec.ofNat 64 (2 * k) + 1).toNat = 2 * k + 1 := by
          rw [BitVec.toNat_add, place, show (1 : BitVec 64).toNat = 1 from rfl, Nat.mod_eq_of_lt (by omega)]
        rw [BitVec.lt_def, next]
      have turn : pioWriteRound mem buf size ⟨BitVec.ofNat 64 (2 * k), sent⟩ =
          .again ⟨BitVec.ofNat 64 (2 * k) + 2, _⟩ := if_pos inside
      rw [offset_succ, packed_eq] at turn
      rw [loop_again turn, ih (by omega), sentFrom, List.append_assoc]
      simp only [odd]
      rfl

end Loops

/-! ## The placement -/

section Placement
variable {io : BitVec 16} {d : AtaDrive} {lba : Lba} {master : Byte} {size sectors : SizeT} {code : BitVec 64}

/-- Where a transfer goes to. The high byte of the sector does not arrive. -/
def placeOf (lba : Lba) : UIntPtr := BitVec.ofNat 64 (512 * ((lba / kATASectorSize).toNat % 2 ^ 28))

/-- The registers of the drive behind the writes of a placement. -/
def AtaDrive.registers (d : AtaDrive) (lba : Lba) (master : Byte) (sectors : SizeT) : AtaDrive :=
  { d with
    count := sectors.setWidth 8
    lba0 := (lba &&& 0xFF).setWidth 8
    lba1 := (lba >>> 8).setWidth 8
    lba2 := (lba >>> 16).setWidth 8
    select := ((if master = 0 then (0xE0 : BitVec 64) else 0xF0) ||| ((lba >>> 24) &&& 0x0F)).setWidth 8 }

section Ports
variable {register : BitVec 16} {value : BitVec 64}

theorem out8_port : d.out8 io ⟨io + register, value⟩ =
    if register = ATA_REG.SEC_COUNT0 then { d with count := value.setWidth 8 }
    else if register = ATA_REG.LBA0 then { d with lba0 := value.setWidth 8 }
    else if register = ATA_REG.LBA1 then { d with lba1 := value.setWidth 8 }
    else if register = ATA_REG.LBA2 then { d with lba2 := value.setWidth 8 }
    else if register = ATA_REG.HDDEVSEL then { d with select := value.setWidth 8 }
    else if register = ATA_REG.COMMAND then d.command (value.setWidth 8)
    else d := by
  simp only [AtaDrive.out8, BitVec.add_right_inj]

theorem out8_count : d.out8 io ⟨io + ATA_REG.SEC_COUNT0, value⟩ = { d with count := value.setWidth 8 } := by
  rw [out8_port, if_pos rfl]

theorem out8_lba0 : d.out8 io ⟨io + ATA_REG.LBA0, value⟩ = { d with lba0 := value.setWidth 8 } := by
  rw [out8_port, if_neg (by decide), if_pos rfl]

theorem out8_lba1 : d.out8 io ⟨io + ATA_REG.LBA1, value⟩ = { d with lba1 := value.setWidth 8 } := by
  rw [out8_port, if_neg (by decide), if_neg (by decide), if_pos rfl]

theorem out8_lba2 : d.out8 io ⟨io + ATA_REG.LBA2, value⟩ = { d with lba2 := value.setWidth 8 } := by
  rw [out8_port, if_neg (by decide), if_neg (by decide), if_neg (by decide), if_pos rfl]

theorem out8_select : d.out8 io ⟨io + ATA_REG.HDDEVSEL, value⟩ = { d with select := value.setWidth 8 } := by
  rw [out8_port, if_neg (by decide), if_neg (by decide), if_neg (by decide), if_neg (by decide), if_pos rfl]

theorem out8_command : d.out8 io ⟨io + ATA_REG.COMMAND, value⟩ = d.command (value.setWidth 8) := by
  rw [out8_port, if_neg (by decide), if_neg (by decide), if_neg (by decide), if_neg (by decide), if_neg (by decide),
    if_pos rfl]

/-- The drive has no register for the high byte of a sector. -/
theorem out8_lba3 : d.out8 io ⟨io + ATA_REG.LBA3, value⟩ = d := by
  rw [out8_port, if_neg (by decide), if_neg (by decide), if_neg (by decide), if_neg (by decide), if_neg (by decide),
    if_neg (by decide)]

end Ports

theorem placed_eq :
    d.placed io (selectBus io :: placeTransfer lba io master sectors ++ [⟨io + ATA_REG.COMMAND, code⟩]) =
    (d.registers lba master sectors).command (code.setWidth 8) := by
  simp only [AtaDrive.placed, selectBus, placeTransfer, List.cons_append, List.nil_append, List.foldl_cons,
    List.foldl_nil, out8_count, out8_lba0, out8_lba1, out8_lba2, out8_lba3, out8_select, out8_command]
  rfl

theorem registers_sectors (small : size.toNat < 512 * 256) :
    (d.registers lba master (pioSectors kATASectorSize size)).sectors = size.toNat / 512 + 1 := by
  have count : (pioSectors kATASectorSize size).toNat = size.toNat / 512 + 1 := by
    have sector : kATASectorSize.toNat = 512 := rfl
    rw [pioSectors, BitVec.toNat_udiv, BitVec.toNat_add, sector]
    omega
  have low : ((pioSectors kATASectorSize size).setWidth 8).toNat = (size.toNat / 512 + 1) % 256 := by
    rw [BitVec.toNat_setWidth, count]
  show (if (pioSectors kATASectorSize size).setWidth 8 = 0 then 256 else
    ((pioSectors kATASectorSize size).setWidth 8).toNat) = _
  split
  · next zero =>
      rw [zero] at low
      have none : (0 : BitVec 8).toNat = 0 := rfl
      omega
  · next some =>
      have positive : ((pioSectors kATASectorSize size).setWidth 8).toNat ≠ 0 :=
        fun zero => some (BitVec.eq_of_toNat_eq zero)
      omega

theorem registers_sector : (d.registers lba master sectors).sector = lba.toNat % 2 ^ 28 := by
  have nibble : ((lba >>> 24) &&& 0x0F : BitVec 64).toNat = lba.toNat / 2 ^ 24 % 16 := by
    rw [BitVec.toNat_and, BitVec.toNat_ushiftRight, Nat.shiftRight_eq_div_pow]
    exact Nat.and_two_pow_sub_one_eq_mod _ 4
  have byte : (lba &&& 0xFF : BitVec 64).toNat = lba.toNat % 256 := by
    rw [BitVec.toNat_and]
    exact Nat.and_two_pow_sub_one_eq_mod _ 8
  have select (c : BitVec 64) (low : c.toNat % 16 = 0) :
      ((c ||| ((lba >>> 24) &&& 0x0F)).setWidth 8).toNat % 16 = lba.toNat / 2 ^ 24 % 16 := by
    have parts : (c ||| ((lba >>> 24) &&& 0x0F)).toNat % 16 = lba.toNat / 2 ^ 24 % 16 := by
      have power : (16 : ℕ) = 2 ^ 4 := rfl
      rw [BitVec.toNat_or, nibble, power, Nat.or_mod_two_pow, ← power, low, Nat.zero_or, Nat.mod_mod]
    rw [BitVec.toNat_setWidth]
    omega
  unfold AtaDrive.sector AtaDrive.registers
  dsimp only
  rw [select _ (by split <;> rfl), BitVec.toNat_setWidth, BitVec.toNat_setWidth, BitVec.toNat_setWidth, byte,
    BitVec.toNat_ushiftRight, BitVec.toNat_ushiftRight, Nat.shiftRight_eq_div_pow, Nat.shiftRight_eq_div_pow]
  omega

theorem registers_place : (d.registers (lba / kATASectorSize) master sectors).place = placeOf lba := by
  rw [AtaDrive.place, registers_sector, placeOf]

end Placement

/-! ## The bytes of the words -/

section Words
variable {high low : Byte} {words : List (BitVec 16)} {mem : Memory} {buf a : UIntPtr} {size : SizeT} {k left : ℕ}

/-- The bytes that words stand for in memory and on the disk. -/
def bytesOf (words : List (BitVec 16)) : List Byte :=
  words.flatMap fun word : BitVec 16 => [word.setWidth 8, (word >>> 8).setWidth 8]

theorem low_of_word : (high ++ low).setWidth 8 = low := by
  apply BitVec.eq_of_toNat_eq
  rw [BitVec.toNat_setWidth, BitVec.toNat_append, Nat.shiftLeft_eq]
  have bound := low.isLt
  rw [Nat.mul_comm, ← Nat.two_pow_add_eq_or_of_lt bound]
  omega

theorem high_of_word : ((high ++ low) >>> 8).setWidth 8 = high := by
  apply BitVec.eq_of_toNat_eq
  rw [BitVec.toNat_setWidth, BitVec.toNat_ushiftRight, BitVec.toNat_append, Nat.shiftLeft_eq, Nat.shiftRight_eq_div_pow]
  have bound := low.isLt
  have top := high.isLt
  rw [Nat.mul_comm, ← Nat.two_pow_add_eq_or_of_lt bound]
  omega

theorem bytesOf_cons {word : BitVec 16} :
    bytesOf (word :: words) = [word.setWidth 8, (word >>> 8).setWidth 8] ++ bytesOf words := rfl

theorem bytesOf_append {rest : List (BitVec 16)} : bytesOf (words ++ rest) = bytesOf words ++ bytesOf rest :=
  List.flatMap_append

theorem bytesOf_length : (bytesOf words).length = 2 * words.length := by
  induction words with
  | nil => rfl
  | cons word words ih =>
      rw [bytesOf_cons, List.length_append, ih]
      simp only [List.length_cons, List.length_nil]
      omega

theorem write_pair {m : Mem 64} {x y : Byte} : write (write m a [x]) (a + 1) [y] = write m a [x, y] :=
  @write_add 64 m a [x] [y] (by simp)

theorem read_two {m : Mem 64} {n : ℕ} : read m a (2 + n) = [m a, m (a + 1)] ++ read m (a + 2) n := by
  rw [read_add]
  congr 1
  show [m (a + 0#64), m (a + 1)] = _
  rw [BitVec.add_zero]

theorem sent_bytes (here : k + left = wordsOf size) : bytesOf (sentFrom mem buf size left k) =
    read mem (buf + BitVec.ofNat 64 (2 * k)) (size.toNat - 2 * k) ++
      List.replicate (2 * left - (size.toNat - 2 * k)) 0 := by
  unfold wordsOf at here
  induction left generalizing k with
  | zero =>
      have none : size.toNat - 2 * k = 0 := by omega
      rw [none]
      rfl
  | succ left ih =>
      rw [sentFrom, bytesOf_cons, low_of_word, high_of_word, ih (by omega), ← offset_succ, ← BitVec.add_assoc]
      split
      · next more =>
          have bytes : size.toNat - 2 * k = 2 + (size.toNat - 2 * (k + 1)) := by omega
          have padding : 2 * (left + 1) - (2 + (size.toNat - 2 * (k + 1))) = 2 * left - (size.toNat - 2 * (k + 1)) := by
            omega
          rw [bytes, padding, read_two, List.append_assoc]
      · next last =>
          have one : size.toNat - 2 * k = 1 := by omega
          have none : size.toNat - 2 * (k + 1) = 0 := by omega
          have end' : left = 0 := by omega
          subst end'
          rw [one, none]
          show _ = [mem (buf + BitVec.ofNat 64 (2 * k) + 0#64), 0]
          rw [BitVec.add_zero]
          rfl

theorem storeAll_append {stores rest : List (UIntPtr × Byte)} :
    storeAll (stores ++ rest) mem = storeAll rest (storeAll stores mem) := List.foldl_append

/-- The words that come from a drive that reads are stored as the bytes of its disk. -/
theorem stored_bytes {data : ℕ → BitVec 16} {disk : Mem 64} {place : UIntPtr} (fits : 2 * (k + left) < 2 ^ 64)
    (words : ∀ j < k + left,
      data j = disk (place + BitVec.ofNat 64 (2 * j) + 1) ++ disk (place + BitVec.ofNat 64 (2 * j))) :
    storeAll (storesFrom data buf left k) mem =
      write mem (buf + BitVec.ofNat 64 (2 * k)) (read disk (place + BitVec.ofNat 64 (2 * k)) (2 * left)) := by
  induction left generalizing k mem with
  | zero => rfl
  | succ left ih =>
      rw [storesFrom, storeAll_append, ih (by omega) fun j less => words j (by omega), words k (by omega), low_of_word,
        high_of_word]
      show write (write (write mem _ [_]) _ [_]) _ _ = _
      have length : 2 * (left + 1) = 2 + 2 * left := by ring
      rw [write_pair, length, read_two, ← offset_succ, ← BitVec.add_assoc, ← BitVec.add_assoc]
      exact write_add (by simp only [List.length_cons, List.length_nil, read_length]; omega)

end Words

/-! ## The drive at work -/

section Serving
variable {d : AtaDrive} {disk : Mem 64} {place : UIntPtr} {total j : ℕ} {sent words : List (BitVec 16)}

theorem afterIn_iterate (reads : d.port = .reading place total) (some : 0 < total) (bound : j ≤ total) :
    AtaDrive.afterIn^[j] d =
      { d with port := if j = total then .idle else .reading (place + BitVec.ofNat 64 (2 * j)) (total - j) } := by
  induction j with
  | zero =>
      rw [if_neg some.ne, Nat.sub_zero]
      show d = { d with port := .reading (place + 0#64) total }
      rw [BitVec.add_zero, ← reads]
  | succ j ih =>
      rw [Function.iterate_succ_apply', ih (by omega), if_neg (by omega)]
      show { d with port := if total - j ≤ 1 then DataPort.idle else .reading _ _ } = _
      have last : total - j ≤ 1 ↔ j + 1 = total := by omega
      simp only [last, BitVec.add_assoc, offset_succ, Nat.sub_sub]

theorem data_eq (reads : d.port = .reading place total) (bound : j < total) :
    d.data j = d.disk (place + BitVec.ofNat 64 (2 * j) + 1) ++ d.disk (place + BitVec.ofNat 64 (2 * j)) := by
  unfold AtaDrive.data
  rw [afterIn_iterate reads (by omega) bound.le, if_neg bound.ne]
  rfl

/-- The whole sectors of what was sent are on the disk, the rest waits in the drive. -/
def fed (start : AtaDrive) (place : UIntPtr) (total : ℕ) (bytes : List Byte) : AtaDrive :=
  let whole := bytes.length / 512
  { start with
    disk := write start.disk place (bytes.take (512 * whole))
    port := if whole = total then .idle
      else .writing (place + BitVec.ofNat 64 (512 * whole)) (total - whole) (bytes.drop (512 * whole)) }

theorem fed_none (waits : d.port = .writing place total []) (some : 0 < total) : fed d place total [] = d := by
  have start : fed d place total [] = { d with
    disk := write d.disk place []
    port := if 0 = total then .idle else .writing (place + 0#64) total [] } := rfl
  rw [start, if_neg some.ne, BitVec.add_zero, ← waits]
  rfl

theorem out16_writing {left : ℕ} {held : List Byte} {word : BitVec 16} (waits : d.port = .writing place left held) :
    d.out16 word =
      if (held ++ bytesOf [word]).length < 512 then { d with port := .writing place left (held ++ bytesOf [word]) }
      else { d with
        disk := write d.disk place (held ++ bytesOf [word])
        port := if left ≤ 1 then .idle else .writing (place + 512) (left - 1) [] } := by
  unfold AtaDrive.out16
  rw [waits]
  rfl

theorem fed_word {bytes : List Byte} {word : BitVec 16} (even : bytes.length % 2 = 0)
    (room : bytes.length < 512 * total) (small : 512 * total ≤ 2 ^ 64) :
    (fed d place total bytes).out16 word = fed d place total (bytes ++ bytesOf [word]) := by
  have pair : (bytesOf [word]).length = 2 := bytesOf_length
  have length : (bytes ++ bytesOf [word]).length = bytes.length + 2 := by rw [List.length_append, pair]
  have front := Nat.mul_div_le bytes.length 512
  have held : bytes.drop (512 * (bytes.length / 512)) ++ bytesOf [word] =
      (bytes ++ bytesOf [word]).drop (512 * (bytes.length / 512)) := (List.drop_append_of_le_length front).symm
  have heldLength : ((bytes ++ bytesOf [word]).drop (512 * (bytes.length / 512))).length = bytes.length % 512 + 2 := by
    rw [List.length_drop, length]
    omega
  rw [out16_writing (if_neg (by omega)), held, heldLength]
  by_cases more : bytes.length % 512 + 2 < 512
  · -- the sector is still not whole
    have same : (bytes ++ bytesOf [word]).length / 512 = bytes.length / 512 := by omega
    unfold fed
    dsimp only
    rw [if_pos more, same, if_neg (by omega), List.take_append_of_le_length front]
  · -- the sector is whole with this word and goes to the disk behind the others
    have next : (bytes ++ bytesOf [word]).length / 512 = bytes.length / 512 + 1 := by omega
    have all : 512 * (bytes.length / 512 + 1) = (bytes ++ bytesOf [word]).length := by omega
    have frontLength : (bytes.take (512 * (bytes.length / 512))).length = 512 * (bytes.length / 512) :=
      List.length_take_of_le front
    have joined : write (write d.disk place (bytes.take (512 * (bytes.length / 512))))
        (place + BitVec.ofNat 64 (512 * (bytes.length / 512)))
        ((bytes ++ bytesOf [word]).drop (512 * (bytes.length / 512))) =
        write d.disk place (bytes ++ bytesOf [word]) := by
      have start := @write_add 64 d.disk place (bytes.take (512 * (bytes.length / 512)))
        ((bytes ++ bytesOf [word]).drop (512 * (bytes.length / 512))) (by rw [frontLength, heldLength]; omega)
      rwa [frontLength, ← held, ← List.append_assoc, List.take_append_drop, held] at start
    have last : total - bytes.length / 512 ≤ 1 ↔ bytes.length / 512 + 1 = total := by omega
    have step : place + BitVec.ofNat 64 (512 * (bytes.length / 512)) + 512 =
        place + BitVec.ofNat 64 (512 * (bytes.length / 512 + 1)) := by
      rw [BitVec.add_assoc, Nat.mul_succ, BitVec.ofNat_add]
      rfl
    unfold fed
    dsimp only
    rw [if_neg more, next, all, List.take_length, List.drop_length, joined, ← all, step, Nat.sub_sub]
    simp only [last]

theorem fed_words {bytes : List Byte} (even : bytes.length % 2 = 0)
    (room : bytes.length + 2 * words.length ≤ 512 * total) (small : 512 * total ≤ 2 ^ 64) :
    words.foldl AtaDrive.out16 (fed d place total bytes) = fed d place total (bytes ++ bytesOf words) := by
  induction words generalizing bytes with
  | nil => rw [List.foldl_nil, bytesOf, List.flatMap_nil, List.append_nil]
  | cons word words ih =>
      have pair : (bytes ++ bytesOf [word]).length = bytes.length + 2 := by
        rw [List.length_append, bytesOf_length]
        rfl
      rw [List.length_cons] at room
      rw [List.foldl_cons, fed_word even (by omega) small, ih (by omega) (by omega), List.append_assoc,
        ← bytesOf_append]
      rfl

end Serving

section Transfers
variable {d : AtaDrive} {lba : Lba} {io : BitVec 16} {master : Byte} {buf : UIntPtr} {size : SizeT} {mem : Memory}

/-- The drive once a transfer is placed. -/
def AtaDrive.placedAt (d : AtaDrive) (lba : Lba) (master : Byte) (size : SizeT) (port : DataPort) : AtaDrive :=
  { d.registers (lba / kATASectorSize) master (pioSectors kATASectorSize size) with port := port }

theorem placed_read (small : size.toNat < 512 * 256) {fuel : ℕ} {data : ℕ → BitVec 16} :
    d.placed io (drvPioStdRead fuel data lba io master buf kATASectorSize size).writes =
      d.placedAt lba master size (.reading (placeOf lba) (256 * (size.toNat / 512 + 1))) := by
  rw [drvPioStdRead, placed_eq, AtaDrive.command, if_pos (by rfl), registers_place, registers_sectors small]
  rfl

theorem placed_write (small : size.toNat < 512 * 256) {fuel : ℕ} :
    d.placed io (drvPioStdWrite fuel mem lba io master buf kATASectorSize size).writes =
      d.placedAt lba master size (.writing (placeOf lba) (size.toNat / 512 + 1) []) := by
  rw [drvPioStdWrite, placed_eq, AtaDrive.command, if_neg (by decide), if_pos (by rfl), registers_place,
    registers_sectors small]
  rfl

theorem storesFrom_length {data : ℕ → BitVec 16} {left k : ℕ} : (storesFrom data buf left k).length / 2 = left := by
  have twice : (storesFrom data buf left k).length = 2 * left := by
    induction left generalizing k with
    | zero => rfl
    | succ left ih =>
        rw [storesFrom, List.length_append, ih]
        simp only [List.length_cons, List.length_nil]
        omega
  omega

/-- A read brings the bytes of the disk, one more than it was asked for if the size is odd. The drive has asked for a
sector more than the driver takes from it, so it is done only after a size that is one byte short of whole sectors. -/
theorem pioReadOn_some {fuel : ℕ} (small : size.toNat < 512 * 256) (enough : wordsOf size < fuel) : ∃ after,
    pioReadOn fuel lba io master buf size mem d =
      some (write mem buf (read d.disk (placeOf lba) (2 * wordsOf size)), after) ∧
    after.disk = d.disk ∧
    after.port = if size.toNat % 512 = 511 then .idle
      else .reading (placeOf lba + BitVec.ofNat 64 (2 * wordsOf size))
        (256 * (size.toNat / 512 + 1) - wordsOf size) := by
  have bound : wordsOf size ≤ 256 * (size.toNat / 512 + 1) := by
    unfold wordsOf
    omega
  have ends : wordsOf size = 256 * (size.toNat / 512 + 1) ↔ size.toNat % 512 = 511 := by
    unfold wordsOf
    omega
  let ready := d.placedAt lba master size (.reading (placeOf lba) (256 * (size.toNat / 512 + 1)))
  have reads : ready.port = .reading (placeOf lba) (256 * (size.toNat / 512 + 1)) := rfl
  have stores := @pioRead_stores size ready.data buf 0 (wordsOf size) [] (by omega) (Nat.zero_add _)
  have bytes := @stored_bytes mem buf 0 (wordsOf size) ready.data d.disk (placeOf lba) (by omega)
    fun j less => data_eq reads (by omega)
  rw [List.nil_append] at stores
  refine ⟨AtaDrive.afterIn^[wordsOf size] ready, ?_, ?_, ?_⟩
  · unfold pioReadOn
    dsimp only
    rw [placed_read small]
    show (loop (pioReadRound ready.data buf size) fuel ⟨BitVec.ofNat 64 (2 * 0), 0, []⟩).map _ = _
    rw [(loop_steady _ _).mono stores enough, Option.map_some, storesFrom_length, bytes]
    show some (write mem (buf + 0#64) (read d.disk (placeOf lba + 0#64) _), _) = _
    rw [BitVec.add_zero, BitVec.add_zero]
  · rw [afterIn_iterate reads (by omega) bound]
    rfl
  · rw [afterIn_iterate reads (by omega) bound]
    simp only [ends]

/-- The bytes of a buffer, up to a whole word. -/
def padded (mem : Memory) (buf : UIntPtr) (size : SizeT) : List Byte :=
  read mem buf size.toNat ++ List.replicate (size.toNat % 2) 0

/-- A write brings only whole sectors to the disk. The drive waits for a sector more than the driver sends it, so it is
done only after a size that is one byte short of whole sectors, and the bytes behind the last whole sector stay in the
drive. -/
theorem pioWriteOn_some {fuel : ℕ} (small : size.toNat < 512 * 256) (enough : wordsOf size < fuel) : ∃ after,
    pioWriteOn fuel lba io master buf size mem d = some after ∧
    after.disk = write d.disk (placeOf lba) ((padded mem buf size).take (512 * ((size.toNat + 1) / 512))) ∧
    after.port = if size.toNat % 512 = 511 then .idle
      else .writing (placeOf lba + BitVec.ofNat 64 (512 * ((size.toNat + 1) / 512)))
        (size.toNat / 512 + 1 - (size.toNat + 1) / 512)
        ((padded mem buf size).drop (512 * ((size.toNat + 1) / 512))) := by
  have sent := @pioWrite_sent size buf mem 0 (wordsOf size) [] (by omega) (Nat.zero_add _)
  have bytes := @sent_bytes mem buf size 0 (wordsOf size) (Nat.zero_add _)
  have buffer : bytesOf (sentFrom mem buf size (wordsOf size) 0) = padded mem buf size := by
    have padding : 2 * wordsOf size - (size.toNat - 2 * 0) = size.toNat % 2 := by
      unfold wordsOf
      omega
    rw [bytes, padding, padded]
    show read mem (buf + 0#64) size.toNat ++ _ = _
    rw [BitVec.add_zero]
  have length : (padded mem buf size).length = size.toNat + size.toNat % 2 := by
    rw [padded, List.length_append, read_length, List.length_replicate]
  have whole : (padded mem buf size).length / 512 = (size.toNat + 1) / 512 := by omega
  have ends : (size.toNat + 1) / 512 = size.toNat / 512 + 1 ↔ size.toNat % 512 = 511 := by omega
  let ready := d.placedAt lba master size (.writing (placeOf lba) (size.toNat / 512 + 1) [])
  have waits : ready.port = .writing (placeOf lba) (size.toNat / 512 + 1) [] := rfl
  have words : 2 * (sentFrom mem buf size (wordsOf size) 0).length = size.toNat + size.toNat % 2 := by
    rw [← bytesOf_length, buffer, length]
  rw [List.nil_append] at sent
  refine ⟨fed ready (placeOf lba) (size.toNat / 512 + 1) (padded mem buf size), ?_, ?_, ?_⟩
  · unfold pioWriteOn
    dsimp only
    rw [placed_write small]
    show (loop (pioWriteRound mem buf size) fuel ⟨BitVec.ofNat 64 (2 * 0), []⟩).map _ = _
    rw [(loop_steady _ _).mono sent enough, Option.map_some]
    have run := @fed_words ready (placeOf lba) (size.toNat / 512 + 1) (sentFrom mem buf size (wordsOf size) 0) []
      rfl (by rw [words, List.length_nil]; omega) (by omega)
    rw [fed_none waits (Nat.succ_pos _), List.nil_append, buffer] at run
    exact congrArg some run
  · unfold fed
    rw [whole]
    rfl
  · unfold fed
    rw [whole]
    simp only [ends]

end Transfers

/-! ## Runs -/

inductive PioKind where
  | read
  | write

structure PioCall where
  kind : PioKind
  lba : Lba
  io : BitVec 16
  master : Byte
  buf : UIntPtr
  size : SizeT

namespace PioCall

def run (fuel : ℕ) (call : PioCall) (s : Memory × AtaDrive) : Option (Memory × AtaDrive) :=
  match call.kind with
  | .read => pioReadOn fuel call.lba call.io call.master call.buf call.size s.1 s.2
  | .write => (pioWriteOn fuel call.lba call.io call.master call.buf call.size s.1 s.2).map (s.1, ·)

/-- What a transfer amounts to on memory and a plain disk. -/
def effect (call : PioCall) (s : Memory × Mem 64) : Memory × Mem 64 :=
  match call.kind with
  | .read => (write s.1 call.buf (read s.2 (placeOf call.lba) (2 * wordsOf call.size)), s.2)
  | .write => (s.1, write s.2 (placeOf call.lba)
      ((padded s.1 call.buf call.size).take (512 * ((call.size.toNat + 1) / 512))))

def runAll (fuel : ℕ) : List PioCall → Memory × AtaDrive → Option (Memory × AtaDrive)
  | [], s => some s
  | call :: calls, s => (call.run fuel s).bind (runAll fuel calls)

end PioCall

section Runs
variable {fuel : ℕ} {call : PioCall} {s : Memory × AtaDrive}

theorem run_some (small : call.size.toNat < 512 * 256) (enough : 2 ^ 16 < fuel) : ∃ after,
    call.run fuel s = some after ∧
    (after.1, after.2.disk) = call.effect (s.1, s.2.disk) ∧
    (after.2.port = .idle ↔ call.size.toNat % 512 = 511) := by
  have rounds : wordsOf call.size < fuel := by
    unfold wordsOf
    omega
  unfold PioCall.run PioCall.effect
  cases call.kind with
  | read =>
      obtain ⟨after, result, disk, port⟩ := @pioReadOn_some s.2 call.lba call.io call.master call.buf call.size s.1
        fuel small rounds
      refine ⟨_, result, by rw [disk], ?_⟩
      rw [port]
      split <;> simp_all
  | write =>
      obtain ⟨after, result, disk, port⟩ := @pioWriteOn_some s.2 call.lba call.io call.master call.buf call.size s.1
        fuel small rounds
      refine ⟨_, congrArg (Option.map (s.1, ·)) result, by rw [disk], ?_⟩
      rw [port]
      split <;> simp_all

end Runs

end Ne.Kernel.Storage
