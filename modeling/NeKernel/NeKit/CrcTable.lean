import NeKernel.Lib.ReflectedCrc
import NeKernel.NeKit.Crc32

/-!
# The check sequence, bit by bit

The table of `Crc32.cpp` is that of the reflected polynomial, so its loop computes the reflected check.
-/

namespace Ne.Kernel
open ByteMem

def kCrcPolynomial : BitVec 32 := 0xEDB88320

/-- A turn of the loop. `Char` is signed. -/
def crcTurn (crc : BitVec 32) (char : Byte) : BitVec 32 :=
  (crc >>> 8) ^^^ polyOf ((crc ^^^ char.signExtend 32) &&& 0xFF)

def crcLoop (m : Memory) : Nat → UIntPtr → BitVec 32 → BitVec 32
  | 0, _, crc => crc
  | left + 1, inp, crc => crcLoop m left (inp + 1) (crcTurn crc (m inp))

/-- `ke_calculate_crc32` with its null test and its signed length. -/
def keCalculateCrc32At (m : Memory) (inp : UIntPtr) (len : BitVec 32) : BitVec 32 :=
  if inp = 0 then ~~~0 else ~~~(crcLoop m len.toInt.toNat inp 0xffffffff)

section Table

theorem kChecksumPolys_eq : kChecksumPolys =
    (List.range 256).map fun i => (ReflectedCrc.bitStep kCrcPolynomial)^[8] (BitVec.ofNat 32 i) := by
  decide +kernel

theorem polyOf_tabulates : ReflectedCrc.Tabulates kCrcPolynomial polyOf := by
  intro i below
  rw [polyOf, kChecksumPolys_eq, List.getD_eq_getElem _ _ (by simpa using below), List.getElem_map,
    List.getElem_range, BitVec.ofNat_toNat, BitVec.setWidth_eq]

/-- The sign of a character falls to the mask. -/
theorem crcTurn_eq (crc : BitVec 32) (char : Byte) : crcTurn crc char = crcStep crc char := by
  unfold crcTurn crcStep crcIndex
  congr 2
  apply BitVec.eq_of_getLsbD_eq
  intro i below
  rw [BitVec.getLsbD_and, BitVec.getLsbD_and]
  cases mask : (0xFF : BitVec 32).getLsbD i with
  | false => rw [Bool.and_false, Bool.and_false]
  | true =>
      have low : i < 8 := by
        have bit := ReflectedCrc.lowByte_getLsbD (w := 32) i below
        simpa using bit.symm.trans mask
      rw [BitVec.getLsbD_xor, BitVec.getLsbD_xor, BitVec.getLsbD_signExtend, BitVec.getLsbD_setWidth, if_pos low]

theorem crcLoop_eq (m : Memory) (left : Nat) (inp : UIntPtr) (crc : BitVec 32) :
    crcLoop m left inp crc = (read m inp left).foldl crcStep crc := by
  induction left generalizing inp crc with
  | zero => rfl
  | succ left ih =>
      have first : read m inp (left + 1) = m inp :: read m (inp + 1) left := by
        have split := read_add m inp 1 left
        rw [Nat.add_comm] at split
        simpa [ByteMem.read] using split
      rw [crcLoop, ih, first, List.foldl_cons, crcTurn_eq]

theorem crcFold_eq (crc : BitVec 32) (bytes : List Byte) :
    bytes.foldl crcStep crc = bytes.foldl (ReflectedCrc.byteStep kCrcPolynomial) crc :=
  ReflectedCrc.tableFold_eq (by decide) polyOf_tabulates crc bytes

end Table

/-- The check over memory is the one that the file systems use. -/
theorem keCalculateCrc32At_eq {m : Memory} {inp : UIntPtr} {len : BitVec 32} (live : inp ≠ 0) :
    keCalculateCrc32At m inp len = keCalculateCrc32 (read m inp len.toInt.toNat) := by
  rw [keCalculateCrc32At, if_neg live, crcLoop_eq, keCalculateCrc32]

theorem keCalculateCrc32At_check (m : Memory) (inp : UIntPtr) (live : inp ≠ 0) (bytes : List Byte)
    (short : bytes.length < 2 ^ 31) (stored : read m inp bytes.length = bytes) :
    keCalculateCrc32At m inp (BitVec.ofNat 32 bytes.length) =
      ReflectedCrc.check 0xEDB88320 0xFFFFFFFF 0xFFFFFFFF bytes := by
  have len : (BitVec.ofNat 32 bytes.length).toInt.toNat = bytes.length := by
    have whole : (BitVec.ofNat 32 bytes.length).toNat = bytes.length := by
      rw [BitVec.toNat_ofNat, Nat.mod_eq_of_lt (by omega)]
    rw [BitVec.toInt_eq_toNat_of_lt (by omega), whole, Int.toNat_natCast]
  rw [keCalculateCrc32At_eq live, len, stored, keCalculateCrc32, crcFold_eq, ReflectedCrc.check,
    BitVec.xor_comm]
  exact BitVec.allOnes_xor.symm

/-- Two characters, the second of them negative. -/
theorem keCalculateCrc32At_check_two :
    keCalculateCrc32At (write (fun _ => 0) 0x1000 [0x4E, 0xC5]) 0x1000 2 =
      ReflectedCrc.check 0xEDB88320 0xFFFFFFFF 0xFFFFFFFF [0x4E, 0xC5] :=
  keCalculateCrc32At_check (write (fun _ => 0) 0x1000 [0x4E, 0xC5]) 0x1000 (by decide) [0x4E, 0xC5] (by decide)
    (by decide +kernel)

end Ne.Kernel
