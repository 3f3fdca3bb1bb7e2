import NeKernel.Ldr.PEFLoader
import NeKernel.Ldr.PE32Loader
import NeKernel.Lib.WordLoops

/-!
# The boot loader's threads

The constructor of `BootThread.cpp`, in the AMD64 build with the loader's own `memset`, `memcpy` and
`strcmp`. The firmware is what `AllocatePages` answers. What is written is seen by later reads.
-/

namespace Ne.Kernel.Ldr
open ByteMem

namespace LdrOptionalHeader
def MajorLinkerVersion : Field := { off := 2, size := 1 }
def MinorLinkerVersion : Field := { off := 3, size := 1 }
def MajorSubsystemVersion : Field := { off := 48, size := 2 }
def MinorSubsystemVersion : Field := { off := 50, size := 2 }
end LdrOptionalHeader

namespace LdrSectionHeader
def VirtualSize : Field := { off := 8, size := 4 }
end LdrSectionHeader

end Ne.Kernel.Ldr

namespace Ne.Kernel.Boot
open ByteMem Access Ldr

def kHandoverMagic : BitVec 64 := 0xBADAA

/-- `HANDOVER_INFORMATION_STUB`. Its architecture only chooses a message. -/
def HandoverMagic : Field := { off := 0, size := 8 }
def HandoverArch : Field := { off := 16, size := 4 }

/-- `".text"`, `".ldr"` and `".botz"`. -/
def sectionForCode : List Byte := [0x2E, 0x74, 0x65, 0x78, 0x74]
def sectionForBootZ : List Byte := [0x2E, 0x6C, 0x64, 0x72]
def sectionForBootZAlt : List Byte := [0x2E, 0x62, 0x6F, 0x74, 0x7A]

/-- What the build defines: `__nekernel_allow_non_nekernel_pe` and `__DEBUG__`. -/
structure Build where
  allowNonNekernelPe : Bool
  debug : Bool

/-- `AllocatePages` at an address: whether the firmware gives that many pages there. -/
abbrev Firmware := UIntPtr → UIntPtr → Bool

/-- The loader's `memset` counts in words. -/
def memset (dst : UIntPtr) (byte : BitVec 32) (len : Nat) (m : Memory) : Traced Access Memory :=
  fillWords (leBytes 4 byte.toNat) len dst m

/-- The loader's `memcpy` counts in words. -/
def memcpy (dst src : UIntPtr) (len : Nat) (m : Memory) : Traced Access Memory := copyWords 4 len dst src m

/-- The loader's `strcmp` of a literal and the string at `a`: the place where they first differ. -/
def strcmpFrom (m : Memory) : List Byte → UIntPtr → Nat → Traced Access Nat
  | [], a, len => do
      let right ← fetchByte m a
      pure (if right = 0 then 0 else len)
  | left :: rest, a, len => do
      let right ← fetchByte m a
      if left = right then strcmpFrom m rest (a + 1) (len + 1) else pure len

def strcmp (m : Memory) (text : List Byte) (a : UIntPtr) : Traced Access Nat := strcmpFrom m text a 0

/-- The bytes that a section's place is cleared for. -/
def sectionSize (raw virtualSize : BitVec 64) : BitVec 64 := if raw > 0 then raw else virtualSize

def clearSection (m : Memory) (base sec : UIntPtr) : Traced Access Memory := do
  let virtualSize ← LdrSectionHeader.VirtualSize.fetch m sec
  let raw ← LdrSectionHeader.SizeOfRawData.fetch m sec
  let va ← LdrSectionHeader.VirtualAddress.fetch m sec
  memset (base + va) 0 (sectionSize raw virtualSize).toNat m

def copySection (m : Memory) (blob base sec : UIntPtr) : Traced Access Memory := do
  let va ← LdrSectionHeader.VirtualAddress.fetch m sec
  let ptr ← LdrSectionHeader.PointerToRawData.fetch m sec
  let raw ← LdrSectionHeader.SizeOfRawData.fetch m sec
  memcpy (base + va) (blob + ptr) raw.toNat m

def copyContent (m : Memory) (blob base sec : UIntPtr) : Traced Access Memory := do
  let raw ← LdrSectionHeader.SizeOfRawData.fetch m sec
  if raw > 0 then copySection m blob base sec else pure m

/-- What a section's name asks for: the start address behind it, none when it is `Stop`. -/
def inspectSection (m : Memory) (blob base opt sec start : UIntPtr) : Traced Access (Option UIntPtr) := do
  let code ← strcmp m sectionForCode sec
  if code = 0 then do
    let entry ← LdrOptionalHeader.AddressOfEntryPoint.fetch m opt
    pure (some (base + entry))
  else do
    let bootZ ← strcmp m sectionForBootZ sec
    let alt ← if bootZ = 0 then pure 0 else strcmp m sectionForBootZAlt sec
    if alt ≠ 0 then pure (some start)
    else do
      let ptr ← LdrSectionHeader.PointerToRawData.fetch m sec
      let magic ← HandoverMagic.fetch m (blob + ptr)
      if magic = kHandoverMagic then pure (some start)
      else do
        let _ ← HandoverArch.fetch m (blob + ptr)
        pure none

/-- What is printed of a section. -/
def printSection (build : Build) (m : Memory) (sec : UIntPtr) : Traced Access Unit := do
  let _ ← LdrSectionHeader.PointerToRawData.fetch m sec
  let _ ← if build.debug then strLenAt m sec else pure 0

/-- One turn of the loop over the sections. -/
def loadSection (build : Build) (blob base opt sec start : UIntPtr) (m : Memory) :
    Traced Access (Option UIntPtr × Memory) := do
  let cleared ← clearSection m base sec
  let copied ← copyContent cleared blob base sec
  let next ← inspectSection copied blob base opt sec start
  match next with
  | none => pure (none, copied)
  | some start => do
      let _ ← printSection build copied sec
      let last ← copySection copied blob base sec
      pure (some start, last)

def loadSections (build : Build) (blob base opt : UIntPtr) :
    Nat → UIntPtr → UIntPtr → Memory → Traced Access (Option UIntPtr × Memory)
  | 0, _, start, m => pure (some start, m)
  | left + 1, sec, start, m => do
      let turn ← loadSection build blob base opt sec start m
      match turn.1 with
      | none => pure (none, turn.2)
      | some next => loadSections build blob base opt left (sec + BitVec.ofNat 64 LdrSectionHeader.size) next turn.2

/-- The pages asked for, whose count is taken in 32 bits. -/
def imagePages (image : BitVec 64) : UIntPtr := ((image.setWidth 32 + 0xFFF) / 0x1000).setWidth 64

/-- The bytes of the window that the firmware gave. -/
def claimedSize (firmware : Firmware) (base : UIntPtr) (image : BitVec 64) : Nat :=
  if firmware base (imagePages image) then 4096 * (imagePages image).toNat else 0

/-- How a constructor ended: with a start address, or in `Stop`, and the window it had claimed. -/
structure Loading where
  start : Option UIntPtr
  memory : Memory
  claimed : Nat

/-- Behind the checks: the versions are printed, the window is asked for, and the sections follow. A
window that is already taken is only warned about. -/
def loadImage (build : Build) (firmware : Firmware) (m : Memory) (blob header opt : UIntPtr) :
    Traced Access Loading := do
  let sections ← LdrExecHeader.NumberOfSections.fetch m header
  let _ ← LdrOptionalHeader.MajorLinkerVersion.fetch m opt
  let _ ← LdrOptionalHeader.MinorLinkerVersion.fetch m opt
  let _ ← LdrOptionalHeader.MajorSubsystemVersion.fetch m opt
  let _ ← LdrOptionalHeader.MinorSubsystemVersion.fetch m opt
  let base ← LdrOptionalHeader.ImageBase.fetch m opt
  let image ← LdrOptionalHeader.SizeOfImage.fetch m opt
  let optSize ← LdrExecHeader.SizeOfOptionalHeader.fetch m header
  let loaded ← loadSections build blob base opt sections.toNat (opt + optSize) 0 m
  pure ⟨loaded.1, loaded.2, claimedSize firmware base image⟩

/-- Whether the subsystem is one that the build runs. -/
def checkSubsystem (build : Build) (m : Memory) (opt : UIntPtr) : Traced Access Bool :=
  if build.allowNonNekernelPe then pure true
  else do
    let subsystem ← LdrOptionalHeader.Subsystem.fetch m opt
    pure (subsystem = kNeKernelPESubsystem)

/-- The PE32+ branch. -/
def loadPe (build : Build) (firmware : Firmware) (m : Memory) (blob : UIntPtr) : Traced Access Loading := do
  let header ← ldrFindExecHeader m blob
  let opt ← ldrFindOptExecHeader m blob
  if header = 0 ∨ opt = 0 then pure ⟨some 0, m, 0⟩
  else do
    let machine ← LdrExecHeader.Machine.fetch m header
    if machine ≠ kPeMachineAMD64 then pure ⟨some 0, m, 0⟩
    else do
      let signature ← LdrExecHeader.Signature.fetch m header
      if signature ≠ kPeSignature then pure ⟨some 0, m, 0⟩
      else do
        let runs ← checkSubsystem build m opt
        if runs then loadImage build firmware m blob header opt else pure ⟨some 0, m, 0⟩

/-- The constructor, with the start address that it leaves. -/
def bootThread (build : Build) (firmware : Firmware) (m : Memory) (blob : UIntPtr) : Traced Access Loading :=
  if blob = 0 then pure ⟨some 0, m, 0⟩
  else do
    let pe ← magicIs m blob [kMagMz0, kMagMz1]
    if pe then loadPe build firmware m blob
    else do
      -- Either way nothing is loaded: the container is not supported here.
      let _ ← magicIs m blob (kPefMagic.take 4)
      pure ⟨some 0, m, 0⟩

end Ne.Kernel.Boot
