import NeKernel.Hal.PhysicalMemory
import NeKernel.Lib.RadixTable

/-!
# AMD64 paging

`HalPagingMgr.cpp`, with the tables accessed at their physical addresses and the root in `cr3`
passed as an argument. TLB invalidation has no effect on the tables.
-/

namespace Ne.Kernel.HAL
open ByteMem

def kMMFlagsPresent : BitVec 32 := 1#32 <<< 1
def kMMFlagsWr : BitVec 32 := 1#32 <<< 2
def kMMFlagsUser : BitVec 32 := 1#32 <<< 3
def kMMFlagsNX : BitVec 32 := 1#32 <<< 4
def kMMFlagsPCD : BitVec 32 := 1#32 <<< 5
def kMMFlagsPwt : BitVec 32 := 1#32 <<< 6

def kEntries : Nat := 512
def kMask9 : UIntPtr := 0x1FF
def kPageMask : UIntPtr := 0xFFF
def kPageSizeBit : UIntPtr := 0x80
def kAddrMask : UIntPtr := 0x000FFFFFFFFFF000
def kTablePerm : UIntPtr := 0x7

def pageIndex (va : UIntPtr) (shift : Nat) : UIntPtr := (va >>> shift) &&& kMask9

def tableBase (entry : UIntPtr) : UIntPtr := entry &&& ~~~kPageMask

def PmmState.store (slot value : UIntPtr) (σ : PmmState) : PmmState :=
  { σ with mem := store64 σ.mem slot value }

/-- The first `n` assignments of a loop over a table's entries. -/
def fillEntries (table : UIntPtr) (value : UIntPtr → UIntPtr) : Nat → Memory → Memory
  | 0, mem => mem
  | n + 1, mem => store64 (fillEntries table value n mem) (slotAt table (BitVec.ofNat 64 n))
      (value (BitVec.ofNat 64 n))

def kInitTablePerm : UIntPtr := 0x3
def kLeafPerm : UIntPtr := 0x83
def kLargePage : UIntPtr := 0x200000
def kGiB : UIntPtr := 0x40000000

/-- The PDPT of a gibibyte, taken from the allocator when its entry is empty. -/
def initPdpt (slot : UIntPtr) (σ : PmmState) : Bool × PmmState :=
  if load64 σ.mem slot &&& 1 = 0 then
    let (pdpt, τ) := pmmiAllocFrame σ
    if pdpt = 0 then (false, τ) else (true, τ.store slot (pdpt ||| kInitTablePerm))
  else (true, σ)

/-- One turn of the loop of `mm_init_kernel_tables`, `false` when the allocator is exhausted. -/
def initGiB (pml4 base : UIntPtr) (σ : PmmState) : Bool × PmmState :=
  let slot := slotAt pml4 (pageIndex base 39)
  let (ok, τ) := initPdpt slot σ
  if ok = false then (false, τ)
  else
    let pdpt := tableBase (load64 τ.mem slot)
    let (pd, υ) := pmmiAllocFrame τ
    if pd = 0 then (false, υ)
    else
      let υ := υ.store (slotAt pdpt (pageIndex base 30)) (pd ||| kInitTablePerm)
      (true, { υ with
        mem := fillEntries pd (fun i => (base + i * kLargePage) ||| kLeafPerm) kEntries υ.mem })

def initFrom (limit pml4 : UIntPtr) : Nat → UIntPtr → PmmState → Option (UIntPtr × PmmState)
  | 0, _, _ => none
  | fuel + 1, base, σ =>
      if base < limit then
        let (ok, τ) := initGiB pml4 base σ
        if ok = false then some (0, τ) else initFrom limit pml4 fuel (base + kGiB) τ
      else some (pml4, σ)

/-- `mm_init_kernel_tables`, `none` when the fuel does not reach the end of the loop. -/
def mmInitKernelTables (fuel : Nat) (limit : UIntPtr) (σ : PmmState) : Option (UIntPtr × PmmState) :=
  let (pml4, τ) := pmmiAllocFrame σ
  if pml4 = 0 then some (0, τ) else initFrom limit pml4 fuel 0 τ

def mmGetPageAddr (cr3 virt : UIntPtr) (mem : Memory) : UIntPtr :=
  let pml4e := load64 mem (slotAt (tableBase cr3) (pageIndex virt 39))
  if pml4e &&& 1 = 0 then 0
  else
    let pdpte := load64 mem (slotAt (tableBase pml4e) (pageIndex virt 30))
    if pdpte &&& 1 = 0 then 0
    else if pdpte &&& kPageSizeBit ≠ 0 then
      let kGiBOffset : UIntPtr := (1#64 <<< 30) - 1#64
      (pdpte &&& kAddrMask &&& ~~~kGiBOffset) ||| (virt &&& kGiBOffset)
    else
      let pde := load64 mem (slotAt (tableBase pdpte) (pageIndex virt 21))
      if pde &&& 1 = 0 then 0
      else if pde &&& kPageSizeBit ≠ 0 then
        let kLargeOffset : UIntPtr := (1#64 <<< 21) - 1#64
        (pde &&& kAddrMask &&& ~~~kLargeOffset) ||| (virt &&& kLargeOffset)
      else
        let pte := load64 mem (slotAt (tableBase pde) (pageIndex virt 12))
        if pte &&& 1 = 0 then 0
        else (pte &&& kAddrMask) ||| (virt &&& kPageMask)

/-- `split[i]` for a large leaf found at `shift`. -/
def splitEntry (entry : UIntPtr) (shift : Nat) (i : UIntPtr) : UIntPtr :=
  let step := 1#64 <<< shift
  let base := entry &&& ~~~(step - 1#64)
  let perm := (entry &&& 0x1F#64) ||| (entry &&& 0x100#64) ||| (entry &&& (1#64 <<< 63))
  (base + i * (step >>> 9)) ||| perm ||| (if shift > 21 then kPageSizeBit else 0)

/-- The loop of `mm_walk_page` with `n` turns left, at `shift = 12 + 9 * n`. -/
def walkFrom (va : UIntPtr) (alloc : Bool) : Nat → UIntPtr → PmmState → UIntPtr × PmmState
  | 0, table, σ => (slotAt table (pageIndex va 12), σ)
  | n + 1, table, σ =>
      let shift := 12 + 9 * (n + 1)
      let slot := slotAt table (pageIndex va shift)
      let entry := load64 σ.mem slot
      if entry &&& 1 = 0 then
        if alloc = false then (0, σ)
        else
          let (frame, τ) := pmmiAllocFrame σ
          if frame = 0 then (0, τ)
          else
            let τ := τ.store slot (frame ||| kTablePerm)
            walkFrom va alloc n (tableBase (load64 τ.mem slot)) τ
      else if entry &&& kPageSizeBit ≠ 0 then
        if alloc = false then (0, σ)
        else
          let (frame, τ) := pmmiAllocFrame σ
          if frame = 0 then (0, τ)
          else
            let split := splitEntry (load64 τ.mem slot) shift
            let τ := { τ with mem := fillEntries frame split kEntries τ.mem }
            let τ := τ.store slot (frame ||| kTablePerm)
            walkFrom va alloc n (tableBase (load64 τ.mem slot)) τ
      else
        let τ := σ.store slot (entry ||| kTablePerm)
        walkFrom va alloc n (tableBase (load64 τ.mem slot)) τ

def mmWalkPage (root va : UIntPtr) (alloc : Bool) (σ : PmmState) : UIntPtr × PmmState :=
  if root = 0 then (0, σ) else walkFrom va alloc 3 (tableBase root) σ

/-- An assignment to the bit field of `width` bits at `off`. -/
def PTE.set (off width : Nat) (value pte : UIntPtr) : UIntPtr :=
  let mask := (1#64 <<< width) - 1#64
  (pte &&& ~~~(mask <<< off)) ||| ((value &&& mask) <<< off)

def PTE.flag (flags mask : BitVec 32) : UIntPtr := if flags &&& mask ≠ 0 then 1 else 0

/-- The bit fields `mm_map_page_in` assigns in the zeroed slot. -/
def PTE.make (pa : UIntPtr) (flags : BitVec 32) : UIntPtr :=
  let pte := PTE.set 0 1 (PTE.flag flags kMMFlagsPresent) 0
  let pte := PTE.set 1 1 (PTE.flag flags kMMFlagsWr) pte
  let pte := PTE.set 2 1 (PTE.flag flags kMMFlagsUser) pte
  let pte := PTE.set 63 1 (PTE.flag flags kMMFlagsNX) pte
  let pte := PTE.set 4 1 (PTE.flag flags kMMFlagsPCD) pte
  let pte := PTE.set 3 1 (PTE.flag flags kMMFlagsPwt) pte
  PTE.set 12 40 (pa >>> 12) pte

def mmMapPageIn (root va pa : UIntPtr) (flags : BitVec 32) (σ : PmmState) : Int × PmmState :=
  if pa = 0 then (kErrorInvalidData, σ)
  else if pa &&& (BitVec.ofNat 64 kPageSize - 1) ≠ 0 then (kErrorInvalidData, σ)
  else
    let (slot, τ) := mmWalkPage root va true σ
    if slot = 0 then (kErrorInvalidData, τ)
    else (kErrorSuccess, τ.store slot (PTE.make pa flags))

def mmUnmapPage (cr3 va : UIntPtr) (σ : PmmState) : UIntPtr × PmmState :=
  let (slot, τ) := mmWalkPage cr3 va false σ
  if slot = 0 ∨ load64 τ.mem slot &&& 1 = 0 then (0, τ)
  else (load64 τ.mem slot &&& kAddrMask, τ.store slot 0)

end Ne.Kernel.HAL
