import LufiraOS.Lib.Extents
import LufiraOS.Paging.Core

/-!
# The address space of mmap

`kernel/system/syscall/syscall.c`: the addresses that `sys_mmap`, `sys_shm_create`,
`sys_shm_attach`, `sys_dma_alloc` and `sys_mmap_mmio` hand out and `sys_munmap` takes
back.  A process has a table of regions, a table of ranges that were given back,
and a pointer to the first address never handed out.  Addresses and lengths are
64-bit and wrap.

What the rest of the kernel answers during a call (whether the caller owns the
device, whether `kmalloc` has memory, how many pages are mapped before the memory
runs out, the number `shm_create` finds) is an argument of the call.
-/

namespace Mmap

open Extents

open Paging (pageSize)

/-- `MMAP_AREA_START`. -/
def mmapAreaStart : Nat := 0x600000000000

/-- `MAX_MMAP_REGIONS`. -/
def maxMmapRegions : Nat := 32

/-- `MAX_MMAP_FREE_RANGES`. -/
def maxMmapFreeRanges : Nat := 32

/-- `MAX_SHARED_REGION_PAGES`. -/
def maxSharedRegionPages : Nat := 4096

/-- `MAX_DMA_ALLOC_PAGES`. -/
def maxDmaAllocPages : Nat := 4096

/-- A 64-bit number. -/
def u64 (n : Nat) : Nat := n % 18446744073709551616

/-- `(uint64_t)-1`. -/
def minusOne : Nat := 18446744073709551615

/-- `(uint64_t)-EINVAL`. -/
def minusEinval : Nat := 18446744073709551594

/-- `MAP_SHARED` is set. -/
def mapShared (flags : Nat) : Bool := flags.testBit 0

/-- `MAP_FIXED` is set. -/
def mapFixed (flags : Nat) : Bool := flags.testBit 4

/-- `MAP_ANONYMOUS` is set. -/
def mapAnonymous (flags : Nat) : Bool := flags.testBit 5

/-- A length rounded up to whole pages. -/
def alignedLen (length : Nat) : Nat := u64 (length + 4095) / 4096 * 4096

/-- `mmap_region_t`. -/
structure Region where
  addr : Nat
  length : Nat
  sharedId : Int
  deriving DecidableEq, Repr

/-- `mmap_free_range_t`. -/
structure FreeRange where
  addr : Nat
  length : Nat
  deriving DecidableEq, Repr

/-- The fields of `process_t` that say which addresses are in use. -/
structure Space where
  mmapRegions : List Region
  mmapFreeRanges : List FreeRange
  nextMmapAddr : Nat
  deriving DecidableEq, Repr

/-- What `process_create` and `process_commit_exec` set up. -/
def Space.fresh : Space :=
  ⟨.replicate maxMmapRegions ⟨0, 0, 0⟩, .replicate maxMmapFreeRanges ⟨0, 0⟩, mmapAreaStart⟩

/-! ## Handing out addresses -/

/-- The loop of `mmap_alloc_va`: the first range that is long enough gives its
front. -/
def takeFirst (len : Nat) : List FreeRange → Option (Nat × List FreeRange)
  | [] => none
  | r :: rs =>
    if len ≤ r.length ∧ 0 < r.length then
      let rest := if r.length = len then ⟨0, 0⟩ else ⟨u64 (r.addr + len), r.length - len⟩
      some (r.addr, rest :: rs)
    else
      match takeFirst len rs with
      | none => none
      | some (base, rs) => some (base, r :: rs)

variable (p : Space)

/-- `mmap_alloc_va`. -/
def mmapAllocVa (len : Nat) : Nat × Space :=
  match takeFirst len p.mmapFreeRanges with
  | some (base, rs) => (base, { p with mmapFreeRanges := rs })
  | none => (p.nextMmapAddr, { p with nextMmapAddr := u64 (p.nextMmapAddr + len) })

/-- The loop of `mmap_free_va`: the first unused row takes the range; with none
left the range is lost. -/
def giveBack (addr len : Nat) : List FreeRange → List FreeRange
  | [] => []
  | r :: rs => if r.length = 0 then ⟨addr, len⟩ :: rs else r :: giveBack addr len rs

/-- `mmap_free_va`. -/
def mmapFreeVa (addr len : Nat) : Space :=
  { p with mmapFreeRanges := giveBack addr len p.mmapFreeRanges }

/-- The first unused row of `mmap_regions`. -/
def Space.slot : Option Nat := p.mmapRegions.findIdx? fun r => r.length = 0

/-- A region is written into a row. -/
def Space.record (slot addr len : Nat) (sharedId : Int) : Space :=
  { p with mmapRegions := p.mmapRegions.set slot ⟨addr, len, sharedId⟩ }

/-! ## The system calls

Each call first checks its arguments and looks for an unused row; `…Checks` gives
the row and the length it goes on with, or the result it fails with. -/

/-- The row for a new region, if there is one. -/
def Space.slotFor (len : Nat) : Except Nat (Nat × Nat) :=
  match p.slot with
  | none => .error minusOne
  | some slot => .ok (slot, len)

/-- `sys_mmap`, up to the call of `mmap_alloc_va`. -/
def mmapChecks (length flags : Nat) : Except Nat (Nat × Nat) :=
  if length = 0 then .error minusOne
  else if mapAnonymous flags = false then .error minusOne
  else if mapFixed flags then .error minusOne
  else if mapShared flags ∧ maxSharedRegionPages < alignedLen length / pageSize then
    .error minusEinval
  else p.slotFor (alignedLen length)

/-- `sys_mmap`.  The pages of a shared region are listed in memory from `kmalloc`,
which is asked for only when the addresses are already taken. -/
def sysMmap (length flags : Nat) (kmallocOk : Bool) (mapped : Nat) (shmId : Int) :
    Nat × Space :=
  match mmapChecks p length flags with
  | .error e => (e, p)
  | .ok (slot, len) =>
    let (base, p) := mmapAllocVa p len
    if mapShared flags ∧ kmallocOk = false then (minusOne, p)
    else if mapped < len / pageSize then (minusOne, mmapFreeVa p base len)
    else if mapShared flags ∧ shmId < 0 then (minusOne, mmapFreeVa p base len)
    else (base, p.record slot base len (if mapShared flags then shmId else -1))

/-- The loop of `sys_munmap` over the regions. -/
def dropRegion (addr len : Nat) : List Region → Option (List Region)
  | [] => none
  | r :: rs =>
    if r.length ≠ 0 ∧ r.addr = addr ∧ r.length = len then
      some ({ r with addr := 0, length := 0 } :: rs)
    else (dropRegion addr len rs).map (r :: ·)

/-- `sys_munmap`. -/
def sysMunmap (addr length : Nat) : Nat × Space :=
  if length = 0 then (minusOne, p)
  else
    match dropRegion addr (alignedLen length) p.mmapRegions with
    | none => (minusOne, p)
    | some rs => (0, mmapFreeVa { p with mmapRegions := rs } addr (alignedLen length))

/-- `sys_mmap_mmio`, up to the call of `mmap_alloc_va`. -/
def mmapMmioChecks (physAddr length : Nat) (allowed : Bool) : Except Nat (Nat × Nat) :=
  if length = 0 then .error minusOne
  else if allowed = false then .error minusOne
  else p.slotFor (alignedLen (physAddr % pageSize + length))

/-- `sys_mmap_mmio`. -/
def sysMmapMmio (physAddr length : Nat) (allowed : Bool) (mapped : Nat) :
    Nat × Space :=
  match mmapMmioChecks p physAddr length allowed with
  | .error e => (e, p)
  | .ok (slot, len) =>
    let (base, p) := mmapAllocVa p len
    if mapped < len / pageSize then (minusOne, mmapFreeVa p base len)
    else (u64 (base + physAddr % pageSize), p.record slot base len (-1))

/-- `sys_dma_alloc`, up to the call of `mmap_alloc_va`; `permitted` when the caller
is a registered driver and may write its result, `physBase` what
`pmm_alloc_contiguous_pages` finds. -/
def dmaAllocChecks (numPages : Nat) (permitted : Bool) (physBase : Nat) :
    Except Nat (Nat × Nat) :=
  if numPages = 0 ∨ maxDmaAllocPages < numPages then .error minusOne
  else if permitted = false then .error minusOne
  else
    match p.slot with
    | none => .error minusOne
    | some slot => if physBase = 0 then .error minusOne else .ok (slot, u64 (numPages * pageSize))

/-- `sys_dma_alloc`. -/
def sysDmaAlloc (numPages : Nat) (permitted : Bool) (physBase mapped : Nat) :
    Nat × Space :=
  match dmaAllocChecks p numPages permitted physBase with
  | .error e => (e, p)
  | .ok (slot, len) =>
    let (base, p) := mmapAllocVa p len
    if mapped < numPages then (minusOne, mmapFreeVa p base len)
    else (base, p.record slot base len (-1))

/-- `sys_shm_create`, up to the call of `mmap_alloc_va`. -/
def shmCreateChecks (numPages : Nat) (permitted kmallocOk : Bool) :
    Except Nat (Nat × Nat) :=
  if numPages = 0 ∨ maxSharedRegionPages < numPages then .error minusOne
  else if permitted = false then .error minusOne
  else
    match p.slot with
    | none => .error minusOne
    | some slot => if kmallocOk then .ok (slot, u64 (numPages * pageSize)) else .error minusOne

/-- `sys_shm_create`. -/
def sysShmCreate (numPages : Nat) (permitted kmallocOk : Bool) (mapped : Nat)
    (shmId : Int) : Nat × Space :=
  match shmCreateChecks p numPages permitted kmallocOk with
  | .error e => (e, p)
  | .ok (slot, len) =>
    let (base, p) := mmapAllocVa p len
    if mapped < numPages then (minusOne, mmapFreeVa p base len)
    else if shmId < 0 then (minusOne, mmapFreeVa p base len)
    else (base, p.record slot base len shmId)

/-- `sys_shm_attach`, up to the call of `mmap_alloc_va`; `numPages` is what
`shm_get_num_pages` says of the region. -/
def shmAttachChecks (numPages : Nat) (kmallocOk : Bool) : Except Nat (Nat × Nat) :=
  if numPages = 0 then .error minusOne
  else if kmallocOk = false then .error minusOne
  else p.slotFor (u64 (numPages * pageSize))

/-- `sys_shm_attach`. -/
def sysShmAttach (shmId : Int) (numPages : Nat) (kmallocOk : Bool) (mapped : Nat) :
    Nat × Space :=
  match shmAttachChecks p numPages kmallocOk with
  | .error e => (e, p)
  | .ok (slot, len) =>
    let (base, p) := mmapAllocVa p len
    if mapped < numPages then (minusOne, mmapFreeVa p base len)
    else (base, p.record slot base len shmId)

end Mmap
