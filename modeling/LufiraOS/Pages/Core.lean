import LufiraOS.Lib.Bytes
import LufiraOS.Lib.FirstFit

/-!
# The physical page allocator

`kernel/system/mm/pmm.c`: a bitmap with one bit for each page, the number of set
bits, and a hint from which the search for a free page starts.  Interrupts are off
while the bitmap is changed, so each function is one step.  Addresses and page
numbers are 64-bit; `bitmap` is the memory at the address that `pmm_init` chooses.
-/

namespace Pmm

open ByteStore FirstFit

/-- `EFI_MEMORY_DESCRIPTOR`, the fields that are read. -/
structure Descriptor where
  type : Nat
  physicalStart : Nat
  numberOfPages : Nat

/-- The state of the allocator. -/
structure State where
  bitmap : Bytes
  totalPages : Nat
  usedPages : Nat
  nextFreePage : Nat

/-! ## The bitmap -/

/-- `bitmap_test`. -/
def State.test (s : State) (page : Nat) : Bool := bitAt s.bitmap 0 page

/-- The bits of `n` pages from `page` on are set, one after the other. -/
def setRange (used : Bool) (page : Nat) : (n : Nat) → Bytes → Bytes
  | 0, m => m
  | n + 1, m => setRange used (page + 1) n (setBitAt m 0 page used)

theorem bitAt_setRange (used : Bool) (page n : Nat) (m : Bytes) (p : Nat) :
    bitAt (setRange used page n m) 0 p =
      if page ≤ p ∧ p < page + n then used else bitAt m 0 p := by
  induction n generalizing page m with
  | zero =>
    rw [if_neg (by omega)]
    rfl
  | succ n ih =>
    rw [setRange, ih, bitAt_setBitAt]
    by_cases hp : p = page
    · rw [if_neg (by omega), if_pos hp, if_pos (by omega)]
    by_cases hin : page + 1 ≤ p ∧ p < page + 1 + n
    · rw [if_pos hin, if_pos (by omega)]
    · rw [if_neg hin, if_neg hp, if_neg (by omega)]

/-! ## Setting up -/

/-- `EfiConventionalMemory`. -/
def efiConventionalMemory : Nat := 7

/-- The end of a block of memory. -/
def Descriptor.blockEnd (d : Descriptor) : Nat :=
  (d.physicalStart + d.numberOfPages * 4096) % 18446744073709551616

/-- The size of a block of memory. -/
def Descriptor.blockSize (d : Descriptor) : Nat := d.numberOfPages * 4096 % 18446744073709551616

/-- The number of pages up to the highest address of conventional memory. -/
def pagesOf (map : List Descriptor) : Nat :=
  let maxPhys := map.foldl (fun top d => max top d.blockEnd) 0
  maxPhys / 4096 + if maxPhys % 4096 = 0 then 0 else 1

/-- The largest block that has room for the bitmap and does not touch the kernel:
its size and where it begins. -/
def bitmapPlace (map : List Descriptor) (bitmapSize kernelBase kernelEnd : Nat) :
    Option (Nat × Nat) :=
  map.foldl (fun best d =>
    if ¬ (d.blockEnd ≤ kernelBase ∨ kernelEnd ≤ d.physicalStart) then best
    else if bitmapSize ≤ d.blockSize ∧ (best.map Prod.fst).getD 0 < d.blockSize then
      some (d.blockSize, d.physicalStart)
    else best) none

/-- `pmm_init`, with the bytes `m` in the memory that becomes the bitmap; `none`
when it finds no place and halts. -/
def pmmInit (memoryMap : List Descriptor)
    (kernelBase kernelSize reservedBase reservedSize : Nat) (m : Bytes) : Option State :=
  let map := memoryMap.filter fun d => d.type = efiConventionalMemory
  let totalPages := pagesOf map
  let bitmapSize := (totalPages + 7) / 8
  let kernelEnd := (kernelBase + kernelSize) % 18446744073709551616
  match bitmapPlace map bitmapSize kernelBase kernelEnd with
  | none => none
  | some (_, bitmapPhys) =>
    let m := copyIn m 0 bitmapSize zeros
    let m := setRange true 0 totalPages m
    let m := map.foldl (fun m d => setRange false (d.physicalStart / 4096) d.numberOfPages m) m
    let m := setRange true 0 256 m
    let m := setRange true 0 512 m
    let m := setRange true (bitmapPhys / 4096) ((bitmapSize + 4095) / 4096) m
    let m := setRange true (kernelBase / 4096) ((kernelSize + 4095) % 18446744073709551616 / 4096) m
    let m := if reservedBase ≠ 0 ∧ reservedSize ≠ 0 then
        setRange true (reservedBase / 4096) ((reservedSize + 4095) % 18446744073709551616 / 4096) m
      else m
    some ⟨m, totalPages, setCount (bitAt m 0) totalPages, 512⟩

/-! ## Allocating and freeing -/

namespace State

/-- A page is taken: its bit is set and the search goes on behind it. -/
def take (s : State) (page : Nat) : State :=
  { s with
    bitmap := setBitAt s.bitmap 0 page true
    usedPages := s.usedPages + 1
    nextFreePage := page + 1 }

/-- `pmm_alloc_page`: the address, or `0`. -/
def allocPage (s : State) : Nat × State :=
  match firstClear s.test s.nextFreePage (s.totalPages - s.nextFreePage) with
  | some page => (page * 4096, s.take page)
  | none =>
    match firstClear s.test 512 (s.nextFreePage - 512) with
    | some page => (page * 4096, s.take page)
    | none => (0, s)

/-- `pmm_alloc_contiguous_pages`. -/
def allocContiguousPages (s : State) (count : UInt32) : Nat × State :=
  if count = 0 then (0, s)
  else
    match firstRun s.test count.toNat 0 s.totalPages 0 0 with
    | none => (0, s)
    | some start =>
      (start * 4096, { s with
        bitmap := setRange true start count.toNat s.bitmap
        usedPages := s.usedPages + count.toNat })

/-- `pmm_free_page`. -/
def freePage (s : State) (phys : Nat) : State :=
  let page := phys / 4096
  if s.totalPages ≤ page then s
  else if s.test page = false then s
  else { s with
    bitmap := setBitAt s.bitmap 0 page false
    usedPages := s.usedPages - 1 }

end State

end Pmm
