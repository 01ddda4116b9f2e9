import LufiraOS.Lib.Blocks
import LufiraOS.Lib.Bytes

/-!
# The kernel heap

`kernel/system/mm/heap.c`.  The heap is an area of memory in which every block
starts with a packed header of 24 bytes; the model works on the bytes, so that
the headers lie in the same memory as what is allocated.  Interrupts are off while
the list is changed, so each function is one step.
-/

namespace Heap

open ByteStore Blocks

/-- `KERNEL_HEAP_START`. -/
def heapStart : Nat := 0xFFFF900000000000

/-- `KERNEL_HEAP_SIZE`. -/
def heapSize : Nat := 16777216

/-- `KERNEL_HEAP_END`. -/
def heapEnd : Nat := heapStart + heapSize

/-- `HEAP_MAGIC_FREE`. -/
def magicFree : UInt32 := 0xDEADBEE1

/-- `HEAP_MAGIC_USED`. -/
def magicUsed : UInt32 := 0xDEADBEE2

/-! ## Headers -/

/-- The `block_header_t` at an address. -/
def header (m : Bytes) (a : Nat) : Header UInt32 :=
  ⟨word32 m a, (word32 m (a + 4)).toNat, word64 m (a + 8), word64 m (a + 16)⟩

/-- `block->magic = v`. -/
def setMagic (m : Bytes) (a : Nat) (v : UInt32) : Bytes := putWord m a v

/-- `block->size = v`. -/
def setSize (m : Bytes) (a v : Nat) : Bytes := putWord m (a + 4) (UInt32.ofNat v)

/-- `block->next = v`. -/
def setNext (m : Bytes) (a v : Nat) : Bytes := putWord64 m (a + 8) v

/-- `block->prev = v`. -/
def setPrev (m : Bytes) (a v : Nat) : Bytes := putWord64 m (a + 16) v

/-! ## The functions -/

/-- `heap_init`, in memory that holds the bytes `m`. -/
def heapInit (m : Bytes) : Bytes :=
  setPrev (setNext (setSize (setMagic m heapStart magicFree) heapStart heapSize) heapStart 0)
    heapStart 0

/-- `find_free_block` from `current` on; every block has a header, so the size of
the heap is enough fuel. -/
def findFreeBlock (m : Bytes) (size : Nat) : (fuel current : Nat) → Nat
  | 0, _ => 0
  | fuel + 1, current =>
    if current = 0 then 0
    else if (header m current).tag = magicFree ∧ size ≤ (header m current).size then current
    else findFreeBlock m size fuel (header m current).next

/-- `split_block`. -/
def splitBlock (m : Bytes) (block size : Nat) : Bytes :=
  if size + 24 + 32 ≤ (header m block).size then
    let newBlock := block + size
    let m := setMagic m newBlock magicFree
    let m := setSize m newBlock ((header m block).size - size)
    let m := setNext m newBlock (header m block).next
    let m := setPrev m newBlock block
    let m := if (header m block).next ≠ 0 then setPrev m (header m block).next newBlock else m
    let m := setNext m block newBlock
    setSize m block size
  else m

/-- The first half of `merge_blocks`: the block absorbs a free one behind it. -/
def mergeNext (m : Bytes) (block : Nat) : Bytes :=
  if (header m block).next ≠ 0 ∧ (header m (header m block).next).tag = magicFree then
    let m := setSize m block ((header m block).size + (header m (header m block).next).size)
    let m := setNext m block (header m (header m block).next).next
    if (header m block).next ≠ 0 then setPrev m (header m block).next block else m
  else m

/-- The second half of `merge_blocks`: a free block before it absorbs the block. -/
def mergePrev (m : Bytes) (block : Nat) : Bytes :=
  if (header m block).prev ≠ 0 ∧ (header m (header m block).prev).tag = magicFree then
    let m := setSize m (header m block).prev
      ((header m (header m block).prev).size + (header m block).size)
    let m := setNext m (header m block).prev (header m block).next
    if (header m block).next ≠ 0 then setPrev m (header m block).next (header m block).prev else m
  else m

/-- `merge_blocks`. -/
def mergeBlocks (m : Bytes) (block : Nat) : Bytes := mergePrev (mergeNext m block) block

/-- The size that `kmalloc` looks for: rounded up to 8 bytes, with the header. -/
def totalSize (size : Nat) : Nat :=
  ((size + 7) % 18446744073709551616 / 8 * 8 + 24) % 18446744073709551616

/-- `kmalloc` after `heap_init`: the pointer, and the memory. -/
def kmalloc (m : Bytes) (size : Nat) : Nat × Bytes :=
  if size = 0 then (0, m)
  else
    match findFreeBlock m (totalSize size) heapSize heapStart with
    | 0 => (0, m)
    | block => (block + 24, setMagic (splitBlock m block (totalSize size)) block magicUsed)

/-- `kfree`. -/
def kfree (m : Bytes) (ptr : Nat) : Bytes :=
  if ptr = 0 then m
  else if (header m (ptr - 24)).tag ≠ magicUsed then m
  else mergeBlocks (setMagic m (ptr - 24) magicFree) (ptr - 24)

/-! ## Reading a header back -/

section

variable {m m' : Bytes} {a c v : Nat} {x : Nat}

/-- A header reads only its own 24 bytes. -/
theorem header_congr (h : ∀ k, k < 24 → m' (c + k) = m (c + k)) : header m' c = header m c := by
  have hbyte : ∀ {i k}, i + k < 24 → m' (c + i + k) = m (c + i + k) := fun {i k} hk => by
    have hb := h (i + k) hk
    rwa [← Nat.add_assoc] at hb
  have hword : ∀ {i}, i + 4 ≤ 24 → word32 m' (c + i) = word32 m (c + i) := fun {i} hi =>
    word32_congr fun k hk => hbyte (by omega)
  have hlong : ∀ {i}, i + 8 ≤ 24 → word64 m' (c + i) = word64 m (c + i) := fun {i} hi =>
    word64_congr fun k hk => hbyte (by omega)
  unfold header
  rw [hword (i := 4) (by omega), hlong (i := 8) (by omega), hlong (i := 16) (by omega)]
  have hmagic := hword (i := 0) (by omega)
  rw [Nat.add_zero] at hmagic
  rw [hmagic]

/-- Two headers do not overlap. -/
def Apart (a c : Nat) : Prop := a + 24 ≤ c ∨ c + 24 ≤ a

theorem Apart.symm (h : Apart a c) : Apart c a := Or.symm h

/-- Writing into one header leaves the others alone. -/
theorem header_apart (hout : ∀ x, x < a ∨ a + 24 ≤ x → m' x = m x) (h : Apart a c) :
    header m' c = header m c := by
  refine header_congr fun k hk => hout _ ?_
  unfold Apart at h
  omega

theorem setMagic_outside {v : UInt32} (h : x < a ∨ a + 24 ≤ x) :
    setMagic m a v x = m x :=
  putWord_outside v (by omega)

theorem setSize_outside (h : x < a ∨ a + 24 ≤ x) : setSize m a v x = m x :=
  putWord_outside _ (by omega)

theorem setNext_outside (h : x < a ∨ a + 24 ≤ x) : setNext m a v x = m x :=
  putWord64_outside v (by omega)

theorem setPrev_outside (h : x < a ∨ a + 24 ≤ x) : setPrev m a v x = m x :=
  putWord64_outside v (by omega)

theorem header_eq {h : Header UInt32} (htag : word32 m a = h.tag)
    (hsize : (word32 m (a + 4)).toNat = h.size)
    (hnext : word64 m (a + 8) = h.next) (hprev : word64 m (a + 16) = h.prev) : header m a = h := by
  simp only [header, htag, hsize, hnext, hprev]

theorem header_setMagic (v : UInt32) :
    header (setMagic m a v) a = { header m a with tag := v } := by
  refine header_eq (word32_putWord_same _ _ _) ?_ ?_ ?_
  · exact congrArg _ (word32_putWord_disjoint (by omega))
  · exact word64_congr fun k _ => putWord_outside v (by omega)
  · exact word64_congr fun k _ => putWord_outside v (by omega)

theorem header_setSize (hv : v < 4294967296) :
    header (setSize m a v) a = { header m a with size := v } := by
  refine header_eq (word32_putWord_disjoint (by omega)) ?_ ?_ ?_
  · have hsize : word32 (setSize m a v) (a + 4) = UInt32.ofNat v := word32_putWord_same _ _ _
    rw [hsize, UInt32.toNat_ofNat']
    exact Nat.mod_eq_of_lt hv
  · exact word64_congr fun k _ => putWord_outside _ (by omega)
  · exact word64_congr fun k _ => putWord_outside _ (by omega)

theorem header_setNext (hv : v < 18446744073709551616) :
    header (setNext m a v) a = { header m a with next := v } := by
  refine header_eq ?_ (congrArg _ ?_) (word64_putWord64_same hv) ?_
  · exact word32_congr fun k _ => putWord64_outside v (by omega)
  · exact word32_congr fun k _ => putWord64_outside v (by omega)
  · exact word64_congr fun k _ => putWord64_outside v (by omega)

theorem header_setPrev (hv : v < 18446744073709551616) :
    header (setPrev m a v) a = { header m a with prev := v } := by
  refine header_eq ?_ (congrArg _ ?_) ?_ (word64_putWord64_same hv)
  · exact word32_congr fun k _ => putWord64_outside v (by omega)
  · exact word32_congr fun k _ => putWord64_outside v (by omega)
  · exact word64_congr fun k _ => putWord64_outside v (by omega)

theorem header_setMagic_apart {v : UInt32} (h : Apart a c) :
    header (setMagic m a v) c = header m c :=
  header_apart (fun _ => setMagic_outside) h

theorem header_setSize_apart (h : Apart a c) : header (setSize m a v) c = header m c :=
  header_apart (fun _ => setSize_outside) h

theorem header_setNext_apart (h : Apart a c) : header (setNext m a v) c = header m c :=
  header_apart (fun _ => setNext_outside) h

theorem header_setPrev_apart (h : Apart a c) : header (setPrev m a v) c = header m c :=
  header_apart (fun _ => setPrev_outside) h

end

end Heap
