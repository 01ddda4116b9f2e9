import LufiraOS.Paging.Mappers

/-!
# Loading an ELF file

`elf_load_to_process` maps new pages for every `PT_LOAD` segment of the file, clears the pages
of one segment after another and copies the bytes of the file into them, and at last sets the
final rights.  A page is found by its virtual address each time, and a page that two segments
share is mapped, cleared and filled once for each of them.

The tables are the tree of `Paging`; physical memory is a function from addresses to bytes.
-/

namespace Elf

open Paging
open Paging.PML4

/-! ### The file -/

/-- The file in memory, and what lies around it. -/
structure Image where
  data : List UInt8
  outside : Nat → UInt8

variable (im : Image)

/-- The byte at an offset, which is a 64-bit number. -/
def Image.byteAt (i : Nat) : UInt8 :=
  (im.data[i % 2 ^ 64]?).getD (im.outside (i % 2 ^ 64))

/-- A number of `n` bytes. -/
def Image.readLE (off n : Nat) : Nat :=
  (List.range n).foldr (fun k acc => (im.byteAt (off + k)).toNat + 256 * acc) 0

/-- `elf_validate`. -/
def Image.valid : Bool :=
  im.readLE 0 4 = 0x464C457F && im.readLE 4 1 = 2 && im.readLE 18 2 = 62 &&
    (im.readLE 16 2 = 2 || im.readLE 16 2 = 3) && im.readLE 56 2 ≠ 0

/-- The fields of `elf64_program_header_t` that are used. -/
structure ProgramHeader where
  type : Nat
  flags : Nat
  offset : Nat
  vaddr : Nat
  filesz : Nat
  memsz : Nat
  deriving DecidableEq

/-- `ph[i]`. -/
def Image.programHeader (i : Nat) : ProgramHeader :=
  let off := im.readLE 32 8 + 56 * i
  { type := im.readLE off 4
    flags := im.readLE (off + 4) 4
    offset := im.readLE (off + 8) 8
    vaddr := im.readLE (off + 16) 8
    filesz := im.readLE (off + 32) 8
    memsz := im.readLE (off + 40) 8 }

def Image.programHeaders : List ProgramHeader :=
  (List.range (im.readLE 56 2)).map im.programHeader

/-- The `PT_LOAD` segments. -/
def Image.segments : List ProgramHeader :=
  im.programHeaders.filter fun ph => ph.type = 1

/-- There is a `PT_DYNAMIC` header. -/
def Image.dynamic : Bool := im.programHeaders.any fun ph => ph.type = 2

/-! ### Pages -/

/-- `seg_start`. -/
def ProgramHeader.segStart (s : ProgramHeader) : Nat := s.vaddr / 4096 * 4096

/-- `seg_end`. -/
def ProgramHeader.segEnd (s : ProgramHeader) : Nat :=
  (s.vaddr + s.memsz + 4095) % 2 ^ 64 / 4096 * 4096

/-- The addresses of the pages of a segment, as the mapping loop counts them. -/
def ProgramHeader.pages (s : ProgramHeader) : List Nat :=
  (List.range ((s.segEnd + 2 ^ 64 - s.segStart) % 2 ^ 64 / 4096)).map fun p =>
    (s.segStart + 4096 * p) % 2 ^ 64

/-- The flags while the pages are filled. -/
def ProgramHeader.mapFlags (s : ProgramHeader) : Flags :=
  { user := true, write := true, nx := !s.flags.testBit 0 }

/-- The rights that stay. -/
def ProgramHeader.finalFlags (s : ProgramHeader) : Flags :=
  { user := true, write := s.flags.testBit 1, nx := !s.flags.testBit 0 }

/-- What `pmm_alloc_page` answers: the page for each mapping, and those for the tables it needs.
A page that it hands out is in no other use. -/
structure Pmm where
  page : Nat → Option Nat
  tables : Nat → NewTables
  aligned : ∀ n p, page n = some p → p % 4096 = 0
  nonzero : ∀ n p, page n = some p → p ≠ 0
  distinct : ∀ m n p, page m = some p → page n = some p → m = n

/-- The mapping loops, with the number of pages handed out so far. -/
def mapAll (pmm : Pmm) : Nat → List (Nat × Flags) → PML4 → Option PML4
  | _, [], t => some t
  | n, (virt, flags) :: rest, t =>
    match pmm.page n with
    | none => none
    | some phys =>
      match mapPageInSpace t virt phys flags (pmm.tables n) with
      | none => none
      | some t' => mapAll pmm (n + 1) rest t'

/-- `get_physical_address_in_pml4`; 0 stands for a page that is not there. -/
def getPhysicalAddress (t : PML4) (v : Nat) : Nat :=
  if !(entry4 t v).flags.present then 0
  else if !(entry3 t v).flags.present then 0
  else if !(entry2 t v).flags.present then 0
  else if (entry2 t v).flags.huge then (entry2 t v).frame * 4096 + v % 2 ^ 21
  else if !(entry1 t v).flags.present then 0
  else (entry1 t v).frame * 4096 + v % 4096

/-- `set_page_flags_in_space`; where it returns -1 the caller goes on. -/
def setPageFlagsInSpace (t : PML4) (virt : Nat) (flags : Flags) : PML4 :=
  if (entry4 t virt).flags.present && (entry3 t virt).flags.present &&
      (entry2 t virt).flags.present && !(entry2 t virt).flags.huge &&
      (entry1 t virt).flags.present then
    put t virt (entry4 t virt) (entry3 t virt) (putLeaf (entry2 t virt) virt
      ⟨{ flags with present := true }, (entry1 t virt).frame, ()⟩)
  else t

/-! ### Memory -/

abbrev Memory := Nat → UInt8

/-- `memset` and `memcpy`: `n` bytes from `base` on become those of `f`. -/
def fill (mem : Memory) (base n : Nat) (f : Nat → UInt8) : Memory :=
  fun a => if base ≤ a ∧ a < base + n then f (a - base) else mem a

/-- A part of a page is filled, if the page is there. -/
def fillPage (t : PML4) (mem : Memory) (pageVa off n : Nat) (f : Nat → UInt8) : Memory :=
  let phys := getPhysicalAddress t pageVa
  if phys = 0 then mem else fill mem (phys + off) n f

/-- The clearing loop over a segment. -/
def zeroSegment (t : PML4) (s : ProgramHeader) (mem : Memory) : Memory :=
  (List.range ((s.segEnd - s.segStart) / 4096)).foldl
    (fun mem p => fillPage t mem (s.segStart + 4096 * p) 0 4096 fun _ => 0) mem

/-- The copying loop; `turns` bounds its turns, of which each copies a byte at least. -/
def copyLoop (im : Image) (t : PML4) : Nat → (dst src remaining : Nat) → Memory → Memory
  | 0, _, _, _, mem => mem
  | turns + 1, dst, src, remaining, mem =>
    if remaining = 0 then mem
    else
      let pageVa := dst / 4096 * 4096
      let pageOff := dst - pageVa
      let chunk := min (4096 - pageOff) remaining
      copyLoop im t turns ((dst + chunk) % 2 ^ 64) (src + chunk) (remaining - chunk)
        (fillPage t mem pageVa pageOff chunk fun k => im.byteAt (src + k))

/-- Clearing and copying of one segment. -/
def loadSegment (t : PML4) (mem : Memory) (s : ProgramHeader) : Memory :=
  copyLoop im t s.filesz s.vaddr s.offset s.filesz (zeroSegment t s mem)

/-! ### The loader -/

/-- How the loader ends.  `overrun`: the array of segments has room for 32. -/
inductive Outcome where
  | failed
  | overrun
  | loaded (t : PML4) (mem : Memory)

/-- `elf_load_to_process`, from the tables of the new address space and memory.  `dynlink` is what
`dynlink_process` does to a file with a `PT_DYNAMIC` header; without one it does nothing. -/
def elfLoadToProcess (pmm : Pmm) (t : PML4) (mem : Memory)
    (dynlink : PML4 → Memory → Option (PML4 × Memory)) : Outcome :=
  if im.data = [] ∨ im.valid = false then .failed
  else if 32 < im.segments.length then .overrun
  else
    match mapAll pmm 0 (im.segments.flatMap fun s => s.pages.map fun v => (v, s.mapFlags)) t with
    | none => .failed
    | some t =>
      let mem := im.segments.foldl (loadSegment im t) mem
      let t := im.segments.foldl
        (fun t s => s.pages.foldl (fun t v => setPageFlagsInSpace t v s.finalFlags) t) t
      if im.dynamic then
        match dynlink t mem with
        | none => .failed
        | some (t, mem) => .loaded t mem
      else .loaded t mem

/-- The user can read the byte `b` at an address below the hole of non-canonical addresses. -/
def Holds (t : PML4) (mem : Memory) (v : Nat) (b : UInt8) : Prop :=
  v < 2 ^ 47 ∧ isUserAccessible t v false = true ∧ ∃ p, translate t v = some p ∧ mem p = b

/-- A segment is in memory: the bytes of the file, then zeros; and those bytes are in the file. -/
def Placed (t : PML4) (mem : Memory) (s : ProgramHeader) : Prop :=
  (∀ i < s.memsz, Holds t mem (s.vaddr + i)
    (if i < s.filesz then im.byteAt (s.offset + i) else 0)) ∧
    (0 < s.filesz → s.offset + s.filesz ≤ im.data.length)

/-- The headers that are read lie in the file. -/
def Image.HeadersInside : Prop :=
  64 ≤ im.data.length ∧ im.readLE 32 8 + 56 * im.readLE 56 2 ≤ im.data.length

/-- What a loaded file comes to. -/
def Outcome.Correct : Outcome → Prop
  | .failed => True
  | .overrun => False
  | .loaded t mem => im.HeadersInside ∧ ∀ s ∈ im.segments, s.filesz ≤ s.memsz → Placed im t mem s

/-! ### Files of two segments -/

/-- A number in `n` bytes. -/
def le : Nat → Nat → List UInt8
  | 0, _ => []
  | n + 1, v => UInt8.ofNat (v % 256) :: le n (v / 256)

/-- The bytes of a program header. -/
def headerBytes (flags offset vaddr filesz memsz : Nat) : List UInt8 :=
  le 4 1 ++ le 4 flags ++ le 8 offset ++ le 8 vaddr ++ le 8 vaddr ++ le 8 filesz ++ le 8 memsz ++
    le 8 4096

/-- A file with a byte at `0x400000` and one at another address, in two segments. -/
def twoSegments (second : Nat) : Image where
  data := le 4 0x464C457F ++ [2, 1, 1, 0] ++ le 8 0 ++ le 2 2 ++ le 2 62 ++ le 4 1 ++
    le 8 0x400000 ++ le 8 64 ++ le 8 0 ++ le 4 0 ++ le 2 64 ++ le 2 56 ++ le 2 2 ++ le 2 0 ++
    le 2 0 ++ le 2 0 ++
    headerBytes 5 176 0x400000 1 1 ++ headerBytes 6 177 second 1 1 ++ [170, 187]
  outside := fun _ => 0

/-- Pages from 16 MB on. -/
def upwards : Pmm where
  page n := some (0x1000000 + 4096 * n)
  tables _ := ⟨some 1, some 2, some 3⟩
  aligned := fun n p h => by
    cases h
    omega
  nonzero := fun n p h => by
    cases h
    omega
  distinct := fun m n p hm hn => by
    cases hm
    simp only [Option.some.injEq] at hn
    omega

end Elf
