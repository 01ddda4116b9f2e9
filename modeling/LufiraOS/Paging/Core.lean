import Mathlib

/-!
# Page tables

The four levels of tables as `kernel/system/mm/paging.c` reads them.  A table is a
function from indices to entries, and an entry carries the table its address leads to,
so an address space is a tree.  The table behind an entry that maps a large page is
whatever a reader that takes it for a table would find there.
-/

namespace Paging

/-- The low twelve bits of an entry, and the no-execute bit. -/
structure Flags where
  present : Bool := false
  write : Bool := false
  user : Bool := false
  pwt : Bool := false
  pcd : Bool := false
  accessed : Bool := false
  dirty : Bool := false
  huge : Bool := false
  global : Bool := false
  identityShared : Bool := false
  mmapShared : Bool := false
  mmioNofree : Bool := false
  nx : Bool := false
  deriving DecidableEq, Repr, Inhabited

/-- An entry: its flags, the number of the page frame in its address, and the table
that lies there. -/
structure Entry (α : Type) where
  flags : Flags
  frame : Nat
  table : α

/-- A page table. -/
abbrev PT := Nat → Entry Unit

/-- A page directory. -/
abbrev PD := Nat → Entry PT

/-- A page directory pointer table. -/
abbrev PDPT := Nat → Entry PD

/-- The top level. -/
abbrev PML4 := Nat → Entry PDPT

/-- `PML4_INDEX`. -/
def pml4Index (v : Nat) : Nat := v / 2 ^ 39 % 512

/-- `PDPT_INDEX`. -/
def pdptIndex (v : Nat) : Nat := v / 2 ^ 30 % 512

/-- `PD_INDEX`. -/
def pdIndex (v : Nat) : Nat := v / 2 ^ 21 % 512

/-- `PT_INDEX`. -/
def ptIndex (v : Nat) : Nat := v / 2 ^ 12 % 512

/-- `PAGE_SIZE`. -/
def pageSize : Nat := 4096

namespace PML4

variable (t : PML4)

/-- The entries on the way of an address. -/
def entry4 (v : Nat) : Entry PDPT := t (pml4Index v)

/-- The entry of the second level. -/
def entry3 (v : Nat) : Entry PD := (entry4 t v).table (pdptIndex v)

/-- The entry of the third level. -/
def entry2 (v : Nat) : Entry PT := (entry3 t v).table (pdIndex v)

/-- The entry of the last level. -/
def entry1 (v : Nat) : Entry Unit := (entry2 t v).table (ptIndex v)

/-- The flags that the processor looks at when it translates an address, from the top
down to the entry that maps it; nothing if one of them is not present. -/
def walk (v : Nat) : Option (List Flags) :=
  let f4 := (entry4 t v).flags
  let f3 := (entry3 t v).flags
  let f2 := (entry2 t v).flags
  let f1 := (entry1 t v).flags
  if ¬ f4.present then none
  else if ¬ f3.present then none
  else if f3.huge then some [f4, f3]
  else if ¬ f2.present then none
  else if f2.huge then some [f4, f3, f2]
  else if ¬ f1.present then none
  else some [f4, f3, f2, f1]

/-- `is_user_accessible`. -/
def isUserAccessible (v : Nat) (needWrite : Bool) : Bool :=
  let f4 := (entry4 t v).flags
  let f3 := (entry3 t v).flags
  let f2 := (entry2 t v).flags
  let f1 := (entry1 t v).flags
  if !f4.present || !f4.user then false
  else if !f3.present || !f3.user then false
  else if !f2.present then false
  else if f2.huge then
    if !f2.user then false
    else if needWrite && !f2.write then false
    else true
  else if !f2.user then false
  else if !f1.present || !f1.user then false
  else if needWrite && !f1.write then false
  else true

/-- The loop of `is_user_range_valid`, with a bound on its turns. -/
def rangeLoop (t : PML4) (needWrite : Bool) (lastPage : Nat) : (turns : Nat) → (page : Nat) → Bool
  | 0, _ => false
  | n + 1, page =>
    if !isUserAccessible t page needWrite then false
    else if page = lastPage then true
    else rangeLoop t needWrite lastPage n ((page + pageSize) % 2 ^ 64)

/-- `is_user_range_valid`.  There are 2^52 pages, so the loop needs no more turns. -/
def isUserRangeValid (addr len : Nat) (needWrite : Bool) : Bool :=
  if len = 0 then true
  else
    let last := (addr + len - 1) % 2 ^ 64
    if last < addr then false
    else
      rangeLoop t needWrite (last / pageSize * pageSize) (2 ^ 52) (addr / pageSize * pageSize)

end PML4

end Paging
