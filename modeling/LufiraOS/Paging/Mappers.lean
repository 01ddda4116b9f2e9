import LufiraOS.Paging.UserRange
import Mathlib.Logic.Function.Basic

/-!
# The two mappers

`map_page_in_pml4` of `paging.c` and `map_page_in_space` of `elf.c` go down the same
four levels.  They part where the third level maps a page of 2 MiB: one splits it into
pages that are for the user if the large page was, the other makes all 512 of them
user pages.  Both set `PAGE_USER` in the entries they pass, which opens whatever
lies below and was kept from the user by these entries only.
-/

namespace Paging

open Function

/-- `PAGE_PRESENT | PAGE_WRITE | PAGE_USER`. -/
def tableFlags : Flags := { present := true, write := true, user := true }

/-- The flags with `PAGE_USER`. -/
def Flags.asUser (f : Flags) : Flags := { f with user := true }

/-- A page table with nothing in it. -/
def zeroPT : PT := fun _ => PML4.absent ()

/-- A page directory with nothing in it. -/
def zeroPD : PD := fun _ => PML4.absent zeroPT

/-- A page directory pointer table with nothing in it. -/
def zeroPDPT : PDPT := fun _ => PML4.absent zeroPD

/-- What `pmm_alloc_page` returns for each level, should a table be needed there. -/
structure NewTables where
  pdpt : Option Nat
  pd : Option Nat
  pt : Option Nat

/-- `get_or_create_table`: the entry as it is afterwards. -/
def getOrCreateTable {α : Type} (e : Entry α) (page : Option Nat) (zero : α) : Option (Entry α) :=
  if e.flags.present then some { e with flags := e.flags.asUser }
  else page.map fun f => ⟨tableFlags, f, zero⟩

/-- The split of a 2-MiB page in `map_page_in_pml4`. -/
def splitInPml4 (e : Entry PT) (page : Option Nat) : Option (Entry PT) :=
  if e.flags.present && e.flags.huge then
    let pdeFlags := { e.flags with huge := false, nx := false }
    page.map fun f =>
      ⟨pdeFlags, f, fun i => ⟨{ pdeFlags with identityShared := true }, e.frame + i, ()⟩⟩
  else some e

/-- The split of a 2-MiB page in `map_page_in_space`. -/
def splitInSpace (e : Entry PT) (page : Option Nat) : Option (Entry PT) :=
  if e.flags.huge then
    let origFlags := { e.flags with huge := false, nx := false }
    page.map fun f =>
      ⟨tableFlags, f, fun j =>
        ⟨{ origFlags with present := true, user := true, identityShared := true },
          e.frame / 512 * 512 + j, ()⟩⟩
  else some e

namespace PML4

variable {α : Type}

/-- The entries on the way of an address are written. -/
def put (t : PML4) (virt : Nat) (e4 : Entry PDPT) (e3 : Entry PD) (e2 : Entry PT) : PML4 :=
  let pd := Function.update e3.table (pdIndex virt) e2
  let pdpt := Function.update e4.table (pdptIndex virt) { e3 with table := pd }
  Function.update t (pml4Index virt) { e4 with table := pdpt }

/-- The entry of the last level is written. -/
def putLeaf (e2 : Entry PT) (virt : Nat) (e1 : Entry Unit) : Entry PT :=
  { e2 with table := Function.update e2.table (ptIndex virt) e1 }

/-- The way down that both mappers take; nothing stands for -1. -/
def mapWith (split : Entry PT → Option Nat → Option (Entry PT)) (leaf : Flags) (t : PML4)
    (virt phys : Nat) (new : NewTables) : Option PML4 := do
  let e4 ← getOrCreateTable (entry4 t virt) new.pdpt zeroPDPT
  let e3 ← getOrCreateTable (e4.table (pdptIndex virt)) new.pd zeroPD
  let e2 ← split (e3.table (pdIndex virt)) new.pt
  let e2 ← getOrCreateTable e2 new.pt zeroPT
  some (put t virt e4 e3 (putLeaf e2 virt ⟨leaf, phys / pageSize, ()⟩))

/-- `map_page_in_pml4`. -/
def mapPageInPml4 (t : PML4) (virt phys : Nat) (flags : Flags) (new : NewTables) : Option PML4 :=
  mapWith splitInPml4 { flags with present := true, nx := false } t virt phys new

/-- `map_page_in_space`. -/
def mapPageInSpace (t : PML4) (virt phys : Nat) (flags : Flags) (new : NewTables) : Option PML4 :=
  mapWith splitInSpace { flags with present := true } t virt phys new

/-- The address that the processor translates `v` to. -/
def translate (t : PML4) (v : Nat) : Option Nat :=
  let e3 := entry3 t v
  let e2 := entry2 t v
  let e1 := entry1 t v
  if (entry4 t v).flags.present && e3.flags.present then
    if e3.flags.huge then some (e3.frame / 2 ^ 18 * 2 ^ 18 * pageSize + v % 2 ^ 30)
    else if e2.flags.present then
      if e2.flags.huge then some (e2.frame / 512 * 512 * pageSize + v % 2 ^ 21)
      else if e1.flags.present then some (e1.frame * pageSize + v % pageSize)
      else none
    else none
  else none

/-! ## The entries that are passed -/

/-- `PAGE_USER` is set in an entry that is present. -/
def raised {α : Type} (e : Entry α) : Entry α :=
  if e.flags.present then { e with flags := e.flags.asUser } else e

/-- `PAGE_USER` is set in the entries on the way of an address, and nothing else. -/
def raise (t : PML4) (virt : Nat) : PML4 :=
  put t virt (raised (entry4 t virt)) (raised (entry3 t virt)) (raised (entry2 t virt))

/-- The page of `v` is not that of `virt`. -/
def Apart (v virt : Nat) : Prop := v / pageSize ≠ virt / pageSize

/-- Addresses in the same 2 MiB. -/
def SameRegion (v virt : Nat) : Prop :=
  pml4Index v = pml4Index virt ∧ pdptIndex v = pdptIndex virt ∧ pdIndex v = pdIndex virt

variable {t r r' : PML4} {v virt phys : Nat} {flags leaf : Flags} {new : NewTables}
  {split : Entry PT → Option Nat → Option (Entry PT)}

theorem isUserAccessible_eq (t : PML4) (v : Nat) : isUserAccessible t v false =
      ((entry4 t v).flags.present && (entry4 t v).flags.user && (entry3 t v).flags.present &&
        (entry3 t v).flags.user && (entry2 t v).flags.present && (entry2 t v).flags.user &&
        ((entry2 t v).flags.huge || ((entry1 t v).flags.present && (entry1 t v).flags.user))) := by
  unfold isUserAccessible
  dsimp only
  generalize (entry4 t v).flags = f4
  generalize (entry3 t v).flags = f3
  generalize (entry2 t v).flags = f2
  generalize (entry1 t v).flags = f1
  cases f4.present <;> cases f4.user <;> cases f3.present <;> cases f3.user <;>
    cases f2.present <;> cases f2.user <;> cases f2.huge <;> cases f1.present <;>
    cases f1.user <;> rfl

/-! ## Where an address meets what was written -/

variable {e4 : Entry PDPT} {e3 : Entry PD} {e2 : Entry PT}

theorem put_of_ne4 (h : pml4Index v ≠ pml4Index virt) :
    entry4 (put t virt e4 e3 e2) v = entry4 t v := update_of_ne h ..

theorem entry4_put (h : pml4Index v = pml4Index virt) :
    entry4 (put t virt e4 e3 e2) v = { e4 with
      table := update e4.table (pdptIndex virt) { e3 with
        table := update e3.table (pdIndex virt) e2 } } := by
  rw [entry4, h]
  exact update_self ..

theorem entry3_put_of_ne (h4 : pml4Index v = pml4Index virt) (h3 : pdptIndex v ≠ pdptIndex virt) :
    entry3 (put t virt e4 e3 e2) v = e4.table (pdptIndex v) := by
  rw [entry3, entry4_put h4]
  exact update_of_ne h3 ..

theorem entry3_put (h4 : pml4Index v = pml4Index virt) (h3 : pdptIndex v = pdptIndex virt) :
    entry3 (put t virt e4 e3 e2) v = { e3 with table := update e3.table (pdIndex virt) e2 } := by
  rw [entry3, entry4_put h4, h3]
  exact update_self ..

theorem entry2_put_of_ne (h4 : pml4Index v = pml4Index virt) (h3 : pdptIndex v = pdptIndex virt)
    (h2 : pdIndex v ≠ pdIndex virt) : entry2 (put t virt e4 e3 e2) v = e3.table (pdIndex v) := by
  rw [entry2, entry3_put h4 h3]
  exact update_of_ne h2 ..

theorem entry2_put (h : SameRegion v virt) : entry2 (put t virt e4 e3 e2) v = e2 := by
  rw [entry2, entry3_put h.1 h.2.1, h.2.2]
  exact update_self ..

/-- The entry that `get_or_create_table` leaves behind when it gets the page `f`. -/
def opened {α : Type} (e : Entry α) (f : Nat) (zero : α) : Entry α :=
  if e.flags.present then { e with flags := e.flags.asUser } else ⟨tableFlags, f, zero⟩

theorem getOrCreateTable_some (e : Entry α) (f : Nat) (zero : α) :
    getOrCreateTable e (some f) zero = some (opened e f zero) := by
  unfold getOrCreateTable opened
  split <;> rfl

theorem opened_flags (e : Entry α) (f : Nat) (zero : α) :
    (opened e f zero).flags.present = true ∧ (opened e f zero).flags.user = true := by
  unfold opened
  split
  · next h => exact ⟨h, rfl⟩
  · exact ⟨rfl, rfl⟩

/-- The way of an address ends at an entry that is not present. -/
def Absent (r : PML4) (v : Nat) : Prop :=
  (entry4 r v).flags.present = false ∨ (entry3 r v).flags.present = false ∨
    (entry3 r v).flags.huge = false ∧ (entry2 r v).flags.present = false

theorem Absent.eq_none (h : Absent r v) : isUserAccessible r v false = false ∧
    translate r v = none := by
  simp only [isUserAccessible_eq, translate]
  rcases h with h | h | ⟨h, h'⟩
  · simp [h]
  · simp [h]
  · simp [h, h']

theorem opened_of_present {e : Entry α} (h : e.flags.present = true) (f : Nat) (zero : α) :
    opened e f zero = { e with flags := e.flags.asUser } := if_pos h

theorem opened_of_absent {e : Entry α} (h : e.flags.present = false) (f : Nat) (zero : α) :
    opened e f zero = ⟨tableFlags, f, zero⟩ := if_neg (by simp [h])

theorem raised_of_present {e : Entry α} (h : e.flags.present = true) :
    raised e = { e with flags := e.flags.asUser } := if_pos h

theorem raised_of_absent {e : Entry α} (h : e.flags.present = false) :
    raised e = e := if_neg (by simp [h])

/-- The right of the user is raised, and the translation stays. -/
def Raises (r t : PML4) (virt v : Nat) : Prop :=
  isUserAccessible r v false = isUserAccessible (raise t virt) v false ∧
    translate r v = translate t v

theorem raises_of_absent (hr : Absent r v) (hraise : Absent (raise t virt) v) (ht : Absent t v) :
    Raises r t virt v :=
  ⟨hr.eq_none.1.trans hraise.eq_none.1.symm, hr.eq_none.2.trans ht.eq_none.2.symm⟩

/-- Below an entry of the first level that is not present. -/
theorem raises_of_absent4 (h4 : pml4Index v = pml4Index virt)
    (hp : (entry4 t virt).flags.present = false)
    (hr : Absent r v) : Raises r t virt v := by
  refine raises_of_absent hr (.inl ?_) (.inl ?_)
  · rw [raise, entry4_put h4, raised_of_absent hp]
    exact hp
  · rw [entry4, h4]
    exact hp

/-- The same table below, and the same entry above but for `PAGE_USER`. -/
theorem raises_of_entry3 (h4 : (entry4 r v).flags = (entry4 (raise t virt) v).flags)
    (hp : (entry4 r v).flags.present = (entry4 t v).flags.present)
    (h3 : entry3 r v = entry3 t v) (hraise : entry3 (raise t virt) v = entry3 t v) :
    Raises r t virt v := by
  constructor
  · simp only [isUserAccessible_eq, entry1, entry2, h4, h3, hraise]
  · unfold translate entry1 entry2
    dsimp only
    rw [hp, h3]

/-- Below another entry of the second level. -/
theorem raises_of_ne3 {p3 : Nat} (h4 : pml4Index v = pml4Index virt)
    (h3 : pdptIndex v ≠ pdptIndex virt) :
    Raises (put t virt (opened (entry4 t virt) p3 zeroPDPT) e3 e2) t virt v := by
  have hsame : entry4 t v = entry4 t virt := by rw [entry4, h4, entry4]
  cases hp : (entry4 t virt).flags.present with
  | true =>
    rw [opened_of_present hp]
    refine raises_of_entry3 ?_ ?_ ?_ ?_
    · rw [raise, entry4_put h4, entry4_put h4, raised_of_present hp]
    · rw [entry4_put h4, hsame]
      rfl
    · rw [entry3_put_of_ne h4 h3, entry3, hsame]
    · rw [raise, entry3_put_of_ne h4 h3, raised_of_present hp, entry3, hsame]
  | false =>
    refine raises_of_absent4 h4 hp (.inr (.inl ?_))
    rw [entry3_put_of_ne h4 h3, opened_of_absent hp]
    rfl

/-- Below another entry of the third level. -/
theorem raises_of_ne2 {p3 p2 : Nat} (h4 : pml4Index v = pml4Index virt)
    (h3 : pdptIndex v = pdptIndex virt) (h2 : pdIndex v ≠ pdIndex virt) :
    let e4 := opened (entry4 t virt) p3 zeroPDPT
    Raises (put t virt e4 (opened (e4.table (pdptIndex virt)) p2 zeroPD) e2) t virt v := by
  intro e4
  have hsame4 : entry4 t v = entry4 t virt := by rw [entry4, h4, entry4]
  have hsame3 : entry3 t v = entry3 t virt := by rw [entry3, hsame4, h3, entry3]
  cases hp : (entry4 t virt).flags.present with
  | true =>
    have he4 : e4 = { entry4 t virt with flags := (entry4 t virt).flags.asUser } :=
      opened_of_present hp _ _
    rw [he4]
    change Raises (put t virt _ (opened (entry3 t virt) p2 zeroPD) e2) t virt v
    cases hp3 : (entry3 t virt).flags.present with
    | true =>
      have hsame2 : entry2 t v = (entry3 t virt).table (pdIndex v) := by rw [entry2, hsame3]
      rw [opened_of_present hp3]
      constructor
      · simp only [isUserAccessible_eq, entry1, raise, entry2_put_of_ne h4 h3 h2, entry3_put h4 h3,
          entry4_put h4, raised_of_present hp, raised_of_present hp3]
      · simp only [translate, entry1, entry2_put_of_ne h4 h3 h2, entry3_put h4 h3, entry4_put h4,
          hsame2, hsame4, hsame3]
        rfl
    | false =>
      rw [opened_of_absent hp3]
      refine raises_of_absent (.inr (.inr ⟨?_, ?_⟩)) (.inr (.inl ?_)) (.inr (.inl ?_))
      · rw [entry3_put h4 h3]
        rfl
      · rw [entry2_put_of_ne h4 h3 h2]
        rfl
      · rw [raise, entry3_put h4 h3, raised_of_absent hp3]
        exact hp3
      · rw [hsame3]
        exact hp3
  | false =>
    have htable : e4.table (pdptIndex virt) = absent zeroPD := by
      show (opened (entry4 t virt) p3 zeroPDPT).table (pdptIndex virt) = _
      rw [opened_of_absent hp]
      rfl
    rw [htable, opened_of_absent rfl]
    refine raises_of_absent4 h4 hp (.inr (.inr ⟨?_, ?_⟩))
    · rw [entry3_put h4 h3]
      rfl
    · rw [entry2_put_of_ne h4 h3 h2]
      rfl

/-- **Outside of the 2 MiB** of the mapped page a mapper does what setting `PAGE_USER` on
the way does. -/
theorem raises_of_not_sameRegion (t : PML4) (p3 p2 : Nat) (e2 : Entry PT)
    (h : ¬ SameRegion v virt) :
    let e4 := opened (entry4 t virt) p3 zeroPDPT
    Raises (put t virt e4 (opened (e4.table (pdptIndex virt)) p2 zeroPD) e2) t virt v := by
  intro e4
  by_cases h4 : pml4Index v = pml4Index virt
  · by_cases h3 : pdptIndex v = pdptIndex virt
    · exact raises_of_ne2 h4 h3 fun h2 => h ⟨h4, h3, h2⟩
    · exact raises_of_ne3 h4 h3
  refine raises_of_entry3 ?_ ?_ ?_ ?_
  · rw [raise, put_of_ne4 h4, put_of_ne4 h4]
  · rw [put_of_ne4 h4]
  · rw [entry3, put_of_ne4 h4, entry3]
  · rw [raise, entry3, put_of_ne4 h4, entry3]

/-! ## The 2 MiB of the mapped page -/

section Region

variable {p3 p2 p1 : Nat} {b e : Entry PT} {e' : Entry Unit}

/-- The entry of the first level on the way. -/
def top (t : PML4) (virt p3 : Nat) : Entry PDPT := opened (entry4 t virt) p3 zeroPDPT

/-- The entry of the second level on the way. -/
def middle (t : PML4) (virt p3 p2 : Nat) : Entry PD :=
  opened ((top t virt p3).table (pdptIndex virt)) p2 zeroPD

/-- The entry of the third level that a mapper finds. -/
def found (t : PML4) (virt p3 p2 : Nat) : Entry PT := (middle t virt p3 p2).table (pdIndex virt)

/-- The tables with `e2` for the third level. -/
def written (t : PML4) (virt p3 p2 : Nat) (e2 : Entry PT) : PML4 :=
  put t virt (top t virt p3) (middle t virt p3 p2) e2

/-- The way down with enough memory. -/
theorem mapWith_some (t : PML4) (virt phys : Nat) :
    mapWith split leaf t virt phys ⟨some p3, some p2, some p1⟩ =
      (split (found t virt p3 p2) (some p1)).map fun s =>
        written t virt p3 p2 (putLeaf (opened s p1 zeroPT) virt ⟨leaf, phys / pageSize, ()⟩) := by
  unfold mapWith
  simp only [getOrCreateTable_some, Option.bind_eq_bind, Option.bind_some]
  show (split (found t virt p3 p2) (some p1)).bind _ = _
  cases split (found t virt p3 p2) (some p1) <;> rfl

theorem top_table (hp : (entry4 t virt).flags.present = true) :
    (top t virt p3).table (pdptIndex virt) = entry3 t virt := by
  rw [top, opened_of_present hp]
  rfl

/-- Both tables above the entry were there, or a new one is empty. -/
theorem found_eq (t : PML4) (virt p3 p2 : Nat) :
    ((entry4 t virt).flags.present = true ∧ (entry3 t virt).flags.present = true ∧
        found t virt p3 p2 = entry2 t virt) ∨
      (((entry4 t virt).flags.present = false ∨ (entry3 t virt).flags.present = false) ∧
        found t virt p3 p2 = absent zeroPT) := by
  cases hp : (entry4 t virt).flags.present with
  | true =>
    cases hp3 : (entry3 t virt).flags.present with
    | true =>
      refine .inl ⟨rfl, rfl, ?_⟩
      rw [found, middle, top_table hp, opened_of_present hp3]
      rfl
    | false =>
      refine .inr ⟨.inr rfl, ?_⟩
      rw [found, middle, top_table hp, opened_of_absent hp3]
      rfl
  | false =>
    refine .inr ⟨.inl rfl, ?_⟩
    rw [found, middle, top, opened_of_absent hp]
    rfl

theorem accessible_written (t : PML4) (p3 p2 : Nat) (e2 : Entry PT) (h : SameRegion v virt)
    (hp : e2.flags.present = true)
    (hu : e2.flags.user = true) (hh : e2.flags.huge = false) :
    isUserAccessible (written t virt p3 p2 e2) v false =
      ((e2.table (ptIndex v)).flags.present && (e2.table (ptIndex v)).flags.user) := by
  have htop := opened_flags (entry4 t virt) p3 zeroPDPT
  have hmid := opened_flags ((top t virt p3).table (pdptIndex virt)) p2 zeroPD
  simp only [isUserAccessible_eq, entry1, written, entry4_put h.1, entry3_put h.1 h.2.1,
    entry2_put h, top, middle] at htop hmid ⊢
  simp [htop, hmid, hp, hu, hh]

theorem translate_written (t : PML4) (p3 p2 : Nat) (e2 : Entry PT) (h : SameRegion v virt)
    (hp : e2.flags.present = true)
    (hh : e2.flags.huge = false) :
    translate (written t virt p3 p2 e2) v =
      if (middle t virt p3 p2).flags.huge then
        some ((middle t virt p3 p2).frame / 2 ^ 18 * 2 ^ 18 * pageSize + v % 2 ^ 30)
      else if (e2.table (ptIndex v)).flags.present then
        some ((e2.table (ptIndex v)).frame * pageSize + v % pageSize)
      else none := by
  have htop : (top t virt p3).flags.present = true := (opened_flags ..).1
  have hmid : (middle t virt p3 p2).flags.present = true := (opened_flags ..).1
  simp only [translate, entry1, written, entry4_put h.1, entry3_put h.1 h.2.1, entry2_put h]
  simp [htop, hmid, hp, hh]

/-- A table of the last level that the user may pass. -/
def IsTable (e : Entry PT) : Prop :=
  e.flags.present = true ∧ e.flags.user = true ∧ e.flags.huge = false

/-- The user may reach the page of the entry. -/
def isOpen (e : Entry Unit) : Bool := e.flags.present && e.flags.user

/-- What the processor makes of an entry of the last level, below `middle`. -/
def leafAddress (mid : Entry PD) (e : Entry Unit) (v : Nat) : Option Nat :=
  if mid.flags.huge then some (mid.frame / 2 ^ 18 * 2 ^ 18 * pageSize + v % 2 ^ 30)
  else if e.flags.present then some (e.frame * pageSize + v % pageSize)
  else none

theorem written_putLeaf (t : PML4) (p3 p2 : Nat) {a : Entry PT} (e1 : Entry Unit) (ha : IsTable a)
    (h : SameRegion v virt) :
    let e := if ptIndex v = ptIndex virt then e1 else a.table (ptIndex v)
    isUserAccessible (written t virt p3 p2 (putLeaf a virt e1)) v false = isOpen e ∧
      translate (written t virt p3 p2 (putLeaf a virt e1)) v =
        leafAddress (middle t virt p3 p2) e v := by
  intro e
  have he : (putLeaf a virt e1).table (ptIndex v) = e := update_apply ..
  have hacc := accessible_written t p3 p2 (putLeaf a virt e1) h ha.1 ha.2.1 ha.2.2
  have htrans := translate_written t p3 p2 (putLeaf a virt e1) h ha.1 ha.2.2
  rw [he] at hacc htrans
  exact ⟨hacc, htrans⟩

/-- **The two mappers agree** on every address, and open none but the page that is mapped. -/
def Agree (t r r' : PML4) (virt : Nat) : Prop :=
  ∀ v < 2 ^ 48, translate r v = translate r' v ∧
    isUserAccessible r v false = isUserAccessible r' v false ∧
    (Apart v virt → (isUserAccessible r v false = true → isUserAccessible t v false = true) ∧
      (isUserAccessible r' v false = true → isUserAccessible t v false = true))

theorem apart_iff (hv : v < 2 ^ 48) (hvirt : virt < 2 ^ 47) :
    Apart v virt ↔ (SameRegion v virt → ptIndex v ≠ ptIndex virt) := by
  simp only [Apart, SameRegion, pml4Index, pdptIndex, pdIndex, ptIndex, pageSize]
  omega

/-- Two tables of the last level that hold the same for the user and for the processor. -/
def Alike (mid : Entry PD) (x y : Entry Unit) : Prop :=
  isOpen x = isOpen y ∧
    (mid.flags.huge = false → x.flags.present = y.flags.present ∧
      (x.flags.present = true → x.frame = y.frame))

theorem leafAddress_eq_iff {mid : Entry PD} {x y : Entry Unit} :
    (leafAddress mid x v = leafAddress mid y v) ↔
      (mid.flags.huge = false → x.flags.present = y.flags.present ∧
        (x.flags.present = true → x.frame = y.frame)) := by
  unfold leafAddress
  cases mid.flags.huge <;> cases x.flags.present <;> cases y.flags.present <;> simp [pageSize]

/-- The mappers agree when the tables they leave behind do, and open what setting
`PAGE_USER` on the way opens. -/
theorem agree_iff_tables {a : Entry PT} {e : Entry Unit} (hvirt : virt < 2 ^ 47)
    (ha : IsTable a) (hb : IsTable b) (hleaf : Alike (middle t virt p3 p2) e e') :
    Agree t (written t virt p3 p2 (putLeaf a virt e)) (written t virt p3 p2 (putLeaf b virt e'))
        virt ↔
      (∀ v < 2 ^ 48, ¬ SameRegion v virt → isUserAccessible (raise t virt) v false = true →
        isUserAccessible t v false = true) ∧
      ∀ v < 2 ^ 48, SameRegion v virt → ptIndex v ≠ ptIndex virt →
        Alike (middle t virt p3 p2) (a.table (ptIndex v)) (b.table (ptIndex v)) ∧
        (isOpen (a.table (ptIndex v)) = true → isUserAccessible t v false = true) := by
  refine ⟨fun hagree => ⟨fun v hv hregion hraise => ?_, fun v hv hregion hpt => ?_⟩,
    fun ⟨hout, hin⟩ v hv => ?_⟩
  · have hr := raises_of_not_sameRegion t p3 p2 (putLeaf a virt e) hregion
    have hapart := (apart_iff hv hvirt).2 fun h => absurd h hregion
    exact ((hagree v hv).2.2 hapart).1 (hr.1.trans hraise)
  · obtain ⟨htrans, hacc, hopen⟩ := hagree v hv
    obtain ⟨hacc₁, htrans₁⟩ := written_putLeaf t p3 p2 e ha hregion
    obtain ⟨hacc₂, htrans₂⟩ := written_putLeaf t p3 p2 e' hb hregion
    rw [if_neg hpt] at hacc₁ htrans₁ hacc₂ htrans₂
    rw [hacc₁, hacc₂] at hacc
    rw [htrans₁, htrans₂] at htrans
    refine ⟨⟨hacc, leafAddress_eq_iff.1 htrans⟩, fun h => ?_⟩
    exact (hopen ((apart_iff hv hvirt).2 fun _ => hpt)).1 (hacc₁.trans h)
  · by_cases hregion : SameRegion v virt
    · obtain ⟨hacc₁, htrans₁⟩ := written_putLeaf t p3 p2 e ha hregion
      obtain ⟨hacc₂, htrans₂⟩ := written_putLeaf t p3 p2 e' hb hregion
      rw [hacc₁, hacc₂, htrans₁, htrans₂]
      by_cases hpt : ptIndex v = ptIndex virt
      · rw [if_pos hpt, if_pos hpt]
        exact ⟨leafAddress_eq_iff.2 hleaf.2, hleaf.1, fun hapart =>
          absurd hpt ((apart_iff hv hvirt).1 hapart hregion)⟩
      obtain ⟨halike, hopen⟩ := hin v hv hregion hpt
      rw [if_neg hpt, if_neg hpt]
      exact ⟨leafAddress_eq_iff.2 halike.2, halike.1, fun _ =>
        ⟨hopen, fun h => hopen (halike.1.trans h)⟩⟩
    have hr := raises_of_not_sameRegion t p3 p2 (putLeaf a virt e) hregion
    have hr' := raises_of_not_sameRegion t p3 p2 (putLeaf b virt e') hregion
    exact ⟨hr.2.trans hr'.2.symm, hr.1.trans hr'.1.symm, fun _ =>
      ⟨fun h => hout v hv hregion (hr.1.symm.trans h),
        fun h => hout v hv hregion (hr'.1.symm.trans h)⟩⟩

/-! ## The condition -/

/-- Setting `PAGE_USER` on the way of `virt` opens no other page. -/
def OpensNothing (t : PML4) (virt : Nat) : Prop :=
  ∀ v < 2 ^ 48, Apart v virt → isUserAccessible (raise t virt) v false = true →
    isUserAccessible t v false = true

/-- A 2-MiB page on the way of `virt` is present, is for the user and starts at a
multiple of 2 MiB. -/
def LargeForUser (t : PML4) (virt : Nat) : Prop :=
  (entry4 t virt).flags.present = true → (entry3 t virt).flags.present = true →
    (entry2 t virt).flags.huge = true →
    (entry2 t virt).flags.present = true ∧ (entry2 t virt).flags.user = true ∧
      ((entry3 t virt).flags.huge = false → (entry2 t virt).frame % 512 = 0)

/-- Another page of the same 2 MiB. -/
def neighbour (virt : Nat) : Nat :=
  virt / 2 ^ 21 * 2 ^ 21 + (virt / pageSize + 1) % 512 * pageSize

theorem neighbour_spec (hvirt : virt < 2 ^ 47) :
    neighbour virt < 2 ^ 48 ∧ SameRegion (neighbour virt) virt ∧
      ptIndex (neighbour virt) ≠ ptIndex virt := by
  simp only [neighbour, SameRegion, pml4Index, pdptIndex, pdIndex, ptIndex, pageSize]
  omega

/-- What setting `PAGE_USER` opens in the same 2 MiB. -/
theorem accessible_raise (h : SameRegion v virt) : isUserAccessible (raise t virt) v false =
      ((entry4 t virt).flags.present && (entry3 t virt).flags.present &&
        (entry2 t virt).flags.present && ((entry2 t virt).flags.huge ||
          isOpen ((entry2 t virt).table (ptIndex v)))) := by
  have hentry : entry2 (raise t virt) v = raised (entry2 t virt) := entry2_put h
  simp only [isUserAccessible_eq, entry1, hentry]
  rw [raise, entry4_put h.1, entry3_put h.1 h.2.1]
  dsimp only [isOpen]
  cases hp : (entry4 t virt).flags.present with
  | false => simp [raised_of_absent hp, hp]
  | true =>
    cases hp3 : (entry3 t virt).flags.present with
    | false => simp [raised_of_absent hp3, hp3]
    | true =>
      cases hp2 : (entry2 t virt).flags.present with
      | false => simp [raised_of_absent hp2, hp2]
      | true =>
        simp [raised_of_present hp, raised_of_present hp3, raised_of_present hp2,
          Flags.asUser, hp, hp3, hp2]

/-- The addresses of the condition, those of the 2 MiB apart. -/
theorem opensNothing_iff (hvirt : virt < 2 ^ 47) : OpensNothing t virt ↔
      (∀ v < 2 ^ 48, ¬ SameRegion v virt → isUserAccessible (raise t virt) v false = true →
        isUserAccessible t v false = true) ∧
      ∀ v < 2 ^ 48, SameRegion v virt → ptIndex v ≠ ptIndex virt →
        isUserAccessible (raise t virt) v false = true → isUserAccessible t v false = true := by
  refine ⟨fun h => ⟨fun v hv hregion => ?_, fun v hv hregion hpt => ?_⟩,
    fun ⟨hout, hin⟩ v hv hapart => ?_⟩
  · exact h v hv ((apart_iff hv hvirt).2 fun hr => absurd hr hregion)
  · exact h v hv ((apart_iff hv hvirt).2 fun _ => hpt)
  · by_cases hregion : SameRegion v virt
    · exact hin v hv hregion ((apart_iff hv hvirt).1 hapart hregion)
    · exact hout v hv hregion

theorem opened_isTable (p1 : Nat) (h : e.flags.present = true → e.flags.huge = false) :
    IsTable (opened e p1 zeroPT) := by
  refine ⟨(opened_flags e p1 zeroPT).1, (opened_flags e p1 zeroPT).2, ?_⟩
  cases hp : e.flags.present with
  | true =>
    rw [opened_of_present hp]
    exact h hp
  | false => rw [opened_of_absent hp]; rfl

/-- The table in place of a 2-MiB page after `map_page_in_space`. -/
def spaceTable (e : Entry PT) (p1 : Nat) : Entry PT :=
  let origFlags := { e.flags with huge := false, nx := false }
  ⟨tableFlags, p1, fun j =>
    ⟨{ origFlags with present := true, user := true, identityShared := true },
      e.frame / 512 * 512 + j, ()⟩⟩

/-- The table in place of a 2-MiB page after `map_page_in_pml4`. -/
def pml4Table (e : Entry PT) (p1 : Nat) : Entry PT :=
  ⟨{ e.flags with huge := false, nx := false }, p1, fun i =>
    ⟨{ e.flags with huge := false, nx := false, identityShared := true }, e.frame + i, ()⟩⟩

theorem splitInSpace_huge (h : e.flags.huge = true) :
    splitInSpace e (some p1) = some (spaceTable e p1) := if_pos h

theorem splitInPml4_huge (hp : e.flags.present = true) (h : e.flags.huge = true) :
    splitInPml4 e (some p1) = some (pml4Table e p1) := if_pos (by rw [hp, h]; rfl)

theorem splitInSpace_small (h : e.flags.huge = false) :
    splitInSpace e (some p1) = some e := if_neg (by simp [h])

theorem splitInPml4_small (h : (e.flags.present && e.flags.huge) = false) :
    splitInPml4 e (some p1) = some e := if_neg (by simp [h])

/-- Both tables above are there: the entry found is that of the address. -/
theorem middle_huge (hp : (entry4 t virt).flags.present = true)
    (hp3 : (entry3 t virt).flags.present = true) :
    (middle t virt p3 p2).flags.huge = (entry3 t virt).flags.huge := by
  rw [middle, top_table hp, opened_of_present hp3]
  rfl

/-- The two entries for the mapped page itself. -/
theorem alike_leaf (mid : Entry PD) (flags : Flags) (f : Nat) :
    Alike mid ⟨{ flags with present := true }, f, ()⟩
      ⟨{ flags with present := true, nx := false }, f, ()⟩ :=
  ⟨rfl, fun _ => ⟨rfl, fun _ => rfl⟩⟩

/-- No 2-MiB page on the way. -/
theorem agree_iff_of_small (hvirt : virt < 2 ^ 47)
    (hsmall : (found t virt p3 p2).flags.huge = false) {e : Entry Unit}
    (hleaf : Alike (middle t virt p3 p2) e e') :
    Agree t (written t virt p3 p2 (putLeaf (opened (found t virt p3 p2) p1 zeroPT) virt e))
        (written t virt p3 p2 (putLeaf (opened (found t virt p3 p2) p1 zeroPT) virt e')) virt ↔
      OpensNothing t virt := by
  have htable := opened_isTable p1 fun _ => hsmall
  rw [agree_iff_tables hvirt htable htable hleaf, opensNothing_iff hvirt]
  -- the entries of the table left behind are open where setting `PAGE_USER` opens the page
  have hopen : ∀ v, SameRegion v virt →
      isOpen ((opened (found t virt p3 p2) p1 zeroPT).table (ptIndex v)) =
        isUserAccessible (raise t virt) v false := by
    intro v hregion
    rw [accessible_raise hregion]
    rcases found_eq t virt p3 p2 with ⟨hp, hp3, hfound⟩ | ⟨habsent, hfound⟩
    · rw [hfound] at hsmall ⊢
      cases hp2 : (entry2 t virt).flags.present with
      | true => simp [opened_of_present hp2, hp, hp3, hsmall]
      | false =>
        rw [opened_of_absent hp2, Bool.and_false, Bool.false_and]
        rfl
    · rw [hfound]
      rcases habsent with h | h <;> rw [h] <;> simp <;> rfl
  refine and_congr_right fun _ => forall_congr' fun v => forall_congr' fun _ =>
    forall_congr' fun hregion => forall_congr' fun _ => ?_
  rw [hopen v hregion]
  exact ⟨fun h => h.2, fun h => ⟨⟨rfl, fun _ => ⟨rfl, fun _ => rfl⟩⟩, h⟩⟩

/-- A 2-MiB page of the supervisor, or one that is not present, is split differently. -/
theorem not_agree_of_large (hvirt : virt < 2 ^ 47) {e : Entry Unit}
    (hleaf : Alike (middle t virt p3 p2) e e') (hb : IsTable b)
    (hclosed : ∀ i, isOpen (b.table i) = false) :
    ¬ Agree t (written t virt p3 p2 (putLeaf (spaceTable (entry2 t virt) p1) virt e))
        (written t virt p3 p2 (putLeaf b virt e')) virt := by
  intro hagree
  obtain ⟨hlt, hregion, hpt⟩ := neighbour_spec hvirt
  have halike := (((agree_iff_tables hvirt ⟨rfl, rfl, rfl⟩ hb hleaf).1 hagree).2 _ hlt
    hregion hpt).1.1
  rw [hclosed] at halike
  exact Bool.noConfusion halike

/-- A 2-MiB page of the user is split alike when it starts at a multiple of 2 MiB. -/
theorem agree_iff_of_large (hvirt : virt < 2 ^ 47) {e : Entry Unit}
    (hleaf : Alike (middle t virt p3 p2) e e') (hp : (entry4 t virt).flags.present = true)
    (hp3 : (entry3 t virt).flags.present = true) (hp2 : (entry2 t virt).flags.present = true)
    (hu : (entry2 t virt).flags.user = true) (hh : (entry2 t virt).flags.huge = true)
    (hb : IsTable b) (htable : b.table = (pml4Table (entry2 t virt) p1).table) :
    Agree t (written t virt p3 p2 (putLeaf (spaceTable (entry2 t virt) p1) virt e))
        (written t virt p3 p2 (putLeaf b virt e')) virt ↔
      OpensNothing t virt ∧
        ((entry3 t virt).flags.huge = false → (entry2 t virt).frame % 512 = 0) := by
  rw [agree_iff_tables hvirt ⟨rfl, rfl, rfl⟩ hb hleaf, opensNothing_iff hvirt, htable, and_assoc]
  refine and_congr_right fun _ => ?_
  have hraise : ∀ v, SameRegion v virt → isUserAccessible (raise t virt) v false = true := by
    intro v hregion
    simp [accessible_raise hregion, hp, hp3, hp2, hh]
  constructor
  · intro h
    refine ⟨fun v hv hregion hpt _ => (h v hv hregion hpt).2 rfl, fun hsmall => ?_⟩
    obtain ⟨hlt, hregion, hpt⟩ := neighbour_spec hvirt
    have hframe := ((h _ hlt hregion hpt).1.2 ((middle_huge hp hp3).trans hsmall)).2 rfl
    simp only [spaceTable, pml4Table] at hframe
    omega
  rintro ⟨hopen, hframe⟩ v hv hregion hpt
  refine ⟨⟨?_, fun hsmall => ⟨hp2.symm, fun _ => ?_⟩⟩, fun _ =>
    hopen v hv hregion hpt (hraise v hregion)⟩
  · simp [isOpen, spaceTable, pml4Table, hp2, hu]
  · have := hframe ((middle_huge hp hp3).symm.trans hsmall)
    simp only [spaceTable, pml4Table]
    omega

/-- **The two mappers agree, and open the mapped page only, exactly when** setting
`PAGE_USER` on the way opens no other page and a 2-MiB page on the way is one of
the user. -/
theorem agree_iff (t : PML4) (virt phys : Nat) (flags : Flags) (p3 p2 p1 : Nat)
    (hvirt : virt < 2 ^ 47) :
    (∃ r r', mapPageInSpace t virt phys flags ⟨some p3, some p2, some p1⟩ = some r ∧
        mapPageInPml4 t virt phys flags ⟨some p3, some p2, some p1⟩ = some r' ∧
        Agree t r r' virt) ↔
      OpensNothing t virt ∧ LargeForUser t virt := by
  have hleaf := alike_leaf (middle t virt p3 p2) flags (phys / pageSize)
  simp only [mapPageInSpace, mapPageInPml4, mapWith_some]
  cases hhuge : (found t virt p3 p2).flags.huge with
  | false =>
    rw [splitInSpace_small hhuge, splitInPml4_small (by rw [hhuge, Bool.and_false])]
    have hlarge : LargeForUser t virt := by
      intro hp hp3 hh
      rcases found_eq t virt p3 p2 with ⟨_, _, hfound⟩ | ⟨h | h, _⟩
      · rw [hfound, hh] at hhuge
        exact Bool.noConfusion hhuge
      · rw [hp] at h
        exact Bool.noConfusion h
      · rw [hp3] at h
        exact Bool.noConfusion h
    simp only [Option.map_some, Option.some.injEq, exists_and_left, exists_eq_left', hlarge,
      and_true]
    exact agree_iff_of_small hvirt hhuge hleaf
  | true =>
    rcases found_eq t virt p3 p2 with ⟨hp, hp3, hfound⟩ | ⟨_, hfound⟩
    · rw [hfound] at hhuge ⊢
      have hspace : opened (spaceTable (entry2 t virt) p1) p1 zeroPT =
          spaceTable (entry2 t virt) p1 := rfl
      rw [splitInSpace_huge hhuge]
      cases hp2 : (entry2 t virt).flags.present with
      | false =>
        rw [splitInPml4_small (by rw [hp2, Bool.false_and])]
        simp only [Option.map_some, Option.some.injEq, exists_and_left, exists_eq_left', hspace]
        refine iff_of_false (not_agree_of_large hvirt hleaf
          (opened_isTable _ fun h => Bool.noConfusion (hp2.symm.trans h)) fun i => ?_) fun h => ?_
        · rw [opened_of_absent hp2]
          rfl
        · exact Bool.noConfusion (hp2.symm.trans (h.2 hp hp3 hhuge).1)
      | true =>
        rw [splitInPml4_huge hp2 hhuge]
        simp only [Option.map_some, Option.some.injEq, exists_and_left, exists_eq_left', hspace]
        have hopened : (opened (pml4Table (entry2 t virt) p1) p1 zeroPT).table =
            (pml4Table (entry2 t virt) p1).table := by
          rw [opened_of_present (show (pml4Table (entry2 t virt) p1).flags.present = true from hp2)]
        have htable : IsTable (opened (pml4Table (entry2 t virt) p1) p1 zeroPT) :=
          opened_isTable _ fun _ => rfl
        cases hu : (entry2 t virt).flags.user with
        | false =>
          refine iff_of_false (not_agree_of_large hvirt hleaf htable fun i => ?_) fun h => ?_
          · rw [hopened]
            simp [isOpen, pml4Table, hu]
          · exact Bool.noConfusion (hu.symm.trans (h.2 hp hp3 hhuge).2.1)
        | true =>
          rw [agree_iff_of_large hvirt hleaf hp hp3 hp2 hu hhuge htable hopened]
          refine and_congr_right fun _ => ⟨fun h _ _ _ => ⟨hp2, hu, h⟩, fun h => ?_⟩
          exact (h hp hp3 hhuge).2.2
    · rw [hfound] at hhuge
      exact Bool.noConfusion hhuge

end Region

/-- Page tables with nothing in them. -/
def emptySpace : PML4 := fun _ => absent zeroPDPT

/-- Where the user may pass already, nothing is opened. -/
theorem raise_of_user (h4 : (entry4 t virt).flags.user = true)
    (h3 : (entry3 t virt).flags.user = true)
    (h2 : (entry2 t virt).flags.user = true) : raise t virt = t := by
  have hraised : ∀ {α : Type} (e : Entry α), e.flags.user = true → raised e = e := by
    rintro α ⟨flags, frame, table⟩ h
    unfold raised
    split
    · rw [show flags.asUser = flags by cases flags; cases h; rfl]
    · rfl
  rw [raise, hraised _ h4, hraised _ h3, hraised _ h2, put]
  simp only [entry2, entry3, entry4, Function.update_eq_self]

/-- The lowest GiB, in pages of 2 MiB for the user. -/
def userMap : PML4 :=
  let pd : PD := fun i =>
    ⟨{ present := true, write := true, user := true, huge := true }, i * 512, zeroPT⟩
  let pdpt : PDPT := fun i =>
    if i = 0 then ⟨{ present := true, write := true, user := true }, 3, pd⟩ else absent zeroPD
  fun i =>
    if i = 0 then ⟨{ present := true, write := true, user := true }, 2, pdpt⟩ else absent zeroPDPT

/-- The mappers agree on a page for which one of 2 MiB is split. -/
theorem agree_userMap :
    (0x400000 : Nat) < 2 ^ 47 ∧
      ∃ r r', mapPageInSpace userMap 0x400000 0x900000 tableFlags ⟨some 1, some 2, some 3⟩ =
          some r ∧
        mapPageInPml4 userMap 0x400000 0x900000 tableFlags ⟨some 1, some 2, some 3⟩ = some r' ∧
        Agree userMap r r' 0x400000 := by
  refine ⟨by decide, (agree_iff userMap 0x400000 0x900000 tableFlags 1 2 3 (by decide)).2
    ⟨fun v _ _ hopen => ?_, fun _ _ _ => ⟨rfl, rfl, fun _ => rfl⟩⟩⟩
  rwa [raise_of_user rfl rfl rfl] at hopen

/-- The low identity map of a new address space: pages of 2 MiB for the supervisor. -/
def identityMap : PML4 :=
  let pd : PD := fun i => ⟨{ present := true, write := true, huge := true }, i * 512, zeroPT⟩
  let pdpt : PDPT := fun i =>
    if i = 0 then ⟨{ present := true, write := true }, 3, pd⟩ else absent zeroPD
  fun i => if i = 0 then ⟨{ present := true, write := true }, 2, pdpt⟩ else absent zeroPDPT

/-- **The first segment of a program** opens the 511 pages beside its first page when
`map_page_in_space` maps it; `map_page_in_pml4` keeps them closed. -/
theorem not_agree_identityMap :
    ∃ r r', mapPageInSpace identityMap 0x400000 0x900000 tableFlags ⟨some 1, some 2, some 3⟩ =
        some r ∧
      mapPageInPml4 identityMap 0x400000 0x900000 tableFlags ⟨some 1, some 2, some 3⟩ = some r' ∧
      isUserAccessible identityMap 0x401000 false = false ∧
      isUserAccessible r 0x401000 false = true ∧ isUserAccessible r' 0x401000 false = false ∧
      ¬ Agree identityMap r r' 0x400000 := by
  refine ⟨_, _, rfl, rfl, by decide, by decide, by decide, fun h => ?_⟩
  have hsame := (h 0x401000 (by decide)).2.1
  revert hsame
  decide

end PML4

end Paging
