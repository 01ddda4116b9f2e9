import LufiraOS.Paging.Core
import Mathlib.Tactic.Ring

/-!
# The check of user pointers

`is_user_range_valid` answers yes exactly when each page of the range is accessible.
Two things that its callers rely on do not follow: the indices of an address leave out
its upper sixteen bits, so an address that is not canonical passes with the low one it
agrees with; and only the entry that maps the page is asked for the right to write.
-/

namespace Paging

namespace PML4

variable {t : PML4} {v addr len : Nat} {w : Bool}

/-- An accessible address is mapped, for the user at every level. -/
theorem walk_of_isUserAccessible (h : isUserAccessible t v w = true) :
    ∃ fs f, walk t v = some (fs ++ [f]) ∧ ∀ g ∈ fs ++ [f], g.user = true := by
  unfold isUserAccessible at h
  unfold walk
  dsimp only at h ⊢
  generalize (entry4 t v).flags = f4 at h ⊢
  generalize (entry3 t v).flags = f3 at h ⊢
  generalize (entry2 t v).flags = f2 at h ⊢
  generalize (entry1 t v).flags = f1 at h ⊢
  cases hp4 : f4.present <;> cases hu4 : f4.user <;> simp [hp4, hu4] at h
  cases hp3 : f3.present <;> cases hu3 : f3.user <;> simp [hp3, hu3] at h
  cases hh3 : f3.huge with
  | true => exact ⟨[f4], f3, by simp, by simp [hu4, hu3]⟩
  | false =>
    cases hp2 : f2.present <;> cases hu2 : f2.user <;> simp [hp2, hu2] at h
    cases hh2 : f2.huge with
    | true => exact ⟨[f4, f3], f2, by simp, by simp [hu4, hu3, hu2]⟩
    | false =>
      simp only [hh2, Bool.false_eq_true, if_false] at h
      cases hp1 : f1.present <;> cases hu1 : f1.user <;> simp [hp1, hu1] at h
      exact ⟨[f4, f3, f2], f1, by simp, by simp [hu4, hu3, hu2, hu1]⟩

/-- Addresses of one page have the same way. -/
theorem index_page (v : Nat) : pml4Index (v / pageSize * pageSize) = pml4Index v ∧
      pdptIndex (v / pageSize * pageSize) = pdptIndex v ∧
      pdIndex (v / pageSize * pageSize) = pdIndex v ∧
      ptIndex (v / pageSize * pageSize) = ptIndex v := by
  simp only [pml4Index, pdptIndex, pdIndex, ptIndex, pageSize]
  omega

theorem isUserAccessible_page (t : PML4) (v : Nat) (w : Bool) :
    isUserAccessible t (v / pageSize * pageSize) w = isUserAccessible t v w := by
  obtain ⟨h4, h3, h2, h1⟩ := index_page v
  unfold isUserAccessible entry1 entry2 entry3 entry4
  rw [h4, h3, h2, h1]

/-- The loop asks for every page up to the last one. -/
theorem rangeLoop_eq_true_iff {a n k : Nat} (hk : k < n) (hend : (a + k) * pageSize < 2 ^ 64) :
    rangeLoop t w ((a + k) * pageSize) n (a * pageSize) = true ↔
      ∀ i ≤ k, isUserAccessible t ((a + i) * pageSize) w = true := by
  -- on the pages that are left
  induction k generalizing a n with
  | zero =>
    obtain ⟨n, rfl⟩ : ∃ m, n = m + 1 := ⟨n - 1, by omega⟩
    rw [rangeLoop, Nat.add_zero]
    cases hacc : isUserAccessible t (a * pageSize) w with
    | true => simpa using hacc
    | false => simpa using hacc
  | succ k ih =>
    obtain ⟨n, rfl⟩ : ∃ m, n = m + 1 := ⟨n - 1, by omega⟩
    have hne : a * pageSize ≠ (a + (k + 1)) * pageSize := by
      simp only [pageSize]
      omega
    have hnext : (a * pageSize + pageSize) % 2 ^ 64 = (a + 1) * pageSize := by
      simp only [pageSize] at hend ⊢
      omega
    have hlast : a + (k + 1) = a + 1 + k := by omega
    rw [rangeLoop, hnext, hlast]
    rw [hlast] at hne hend
    have hsplit : (∀ i ≤ k + 1, isUserAccessible t ((a + i) * pageSize) w = true) ↔
        isUserAccessible t (a * pageSize) w = true ∧
          ∀ i ≤ k, isUserAccessible t ((a + 1 + i) * pageSize) w = true := by
      constructor
      · intro h
        refine ⟨by simpa using h 0 (Nat.zero_le _), fun i hi => ?_⟩
        rw [Nat.add_assoc, Nat.add_comm 1 i]
        exact h (i + 1) (Nat.succ_le_succ hi)
      rintro ⟨h0, h⟩ i hi
      cases i with
      | zero => simpa using h0
      | succ i =>
        rw [← Nat.add_assoc, Nat.add_right_comm]
        exact h i (Nat.le_of_succ_le_succ hi)
    rw [hsplit]
    cases hacc : isUserAccessible t (a * pageSize) w with
    | true =>
      simp only [Bool.not_true, Bool.false_eq_true, if_false, hne, true_and]
      exact ih (by omega) hend
    | false => simp

/-- The range does not wrap, and each of its addresses is accessible. -/
def Passes (t : PML4) (addr len : Nat) (w : Bool) : Prop :=
  addr + len ≤ 2 ^ 64 ∧ ∀ v, addr ≤ v → v < addr + len → isUserAccessible t v w = true

/-- **What the check answers.** -/
theorem isUserRangeValid_eq_true_iff (haddr : addr < 2 ^ 64) (hlen : len < 2 ^ 64)
    (hpos : 0 < len) :
    isUserRangeValid t addr len w = true ↔ Passes t addr len w := by
  unfold isUserRangeValid Passes
  rw [if_neg (by omega)]
  by_cases hwrap : addr + len ≤ 2 ^ 64
  · have hlast : (addr + len - 1) % 2 ^ 64 = addr + len - 1 := Nat.mod_eq_of_lt (by omega)
    obtain ⟨k, hk⟩ : ∃ k, (addr + len - 1) / pageSize = addr / pageSize + k :=
      ⟨(addr + len - 1) / pageSize - addr / pageSize, by
        simp only [pageSize]
        omega⟩
    rw [hlast, if_neg (by omega), hk]
    have hbound : addr / pageSize + k < 2 ^ 52 := by
      rw [← hk]
      simp only [pageSize]
      omega
    have hturns : k < 2 ^ 52 := Nat.lt_of_le_of_lt (Nat.le_add_left _ _) hbound
    have hend : (addr / pageSize + k) * pageSize < 2 ^ 64 := by
      simp only [pageSize] at hbound ⊢
      omega
    rw [rangeLoop_eq_true_iff hturns hend]
    refine ⟨fun h => ⟨hwrap, fun v hlo hhi => ?_⟩, fun h i hi => ?_⟩
    · obtain ⟨i, hi⟩ : ∃ i, v / pageSize = addr / pageSize + i :=
        ⟨v / pageSize - addr / pageSize, by
          simp only [pageSize]
          omega⟩
      rw [← isUserAccessible_page, hi]
      refine h i ?_
      simp only [pageSize] at hi hk
      omega
    by_cases hzero : i = 0
    · rw [hzero, Nat.add_zero, isUserAccessible_page]
      exact h.2 addr (Nat.le_refl _) (by omega)
    refine h.2 _ ?_ ?_
    · simp only [pageSize]
      omega
    · simp only [pageSize] at hk ⊢
      omega
  · have hlast : (addr + len - 1) % 2 ^ 64 < addr := by omega
    rw [if_pos hlast]
    exact ⟨(fun h => nomatch h), fun h => absurd h.1 hwrap⟩

/-- No entry of the kernel half that maps a page is for the user. -/
def KernelHalfPrivate (t : PML4) : Prop :=
  ∀ v, 256 ≤ pml4Index v → ∀ fs f, walk t v = some (fs ++ [f]) → f.user = false

/-- What the callers take a positive answer for. -/
def Guarded (t : PML4) (addr len : Nat) (w : Bool) : Prop :=
  isUserRangeValid t addr len w = true →
    addr + len < 2 ^ 64 ∧ ∀ v, addr ≤ v → v < addr + len →
      v < 2 ^ 47 ∧ ∃ fs, walk t v = some fs ∧ (∀ f ∈ fs, f.user = true) ∧
        (w = true → ∀ f ∈ fs, f.write = true)

/-- Every entry on the way to a page of the range has the right to write. -/
def WritableAbove (t : PML4) (addr len : Nat) : Prop :=
  ∀ v, addr ≤ v → v < addr + len → ∀ fs, walk t v = some fs → ∀ f ∈ fs, f.write = true

/-- **User pointers.**  The answer means what it should exactly when, for a range whose
pages are accessible, the upper sixteen bits of the addresses are zero and, if it is to
be written, all entries on the way allow that. -/
theorem guarded_iff (haddr : addr < 2 ^ 64) (hlen : len < 2 ^ 64) (hpos : 0 < len)
    (hkernel : KernelHalfPrivate t) :
    Guarded t addr len w ↔
      (Passes t addr len w → addr + len ≤ 2 ^ 48 ∧ (w = true → WritableAbove t addr len)) := by
  have hvalid : isUserRangeValid t addr len w = true ↔ Passes t addr len w :=
    isUserRangeValid_eq_true_iff haddr hlen hpos
  unfold Guarded
  rw [hvalid]
  refine ⟨fun h hpass => ?_, fun h hpass => ?_⟩
  · obtain ⟨-, hall⟩ := h hpass
    refine ⟨?_, fun hw v hlo hhi fs hfs => ?_⟩
    · have hlast := (hall (addr + len - 1) (by omega) (by omega)).1
      omega
    obtain ⟨-, fs', hfs', -, hwrite⟩ := hall v hlo hhi
    obtain rfl := Option.some.inj (hfs.symm.trans hfs')
    exact hwrite hw
  obtain ⟨hbits, hwrite⟩ := h hpass
  refine ⟨by omega, fun v hlo hhi => ?_⟩
  obtain ⟨fs, f, hwalk, huser⟩ := walk_of_isUserAccessible (hpass.2 v hlo hhi)
  refine ⟨?_, fs ++ [f], hwalk, huser, fun hw => hwrite hw v hlo hhi _ hwalk⟩
  -- an address with bit 47 set belongs to the kernel half, which is not for the user
  by_contra hhalf
  have hindex : 256 ≤ pml4Index v := by
    simp only [pml4Index]
    omega
  have hprivate := hkernel v hindex fs f hwalk
  rw [huser f (List.mem_append_right _ List.mem_cons_self)] at hprivate
  cases hprivate

/-- An entry that maps nothing. -/
def absent {α : Type} (table : α) : Entry α := ⟨{}, 0, table⟩

/-- A user page of 2 MiB at 0x400000; `b` says whether the second level may be written. -/
def oneUserPage (b : Bool) : PML4 :=
  let pt : PT := fun _ => absent ()
  let pd : PD := fun i =>
    if i = 2 then ⟨{ present := true, write := true, user := true, huge := true }, 1024, pt⟩
    else absent pt
  let pdpt : PDPT := fun i =>
    if i = 0 then ⟨{ present := true, write := b, user := true }, 3, pd⟩ else absent pd
  fun i =>
    if i = 0 then ⟨{ present := true, write := true, user := true }, 2, pdpt⟩ else absent pdpt

theorem kernelHalfPrivate_oneUserPage (b : Bool) : KernelHalfPrivate (oneUserPage b) := by
  intro v hv fs f hwalk
  have hne : pml4Index v ≠ 0 := by omega
  have hnone : walk (oneUserPage b) v = none := by
    have hentry : (entry4 (oneUserPage b) v).flags.present = false := by
      simp [entry4, oneUserPage, hne, absent]
    unfold walk
    dsimp only
    rw [hentry]
    rfl
  rw [hnone] at hwalk
  cases hwalk

/-- A range inside of the page. -/
theorem guarded_iff_oneUserPage :
    (0x400000 : Nat) < 2 ^ 64 ∧ (8 : Nat) < 2 ^ 64 ∧ (0 : Nat) < 8 ∧
      KernelHalfPrivate (oneUserPage true) ∧
      (Guarded (oneUserPage true) 0x400000 8 false ↔
        (Passes (oneUserPage true) 0x400000 8 false →
          0x400000 + 8 ≤ 2 ^ 48 ∧
            (false = true → WritableAbove (oneUserPage true) 0x400000 8))) :=
  ⟨by decide, by decide, by decide, kernelHalfPrivate_oneUserPage true,
    guarded_iff (by decide) (by decide) (by decide) (kernelHalfPrivate_oneUserPage true)⟩

/-- An address with bit 48 set passes, and so does a write below an entry that forbids
it. -/
theorem not_guarded_oneUserPage :
    KernelHalfPrivate (oneUserPage true) ∧
      ¬ Guarded (oneUserPage true) (2 ^ 48 + 0x400000) 1 false ∧
      KernelHalfPrivate (oneUserPage false) ∧ ¬ Guarded (oneUserPage false) 0x400000 1 true := by
  refine ⟨kernelHalfPrivate_oneUserPage true, fun h => ?_, kernelHalfPrivate_oneUserPage false,
    fun h => ?_⟩
  · have hhigh := ((h (by decide)).2 (2 ^ 48 + 0x400000) (by decide) (by decide)).1
    revert hhigh
    decide
  · obtain ⟨-, fs, hfs, -, hwrite⟩ := (h (by decide)).2 0x400000 (by decide) (by decide)
    have hwalk : walk (oneUserPage false) 0x400000 = some
        [{ present := true, write := true, user := true },
          { present := true, write := false, user := true },
          { present := true, write := true, user := true, huge := true }] := by decide
    obtain rfl := Option.some.inj (hfs.symm.trans hwalk)
    have hfalse := hwrite rfl { present := true, write := false, user := true } (by decide)
    cases hfalse

end PML4

end Paging
