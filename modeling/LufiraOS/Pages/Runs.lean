import LufiraOS.Lib.Run
import LufiraOS.Pages.Core

/-!
# Runs of the page allocator

From the state that `pmm_init` leaves, whatever pages are allocated and given back
by their owners: no page is handed out twice, the counter is the number of set
bits, and a request fails only when it cannot be met.
-/

namespace Pmm

open ByteStore FirstFit

/-- The allocator and the pages that have been handed out. -/
structure Owned where
  pmm : State
  owned : List Nat

/-- A call of the allocator. -/
inductive Op
  | allocPage
  | allocContiguousPages (count : UInt32)
  | freePage (phys : Nat)

namespace Owned

/-- One call; the owned pages follow from what it returns. -/
def exec (t : Owned) : Op → Owned
  | .allocPage =>
    match t.pmm.allocPage with
    | (phys, s) => ⟨s, if phys = 0 then t.owned else phys / 4096 :: t.owned⟩
  | .allocContiguousPages count =>
    match t.pmm.allocContiguousPages count with
    | (phys, s) =>
      ⟨s, if phys = 0 then t.owned else List.range' (phys / 4096) count.toNat ++ t.owned⟩
  | .freePage phys => ⟨t.pmm.freePage phys, t.owned.filter fun page => page ≠ phys / 4096⟩

/-- Only owned pages are freed. -/
def Allowed (t : Owned) : Op → Prop
  | .freePage phys => phys / 4096 ∈ t.owned
  | _ => True

/-- There are `count` free pages in a row. -/
def HasRun (s : State) (count : Nat) : Prop :=
  0 < count ∧ ∃ start, start + count ≤ s.totalPages ∧ Clear s.test start count

/-- **The allocator is exact.** -/
structure Exact (t : Owned) : Prop where
  used : t.pmm.usedPages = setCount t.pmm.test t.pmm.totalPages
  /-- A page is found unless all are used, it was not owned, and it alone is marked. -/
  page : (t.pmm.allocPage.1 = 0 ↔
      ∀ p, 512 ≤ p → p < t.pmm.totalPages → t.pmm.test p = true) ∧
    (t.pmm.allocPage.1 ≠ 0 → ∃ page, t.pmm.allocPage.1 = page * 4096 ∧ page ∉ t.owned ∧
      ∀ p, t.pmm.allocPage.2.test p = (decide (p = page) || t.pmm.test p))
  /-- Pages in a row are found unless there are none; nothing changes then. -/
  noRun : ∀ count, ((t.pmm.allocContiguousPages count).1 = 0 ↔ ¬ HasRun t.pmm count.toNat) ∧
    ((t.pmm.allocContiguousPages count).1 = 0 → (t.pmm.allocContiguousPages count).2 = t.pmm)
  /-- They were not owned, and they alone are marked. -/
  run : ∀ count, (t.pmm.allocContiguousPages count).1 ≠ 0 → ∃ start,
    (t.pmm.allocContiguousPages count).1 = start * 4096 ∧
      (∀ p, start ≤ p → p < start + count.toNat → p ∉ t.owned) ∧
      Clear t.pmm.test start count.toNat ∧
      ∀ p, (t.pmm.allocContiguousPages count).2.test p =
        (decide (start ≤ p ∧ p < start + count.toNat) || t.pmm.test p)

/-! ## The invariant -/

/-- The first 512 pages are never free, the hint lies behind them, and owned pages
are marked. -/
structure Kept (t : Owned) : Prop where
  used : t.pmm.usedPages = setCount t.pmm.test t.pmm.totalPages
  low : ∀ p, p < 512 → p < t.pmm.totalPages → t.pmm.test p = true
  hint : 512 ≤ t.pmm.nextFreePage
  hintEnd : t.pmm.nextFreePage ≤ max 512 t.pmm.totalPages
  owned : ∀ p ∈ t.owned, 512 ≤ p ∧ p < t.pmm.totalPages ∧ t.pmm.test p = true

section

variable {s : State}

theorem test_take (page p : Nat) : (s.take page).test p = (decide (p = page) || s.test p) := by
  show bitAt (setBitAt s.bitmap 0 page true) 0 p = _
  rw [bitAt_setBitAt]
  by_cases hp : p = page
  · simp [hp]
  · rw [if_neg hp]
    simp [hp, State.test]

/-- What `pmm_alloc_page` does. -/
theorem allocPage_cases (hhint : 512 ≤ s.nextFreePage)
    (hend : s.nextFreePage ≤ max 512 s.totalPages) :
    (s.allocPage = (0, s) ∧ ∀ p, 512 ≤ p → p < s.totalPages → s.test p = true) ∨
      ∃ page, 512 ≤ page ∧ page < s.totalPages ∧ s.test page = false ∧
        s.allocPage = (page * 4096, s.take page) := by
  unfold State.allocPage
  cases hfirst : firstClear s.test s.nextFreePage (s.totalPages - s.nextFreePage) with
  | some page =>
    obtain ⟨hlo, hhi, hclear⟩ := firstClear_some hfirst
    exact .inr ⟨page, by omega, by omega, hclear, rfl⟩
  | none =>
    cases hsecond : firstClear s.test 512 (s.nextFreePage - 512) with
    | some page =>
      obtain ⟨hlo, hhi, hclear⟩ := firstClear_some hsecond
      exact .inr ⟨page, hlo, by omega, hclear, rfl⟩
    | none =>
      refine .inl ⟨rfl, fun p hlo hhi => ?_⟩
      by_cases hp : s.nextFreePage ≤ p
      · exact firstClear_eq_none.1 hfirst p hp (by omega)
      · exact firstClear_eq_none.1 hsecond p hlo (by omega)

/-- What `pmm_alloc_contiguous_pages` does. -/
theorem allocContiguousPages_cases (count : UInt32) :
    (s.allocContiguousPages count = (0, s) ∧ ¬ HasRun s count.toNat) ∨
      ∃ start, 0 < count.toNat ∧ start + count.toNat ≤ s.totalPages ∧
        Clear s.test start count.toNat ∧
        s.allocContiguousPages count = (start * 4096, { s with
          bitmap := setRange true start count.toNat s.bitmap
          usedPages := s.usedPages + count.toNat }) := by
  unfold State.allocContiguousPages
  by_cases hzero : count = 0
  · refine .inl ⟨if_pos hzero, fun hrun => ?_⟩
    rw [hzero] at hrun
    exact absurd hrun.1 (by decide)
  have hpos : 0 < count.toNat := by
    refine Nat.pos_of_ne_zero fun h0 => hzero ?_
    exact UInt32.toNat_inj.1 h0
  rw [if_neg hzero]
  cases hrun : firstRun s.test count.toNat 0 s.totalPages 0 0 with
  | none =>
    refine .inl ⟨rfl, fun ⟨_, start, hend, hclear⟩ => ?_⟩
    exact firstRun_none hpos (fun p hp _ => by omega) hrun (by omega) (by omega) hclear
  | some start =>
    obtain ⟨hend, hclear⟩ := firstRun_some (fun h0 => absurd rfl h0) (fun h0 => absurd rfl h0) hrun
    exact .inr ⟨start, hpos, by omega, hclear, rfl⟩

end

variable {t : Owned}

/-- A clear bit of a page belongs to nobody and to none of the low pages. -/
theorem Kept.not_owned (h : Kept t) {p : Nat} (hp : t.pmm.test p = false) : p ∉ t.owned := by
  intro hmem
  rw [(h.owned p hmem).2.2] at hp
  cases hp

theorem Kept.ge_of_clear (h : Kept t) {p : Nat} (hp : t.pmm.test p = false)
    (hlt : p < t.pmm.totalPages) : 512 ≤ p := by
  by_contra hlow
  rw [h.low p (by omega) hlt] at hp
  cases hp

theorem test_setRange {s : State} {start n : Nat} (used : Nat) (p : Nat) :
    State.test { s with bitmap := setRange true start n s.bitmap, usedPages := used } p =
      (decide (start ≤ p ∧ p < start + n) || s.test p) := by
  show bitAt (setRange true start n s.bitmap) 0 p = _
  rw [bitAt_setRange]
  split
  · next hin => simp [hin]
  · next hin => simp [hin, State.test]

theorem Kept.exact (h : Kept t) : Exact t where
  used := h.used
  page := by
    rcases allocPage_cases h.hint h.hintEnd with ⟨hfail, hall⟩ | ⟨page, hlo, hhi, hclear, htake⟩
    · rw [hfail]
      exact ⟨⟨fun _ => hall, fun _ => rfl⟩, fun hne => absurd rfl hne⟩
    rw [htake]
    refine ⟨⟨fun hz => ?_, fun hall => ?_⟩,
      fun _ => ⟨page, rfl, h.not_owned hclear, test_take page⟩⟩
    · simp only at hz
      omega
    · rw [hall page hlo hhi] at hclear
      cases hclear
  noRun := by
    intro count
    rcases allocContiguousPages_cases (s := t.pmm) count with
      ⟨hfail, hno⟩ | ⟨start, hpos, hend, hclear, htake⟩
    · rw [hfail]
      exact ⟨⟨fun _ => hno, fun _ => rfl⟩, fun _ => rfl⟩
    · have hstart := h.ge_of_clear (hclear start (le_refl _) (by omega)) (by omega)
      have hne : start * 4096 ≠ 0 := by omega
      rw [htake]
      exact ⟨⟨fun hz => absurd hz hne, fun hno => absurd ⟨hpos, start, hend, hclear⟩ hno⟩,
        fun hz => absurd hz hne⟩
  run := by
    intro count hne
    rcases allocContiguousPages_cases (s := t.pmm) count with
      ⟨hfail, _⟩ | ⟨start, hpos, hend, hclear, htake⟩
    · rw [hfail] at hne
      exact absurd rfl hne
    · rw [htake]
      exact ⟨start, rfl, fun p hlo hhi => h.not_owned (hclear p hlo hhi), hclear, test_setRange _⟩

/-- A call keeps the invariant. -/
theorem Kept.exec (h : Kept t) {op : Op} (hok : t.Allowed op) : Kept (t.exec op) := by
  cases op with
  | allocPage =>
    rcases allocPage_cases h.hint h.hintEnd with ⟨hfail, _⟩ | ⟨page, hlo, hhi, hclear, htake⟩
    · have hsame : t.exec .allocPage = t := by simp only [Owned.exec, hfail, if_true]
      rw [hsame]
      exact h
    have hne : page * 4096 ≠ 0 := by omega
    have hexec : t.exec .allocPage = ⟨t.pmm.take page, page :: t.owned⟩ := by
      simp only [Owned.exec, htake, if_neg hne]
      rw [Nat.mul_div_cancel page (by omega)]
    rw [hexec]
    refine ⟨?_, fun p hp hlt => ?_, ?_, ?_, fun p hp => ?_⟩
    · show t.pmm.usedPages + 1 = _
      rw [h.used]
      refine (setCount_mark hhi hclear ?_ fun q hq => ?_).symm
      · simp [test_take]
      · simp [test_take, hq]
    · rw [test_take, h.low p hp hlt, Bool.or_true]
    · show 512 ≤ page + 1
      omega
    · show page + 1 ≤ max 512 t.pmm.totalPages
      omega
    rw [test_take]
    rcases List.mem_cons.1 hp with rfl | hold
    · exact ⟨hlo, hhi, by simp⟩
    · obtain ⟨hp1, hp2, hp3⟩ := h.owned p hold
      exact ⟨hp1, hp2, by rw [hp3, Bool.or_true]⟩
  | allocContiguousPages count =>
    rcases allocContiguousPages_cases (s := t.pmm) count with
      ⟨hfail, _⟩ | ⟨start, hpos, hend, hclear, htake⟩
    · have hsame : t.exec (.allocContiguousPages count) = t := by
        simp only [Owned.exec, hfail, if_true]
      rw [hsame]
      exact h
    · have hstart := h.ge_of_clear (hclear start (le_refl _) (by omega)) (by omega)
      have hne : start * 4096 ≠ 0 := by omega
      have hexec : t.exec (.allocContiguousPages count) =
          ⟨{ t.pmm with
              bitmap := setRange true start count.toNat t.pmm.bitmap
              usedPages := t.pmm.usedPages + count.toNat },
            List.range' start count.toNat ++ t.owned⟩ := by
        simp only [Owned.exec, htake, if_neg hne]
        rw [Nat.mul_div_cancel start (by omega)]
      rw [hexec]
      refine ⟨?_, fun p hp hlt => ?_, h.hint, h.hintEnd, fun p hp => ?_⟩
      · show t.pmm.usedPages + count.toNat = _
        rw [h.used]
        exact (setCount_markRun hend hclear (test_setRange _)).symm
      · rw [test_setRange, h.low p hp hlt, Bool.or_true]
      rw [test_setRange]
      rcases List.mem_append.1 hp with hnew | hold
      · rw [List.mem_range'_1] at hnew
        exact ⟨by omega, by show p < t.pmm.totalPages; omega, by simp [hnew]⟩
      · obtain ⟨hp1, hp2, hp3⟩ := h.owned p hold
        exact ⟨hp1, hp2, by rw [hp3, Bool.or_true]⟩
  | freePage phys =>
    obtain ⟨hlo, hhi, hset⟩ := h.owned _ hok
    have hexec : t.exec (.freePage phys) =
        ⟨{ t.pmm with
            bitmap := setBitAt t.pmm.bitmap 0 (phys / 4096) false
            usedPages := t.pmm.usedPages - 1 },
          t.owned.filter fun page => page ≠ phys / 4096⟩ := by
      simp only [Owned.exec, State.freePage, if_neg
        (show ¬ t.pmm.totalPages ≤ phys / 4096 by omega)]
      rw [if_neg (by rw [hset]; decide)]
    have htest : ∀ p, State.test { t.pmm with
        bitmap := setBitAt t.pmm.bitmap 0 (phys / 4096) false
        usedPages := t.pmm.usedPages - 1 } p =
          if p = phys / 4096 then false else t.pmm.test p := by
      intro p
      exact bitAt_setBitAt _ _ _ _ _
    rw [hexec]
    refine ⟨?_, fun p hp hlt => ?_, h.hint, h.hintEnd, fun p hp => ?_⟩
    · show t.pmm.usedPages - 1 = _
      have hback := setCount_mark (n := t.pmm.totalPages) hhi
        ((htest (phys / 4096)).trans (if_pos rfl)) hset
        fun q hq => ((htest q).trans (if_neg hq)).symm
      rw [h.used, hback]
      rfl
    · rw [htest, if_neg (by omega)]
      exact h.low p hp hlt
    rw [List.mem_filter] at hp
    have hne : p ≠ phys / 4096 := by simpa using hp.2
    obtain ⟨hp1, hp2, hp3⟩ := h.owned p hp.1
    rw [htest, if_neg hne]
    exact ⟨hp1, hp2, hp3⟩

/-- `pmm_init` leaves the low pages marked and the counter right. -/
theorem pmmInit_kept {memoryMap : List Descriptor}
    {kernelBase kernelSize reservedBase reservedSize : Nat} {m : Bytes} {s : State}
    (h : pmmInit memoryMap kernelBase kernelSize reservedBase reservedSize m = some s) :
    Kept ⟨s, []⟩ := by
  unfold pmmInit at h
  dsimp only at h
  split at h
  · cases h
  · next size bitmapPhys _ =>
    have hs := Option.some.inj h
    have hlow : ∀ p, p < 512 → s.test p = true := by
      intro p hp
      rw [← hs]
      show bitAt (ite _ _ _) 0 p = true
      split <;> simp only [bitAt_setRange] <;> grind
    have hused : s.usedPages = setCount s.test s.totalPages := by
      rw [← hs]
      rfl
    have hhint : s.nextFreePage = 512 := by rw [← hs]
    refine ⟨hused, fun p hp _ => hlow p hp, ?_, ?_, by simp⟩
    · show 512 ≤ s.nextFreePage
      omega
    · show s.nextFreePage ≤ max 512 s.totalPages
      omega

/-- **The page allocator.**  After `pmm_init` and any calls in which only owned pages
are freed, the allocator is exact. -/
theorem exact_of_run {memoryMap : List Descriptor}
    {kernelBase kernelSize reservedBase reservedSize : Nat} {m : Bytes} {s : State}
    (hinit : pmmInit memoryMap kernelBase kernelSize reservedBase reservedSize m = some s)
    {ops : List Op} (hmeets : Run.Meets exec Allowed ⟨s, []⟩ ops) :
    Exact (Run.run exec ⟨s, []⟩ ops) :=
  (Run.Meets.invariant (fun _ _ h hok => Kept.exec h hok) hmeets (pmmInit_kept hinit)).exact

/-- A machine with 516 pages of memory below the kernel. -/
def smallMachine : State :=
  (pmmInit [⟨7, 0, 516⟩] 2097152000 4096 0 0 zeros).getD ⟨zeros, 0, 0, 0⟩

theorem smallMachine_eq : pmmInit [⟨7, 0, 516⟩] 2097152000 4096 0 0 zeros = some smallMachine := by
  have hsome : (pmmInit [⟨7, 0, 516⟩] 2097152000 4096 0 0 zeros).isSome = true := by decide +kernel
  obtain ⟨s, hs⟩ := Option.isSome_iff_exists.1 hsome
  rw [smallMachine, hs]
  rfl

/-- A page, which is given back, and two in a row. -/
def fewPages : List Op := [.allocPage, .freePage 2097152, .allocContiguousPages 2]

theorem exact_of_run_fewPages : (exec ⟨smallMachine, []⟩ .allocPage).owned = [512] ∧
    Exact (Run.run exec ⟨smallMachine, []⟩ fewPages) := by
  have howned : (exec ⟨smallMachine, []⟩ .allocPage).owned = [512] := by decide +kernel
  refine ⟨howned, exact_of_run smallMachine_eq ⟨trivial, ?_, trivial, trivial⟩⟩
  simp [Allowed, howned]

/-- A page is marked if it was at the start, when nobody owned it, or is owned. -/
def Accounts (s : State) (t : Owned) : Prop :=
  ∀ p, (t.pmm.test p = true ↔ s.test p = true ∨ p ∈ t.owned) ∧ (p ∈ t.owned → s.test p = false)

theorem Accounts.exec {s : State} (h : Accounts s t) (hk : Kept t) {op : Op}
    (hok : t.Allowed op) : Accounts s (t.exec op) := by
  intro p
  have hp := h p
  cases op with
  | allocPage =>
    rcases allocPage_cases hk.hint hk.hintEnd with ⟨hfail, _⟩ | ⟨page, hlo, _, hclear, htake⟩
    · simpa only [Owned.exec, hfail, if_true] using hp
    have hne : page * 4096 ≠ 0 := by omega
    have hpage : page * 4096 / 4096 = page := by omega
    simp only [Owned.exec, htake, if_neg hne, hpage, test_take, List.mem_cons]
    grind
  | allocContiguousPages count =>
    rcases allocContiguousPages_cases (s := t.pmm) count with
      ⟨hfail, _⟩ | ⟨start, hpos, hend, hclear, htake⟩
    · simpa only [Owned.exec, hfail, if_true] using hp
    have hstart := hk.ge_of_clear (hclear start (le_refl _) (by omega)) (by omega)
    have hne : start * 4096 ≠ 0 := by omega
    have hpage : start * 4096 / 4096 = start := by omega
    simp only [Owned.exec, htake, if_neg hne, hpage, test_setRange, List.mem_append,
      List.mem_range'_1]
    have := hclear p
    grind
  | freePage phys =>
    obtain ⟨_, hhi, hset⟩ := hk.owned _ hok
    have hfreed := (h (phys / 4096)).2 hok
    -- the page was clear at the start, and it is clear again
    have hbit := bitAt_setBitAt t.pmm.bitmap 0 (phys / 4096) p false
    simp only [Owned.exec, State.freePage, if_neg (Nat.not_le.2 hhi), hset, List.mem_filter]
    simp only [State.test] at *
    grind

/-- **No page is lost.**  After any calls the pages marked are those that `pmm_init` marked
and those that are owned; once all are given back the map is the one it left. -/
theorem accounts_of_run {memoryMap : List Descriptor}
    {kernelBase kernelSize reservedBase reservedSize : Nat} {m : Bytes} {s : State}
    (hinit : pmmInit memoryMap kernelBase kernelSize reservedBase reservedSize m = some s)
    {ops : List Op} (hmeets : Run.Meets exec Allowed ⟨s, []⟩ ops) :
    Accounts s (Run.run exec ⟨s, []⟩ ops) :=
  (Run.Meets.invariant (I := fun t => Kept t ∧ Accounts s t)
    (fun _ _ h hok => ⟨h.1.exec hok, h.2.exec h.1 hok⟩) hmeets
    ⟨pmmInit_kept hinit, fun p => by simp⟩).2

theorem accounts_of_run_onePage :
    Accounts smallMachine (Run.run exec ⟨smallMachine, []⟩ [.allocPage]) :=
  accounts_of_run smallMachine_eq ⟨trivial, trivial⟩

end Owned

end Pmm
