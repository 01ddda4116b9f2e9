import LufiraOS.Elf.Core

/-!
# The pages of a program

A page that was mapped for the program leads to its frame through four entries that the user may
pass.  It keeps doing so while other pages are mapped and while flags of pages are set, as long as
no other mapping is for the same page.
-/

namespace Elf

open Paging
open Paging.PML4

/-- The address lies in a page of 4 KiB of the user, at the frame `f`. -/
structure SmallPage (t : PML4) (v f : Nat) : Prop where
  level4 : (entry4 t v).flags.present = true ∧ (entry4 t v).flags.user = true
  level3 : (entry3 t v).flags.present = true ∧ (entry3 t v).flags.user = true ∧
    (entry3 t v).flags.huge = false
  level2 : IsTable (entry2 t v)
  level1 : (entry1 t v).flags.present = true ∧ (entry1 t v).flags.user = true
  frame : (entry1 t v).frame = f

variable {t t' : PML4} {v virt phys f : Nat} {flags leaf : Flags} {new : NewTables}
  {split : Entry PT → Option Nat → Option (Entry PT)} {G : Entry Unit → Prop}

section

variable (h : SmallPage t v f)

include h

theorem SmallPage.accessible : isUserAccessible t v false = true := by
  rw [isUserAccessible_eq]
  simp [h.level4, h.level3, h.level2.1, h.level2.2.1, h.level1]

theorem SmallPage.translate : translate t v = some (f * 4096 + v % 4096) := by
  simp [PML4.translate, h.level4, h.level3, h.level2.1, h.level2.2.2, h.level1, h.frame, pageSize]

theorem SmallPage.physical : getPhysicalAddress t v = f * 4096 + v % 4096 := by
  simp [getPhysicalAddress, h.level4, h.level3, h.level2.1, h.level2.2.2, h.level1, h.frame]

/-- Another table with the same entries below. -/
theorem SmallPage.of_entry2
    (h4 : (entry4 t' v).flags.present = true ∧ (entry4 t' v).flags.user = true)
    (h3 : (entry3 t' v).flags.present = true ∧ (entry3 t' v).flags.user = true ∧
      (entry3 t' v).flags.huge = false)
    (h2 : entry2 t' v = entry2 t v) : SmallPage t' v f := by
  have h1 : entry1 t' v = entry1 t v := by rw [entry1, h2, entry1]
  exact ⟨h4, h3, by rw [h2]; exact h.level2, by rw [h1]; exact h.level1, by rw [h1]; exact h.frame⟩

end

/-! ### What a mapping leaves -/

theorem getOrCreateTable_opened {α : Type} {e e' : Entry α} {page : Option Nat} {zero : α}
    (h : getOrCreateTable e page zero = some e') : ∃ p, e' = opened e p zero := by
  cases page with
  | some p =>
    rw [getOrCreateTable_some, Option.some.injEq] at h
    exact ⟨p, h.symm⟩
  | none =>
    unfold getOrCreateTable at h
    split at h
    · next hp =>
      cases h
      exact ⟨0, (opened_of_present hp 0 zero).symm⟩
    · cases h

/-- A 2-MiB page becomes a table; a table stays. -/
def Splits (split : Entry PT → Option Nat → Option (Entry PT)) : Prop :=
  ∀ e page s, split e page = some s → (s.flags.present = true → s.flags.huge = false) ∧
    (e.flags.present = true → e.flags.huge = false → s = e)

theorem splits_inSpace : Splits splitInSpace := by
  intro e page s h
  cases page <;> grind [splitInSpace, tableFlags]

theorem splits_inPml4 : Splits splitInPml4 := by
  intro e page s h
  cases page <;> grind [splitInPml4]

/-- **A mapping** writes the entries on its way and the last one, into a table that is the old one
where there was one. -/
theorem mapWith_spec (hsplit : Splits split) (h : mapWith split leaf t virt phys new = some t') :
    ∃ p3 p2 a, t' = written t virt p3 p2 (putLeaf a virt ⟨leaf, phys / pageSize, ()⟩) ∧ IsTable a ∧
      ((found t virt p3 p2).flags.present = true → (found t virt p3 p2).flags.huge = false →
        a.table = (found t virt p3 p2).table) := by
  simp only [mapWith, Option.bind_eq_bind, Option.bind_eq_some_iff, Option.some.injEq] at h
  obtain ⟨e4, h4, e3, h3, s, hs, e2, h2, ht⟩ := h
  obtain ⟨p3, rfl⟩ := getOrCreateTable_opened h4
  obtain ⟨p2, rfl⟩ := getOrCreateTable_opened h3
  obtain ⟨p1, rfl⟩ := getOrCreateTable_opened h2
  obtain ⟨hsmall, hsame⟩ := hsplit _ _ _ hs
  refine ⟨p3, p2, _, ht.symm, opened_isTable p1 hsmall, fun hp hh => ?_⟩
  have hse : s = found t virt p3 p2 := hsame hp hh
  rw [hse, opened_of_present hp]

/-- There are no pages of 1 GiB. -/
def NoGiant (t : PML4) : Prop := ∀ v, (entry3 t v).flags.huge = false

theorem middle_small (h : NoGiant t) (p3 p2 : Nat) : (middle t virt p3 p2).flags.huge = false := by
  cases hp : (entry4 t virt).flags.present with
  | true =>
    rw [middle, top_table hp]
    cases hp3 : (entry3 t virt).flags.present with
    | true =>
      rw [opened_of_present hp3]
      exact h virt
    | false =>
      rw [opened_of_absent hp3]
      rfl
  | false =>
    rw [middle, top, opened_of_absent hp]
    rfl

theorem noGiant_map (h : NoGiant t) (hmap : mapPageInSpace t virt phys flags new = some t') :
    NoGiant t' := by
  obtain ⟨p3, p2, a, rfl, -, -⟩ := mapWith_spec splits_inSpace hmap
  intro v
  by_cases h4 : pml4Index v = pml4Index virt
  · by_cases h3 : pdptIndex v = pdptIndex virt
    · rw [written, entry3_put h4 h3]
      exact middle_small h p3 p2
    rw [written, entry3_put_of_ne h4 h3, top]
    cases hp : (entry4 t virt).flags.present with
    | true =>
      rw [opened_of_present hp]
      have hv := h v
      rw [entry3, entry4, h4] at hv
      exact hv
    | false =>
      rw [opened_of_absent hp]
      rfl
  · rw [written, entry3, put_of_ne4 h4]
    exact h v

theorem sameRegion_of_page (h : v / 4096 = virt / 4096) :
    SameRegion v virt ∧ ptIndex v = ptIndex virt := by
  simp only [SameRegion, pml4Index, pdptIndex, pdIndex, ptIndex]
  omega

/-- The entry of the last level that was written is found under its address. -/
theorem entry1_written (a : Entry PT) (leaf : Entry Unit) (p3 p2 : Nat)
    (hregion : SameRegion v virt)
    (hpt : ptIndex v = ptIndex virt) :
    entry1 (written t virt p3 p2 (putLeaf a virt leaf)) v = leaf := by
  rw [entry1, written, entry2_put hregion, putLeaf, hpt]
  exact Function.update_self ..

/-- The other entries of the table are those of the table. -/
theorem entry1_written_of_ne (a : Entry PT) (leaf : Entry Unit) (p3 p2 : Nat)
    (hregion : SameRegion v virt) (hpt : ptIndex v ≠ ptIndex virt) :
    entry1 (written t virt p3 p2 (putLeaf a virt leaf)) v = a.table (ptIndex v) := by
  rw [entry1, written, entry2_put hregion, putLeaf]
  exact Function.update_of_ne hpt ..

/-- The user may pass the entries on the way of the address to the last one, which is as `G` says.
-/
structure Reaches (t : PML4) (v : Nat) (G : Entry Unit → Prop) : Prop where
  level4 : (entry4 t v).flags.present = true ∧ (entry4 t v).flags.user = true
  level3 : (entry3 t v).flags.present = true ∧ (entry3 t v).flags.user = true
  level2 : IsTable (entry2 t v)
  level1 : G (entry1 t v)

theorem smallPage_iff : SmallPage t v f ↔ Reaches t v (fun e =>
    (e.flags.present = true ∧ e.flags.user = true) ∧ e.frame = f) ∧
    (entry3 t v).flags.huge = false := by
  constructor
  · intro h
    exact ⟨⟨h.level4, ⟨h.level3.1, h.level3.2.1⟩, h.level2, h.level1, h.frame⟩, h.level3.2.2⟩
  · rintro ⟨h, hhuge⟩
    exact ⟨h.level4, ⟨h.level3.1, h.level3.2, hhuge⟩, h.level2, h.level1.1, h.level1.2⟩

theorem asUser_of_user (h : flags.user = true) : flags.asUser = flags := by rw [Flags.asUser, ← h]

/-- **A mapping** changes the entries of the last level only, on a way that the user may pass. -/
theorem Reaches.written_entries (h : Reaches t v G) (p3 p2 : Nat) {e : Entry PT} {r : PML4}
    (hr : r = written t virt p3 p2 e) :
    (entry4 r v).flags = (entry4 t v).flags ∧ (entry3 r v).flags = (entry3 t v).flags ∧
      (SameRegion v virt → entry2 r v = e ∧ found t virt p3 p2 = entry2 t v) ∧
      (¬ SameRegion v virt → entry2 r v = entry2 t v) := by
  have h4 := asUser_of_user h.level4.2
  have h3 := asUser_of_user h.level3.2
  obtain ⟨⟨hp4, -⟩, ⟨hp3, -⟩, -, -⟩ := h
  subst hr
  by_cases e4 : pml4Index v = pml4Index virt <;> by_cases e3 : pdptIndex v = pdptIndex virt <;>
    by_cases e2 : pdIndex v = pdIndex virt <;>
    simp_all [entry2, entry3, entry4, written, put, top, middle, found, opened, SameRegion]

/-- **The entries that are as `G` says** stay so, if the new one is so; the mapped page has the new
one. -/
theorem reaches_map (hsplit : Splits split) (hmap : mapWith split leaf t virt phys new = some t') :
    (SameRegion v virt → ptIndex v = ptIndex virt → G ⟨leaf, phys / pageSize, ()⟩ →
    Reaches t' v G) ∧
    ((SameRegion v virt → ptIndex v ≠ ptIndex virt) → Reaches t v G →
      Reaches t' v G ∧ (entry3 t' v).flags.huge = (entry3 t v).flags.huge) := by
  obtain ⟨p3, p2, a, ht, ha, hold⟩ := mapWith_spec hsplit hmap
  refine ⟨fun hregion hpt hG => ?_, fun hpt h => ?_⟩
  · rw [ht]
    refine ⟨?_, ?_, ?_, ?_⟩
    · rw [written, entry4_put hregion.1]
      exact opened_flags ..
    · rw [written, entry3_put hregion.1 hregion.2.1]
      exact opened_flags ..
    · rw [written, entry2_put hregion]
      exact ha
    · rwa [entry1_written a _ p3 p2 hregion hpt]
  obtain ⟨he4, he3, hin, hout⟩ := h.written_entries p3 p2 ht
  have hlevel : IsTable (entry2 t' v) ∧ entry1 t' v = entry1 t v := by
    by_cases hregion : SameRegion v virt
    · obtain ⟨he2, hfound⟩ := hin hregion
      rw [hfound] at hold
      refine ⟨he2 ▸ ha, ?_⟩
      rw [ht, entry1_written_of_ne a _ p3 p2 hregion (hpt hregion), hold h.level2.1 h.level2.2.2,
        entry1]
    · exact ⟨hout hregion ▸ h.level2, by rw [entry1, hout hregion, entry1]⟩
  exact ⟨⟨he4 ▸ h.level4, he3 ▸ h.level3, hlevel.1, hlevel.2 ▸ h.level1⟩, by rw [he3]⟩

theorem smallPage_map (hgiant : NoGiant t) (huser : flags.user = true)
    (hmap : mapPageInSpace t virt phys flags new = some t') (hpage : v / 4096 = virt / 4096) :
    SmallPage t' v (phys / 4096) := by
  obtain ⟨hregion, hpt⟩ := sameRegion_of_page hpage
  exact smallPage_iff.2 ⟨(reaches_map splits_inSpace hmap).1 hregion hpt ⟨⟨rfl, huser⟩, rfl⟩,
    noGiant_map hgiant hmap v⟩

theorem smallPage_map_other (hv : v < 2 ^ 48) (hvirt : virt < 2 ^ 47) (h : SmallPage t v f)
    (hmap : mapPageInSpace t virt phys flags new = some t') (hpage : v / 4096 ≠ virt / 4096) :
    SmallPage t' v f := by
  obtain ⟨hreach, hhuge⟩ := smallPage_iff.1 h
  obtain ⟨hreach', hsame⟩ := (reaches_map splits_inSpace hmap).2
    ((apart_iff hv hvirt).1 hpage) hreach
  exact smallPage_iff.2 ⟨hreach', hsame.trans hhuge⟩

/-- A store that leaves the entries of the upper levels as they are. -/
theorem put_entries (e : Entry PT) {r : PML4}
    (hr : put t virt (entry4 t virt) (entry3 t virt) e = r) :
    (entry4 r v).flags = (entry4 t v).flags ∧ (entry3 r v).flags = (entry3 t v).flags ∧
      (SameRegion v virt → entry2 r v = e) ∧ (¬ SameRegion v virt → entry2 r v = entry2 t v) := by
  subst hr
  refine ⟨?_, ?_, entry2_put, fun h => ?_⟩ <;> by_cases h4 : pml4Index v = pml4Index virt <;>
    by_cases h3 : pdptIndex v = pdptIndex virt <;> by_cases h2 : pdIndex v = pdIndex virt <;>
    simp_all [entry2, entry3, entry4, put, SameRegion]

/-- **Setting flags** keeps a page of the user where it is. -/
theorem smallPage_setPageFlags (huser : flags.user = true) (h : SmallPage t v f) :
    SmallPage (setPageFlagsInSpace t virt flags) v f := by
  unfold setPageFlagsInSpace
  split
  case isFalse => exact h
  generalize hr : put t virt _ _ _ = r
  obtain ⟨he4, he3, hin, hout⟩ := put_entries (v := v) _ hr
  have hlevel4 := h.level4
  have hlevel3 := h.level3
  rw [← he4] at hlevel4
  rw [← he3] at hlevel3
  by_cases hregion : SameRegion v virt
  · have hsame : entry2 t virt = entry2 t v := by
      simp only [entry2, entry3, entry4, hregion.1, hregion.2.1, hregion.2.2]
    have he2 := hin hregion
    have he1 : entry1 r v = Function.update (entry2 t v).table (ptIndex virt)
        ⟨{ flags with present := true }, (entry1 t virt).frame, ()⟩ (ptIndex v) := by
      rw [entry1, he2, hsame, putLeaf]
    have hlevel2 : IsTable (entry2 r v) := by
      rw [he2, hsame]
      exact h.level2
    by_cases hpt : ptIndex v = ptIndex virt
    · have hleaf : entry1 t virt = entry1 t v := by rw [entry1, hsame, ← hpt, entry1]
      rw [hpt, Function.update_self, hleaf] at he1
      exact ⟨hlevel4, hlevel3, hlevel2, he1 ▸ ⟨rfl, huser⟩, he1 ▸ h.frame⟩
    · rw [Function.update_of_ne hpt] at he1
      exact ⟨hlevel4, hlevel3, hlevel2, he1 ▸ h.level1, he1 ▸ h.frame⟩
  · exact h.of_entry2 hlevel4 hlevel3 (hout hregion)

/-! ### All mappings -/

/-- **After the mapping loops** every page of the list leads to the frame of its last mapping, and
the pages that are not in the list are where they were. -/
theorem mapAll_spec {pmm : Pmm} {n : Nat} {l : List (Nat × Flags)} (hgiant : NoGiant t)
    (hl : ∀ x ∈ l, x.1 < 2 ^ 47 ∧ x.2.user = true) (h : mapAll pmm n l t = some t') :
    (∀ q, (∃ x ∈ l, x.1 / 4096 = q) → ∃ k p, (∃ x, l[k]? = some x ∧ x.1 / 4096 = q) ∧
        pmm.page (n + k) = some p ∧ ∀ v, v / 4096 = q → SmallPage t' v (p / 4096)) ∧
      ∀ v f, v < 2 ^ 48 → (∀ x ∈ l, v / 4096 ≠ x.1 / 4096) → SmallPage t v f →
        SmallPage t' v f := by
  induction l generalizing n t with
  | nil =>
    cases h
    exact ⟨fun q ⟨x, hx, _⟩ => absurd hx List.not_mem_nil, fun _ _ _ _ h => h⟩
  | cons x rest ih =>
    obtain ⟨virt, flags⟩ := x
    rw [mapAll] at h
    cases hphys : pmm.page n with
    | none => simp [hphys] at h
    | some phys =>
      rw [hphys] at h
      cases hmap : mapPageInSpace t virt phys flags (pmm.tables n) with
      | none => simp [hmap] at h
      | some t₁ =>
        simp only [hmap] at h
        obtain ⟨hlt, huser⟩ := hl _ (List.mem_cons_self ..)
        obtain ⟨hmapped, hother⟩ := ih (noGiant_map hgiant hmap)
          (fun y hy => hl y (List.mem_cons_of_mem _ hy)) h
        refine ⟨fun q hq => ?_, fun v f hv hnot hpage => ?_⟩
        · by_cases hrest : ∃ x ∈ rest, x.1 / 4096 = q
          · obtain ⟨k, p, hk, hp, hsmall⟩ := hmapped q hrest
            exact ⟨k + 1, p, hk, by rw [← hp]; congr 1; omega, hsmall⟩
          -- the mapping is the last one of its page
          have hhead : virt / 4096 = q := by
            obtain ⟨x, hx, hxq⟩ := hq
            rcases List.mem_cons.1 hx with rfl | hx
            · exact hxq
            · exact absurd ⟨x, hx, hxq⟩ hrest
          refine ⟨0, phys, ⟨(virt, flags), rfl, hhead⟩, hphys, fun v hv => ?_⟩
          exact hother v _ (by omega) (fun x hx heq => hrest ⟨x, hx, by rw [← heq, hv]⟩)
            (smallPage_map hgiant huser hmap (by rw [hv, hhead]))
        · exact hother v f hv (fun y hy => hnot y (List.mem_cons_of_mem _ hy))
            (smallPage_map_other hv hlt hpage hmap (hnot (virt, flags) (List.mem_cons_self ..)))

end Elf
