import LufiraOS.Elf.Pages

/-!
# What a loaded program finds in its memory

The memory of the program is seen through its pages.  Clearing and copying change it as if it
were one array, since no two pages share a frame.  A segment clears every page that it touches and
copies its bytes there, so that at every address the last segment of the file counts whose pages
contain it.
-/

namespace Elf

open Paging List ProgramHeader
open Paging.PML4

variable {im : Image} {t : PML4} {mem : Memory} {pages : Nat → Prop} {frame : Nat → Nat}

/-- The pages with the given numbers are mapped, each to a frame of its own. -/
structure Mapped (t : PML4) (pages : Nat → Prop) (frame : Nat → Nat) : Prop where
  small : ∀ v, pages (v / 4096) → SmallPage t v (frame (v / 4096))
  injective : ∀ p q, pages p → pages q → frame p = frame q → p = q
  nonzero : ∀ p, pages p → frame p ≠ 0

/-- The byte that the program finds at an address. -/
def view (frame : Nat → Nat) (mem : Memory) (v : Nat) : UInt8 :=
  mem (frame (v / 4096) * 4096 + v % 4096)

/-! ### Filling -/

/-- A part of a page is filled, and nothing else. -/
theorem view_fillPage (hmapped : Mapped t pages frame) {va off n : Nat} {f : Nat → UInt8}
    (halign : va % 4096 = 0) (hva : pages (va / 4096)) (hoff : off + n ≤ 4096) {v : Nat}
    (hv : pages (v / 4096)) :
    view frame (fillPage t mem va off n f) v =
      if va + off ≤ v ∧ v < va + off + n then f (v - (va + off)) else view frame mem v := by
  have hphys := (hmapped.small va hva).physical
  have hnonzero := hmapped.nonzero _ hva
  have hsame : frame (v / 4096) = frame (va / 4096) ↔ v / 4096 = va / 4096 :=
    ⟨hmapped.injective _ _ hv hva, fun h => by rw [h]⟩
  simp only [fillPage, hphys, halign, view]
  rw [if_neg (by omega), fill]
  by_cases hpage : v / 4096 = va / 4096
  · have hframe := hsame.2 hpage
    by_cases hin : va + off ≤ v ∧ v < va + off + n
    · rw [if_pos (by omega), if_pos hin]
      congr 1
      omega
    · rw [if_neg (by omega), if_neg hin]
  · rw [if_neg (by omega), if_neg (by omega)]

/-- The clearing loop. -/
theorem view_zero (hmapped : Mapped t pages frame) {start : Nat} (halign : start % 4096 = 0)
    (n : Nat) (hpages : ∀ p < n, pages (start / 4096 + p)) {v : Nat} (hv : pages (v / 4096)) :
    view frame ((List.range n).foldl
        (fun mem p => fillPage t mem (start + 4096 * p) 0 4096 fun _ => 0) mem) v =
      if start ≤ v ∧ v < start + 4096 * n then 0 else view frame mem v := by
  induction n with
  | zero => simp
  | succ n ih =>
    have hlast : pages ((start + 4096 * n) / 4096) := by
      have hnum : (start + 4096 * n) / 4096 = start / 4096 + n := by omega
      rw [hnum]
      exact hpages n (Nat.lt_succ_self n)
    rw [range_succ, foldl_append, foldl_cons, foldl_nil,
      view_fillPage hmapped (by omega) hlast (by omega) hv,
      ih fun p hp => hpages p (Nat.lt_succ_of_lt hp)]
    by_cases hin : start ≤ v ∧ v < start + 4096 * n
    · rw [if_neg (by omega), if_pos hin, if_pos (by omega)]
    by_cases hn : start + 4096 * n + 0 ≤ v ∧ v < start + 4096 * n + 0 + 4096
    · rw [if_pos hn, if_pos (by omega)]
    · rw [if_neg hn, if_neg hin, if_neg (by omega)]

/-- The copying loop: it ends after as many turns as there are bytes at most. -/
theorem view_copyLoop (hmapped : Mapped t pages frame) {v : Nat} (hv : pages (v / 4096))
    (turns dst src remaining : Nat) (mem : Memory) (hturns : remaining ≤ turns)
    (hend : dst + remaining ≤ 2 ^ 47)
    (hpages : ∀ w, dst ≤ w → w < dst + remaining → pages (w / 4096)) :
    view frame (copyLoop im t turns dst src remaining mem) v =
      if dst ≤ v ∧ v < dst + remaining then im.byteAt (src + (v - dst)) else view frame mem v := by
  induction turns generalizing dst src remaining mem with
  | zero => rw [copyLoop, if_neg (by omega)]
  | succ turns ih =>
    rw [copyLoop]
    by_cases hzero : remaining = 0
    · rw [if_pos hzero, if_neg (by omega)]
    rw [if_neg hzero]
    dsimp only
    generalize hchunk : min (4096 - (dst - dst / 4096 * 4096)) remaining = chunk
    have hpage : pages (dst / 4096 * 4096 / 4096) := by
      have hnum : dst / 4096 * 4096 / 4096 = dst / 4096 := by omega
      rw [hnum]
      exact hpages dst (Nat.le_refl _) (by omega)
    rw [Nat.mod_eq_of_lt (by omega : dst + chunk < 2 ^ 64),
      ih (dst + chunk) (src + chunk) (remaining - chunk) _ (by omega) (by omega)
        (fun w hw hw' => hpages w (by omega) (by omega)),
      view_fillPage hmapped (by omega) hpage (by omega) hv]
    by_cases hlater : dst + chunk ≤ v ∧ v < dst + chunk + (remaining - chunk)
    · rw [if_pos hlater, if_pos (by omega)]
      congr 1
      omega
    rw [if_neg hlater]
    by_cases hnow : dst ≤ v ∧ v < dst + chunk
    · rw [if_pos (by omega), if_pos (by omega)]
      congr 2
      omega
    · rw [if_neg (by omega), if_neg (by omega)]

/-! ### Segments -/

/-- The segment lies below the hole of non-canonical addresses, and its bytes on its pages. -/
structure ProgramHeader.Fits (s : ProgramHeader) : Prop where
  bytes : s.vaddr + s.filesz ≤ s.segEnd
  low : s.vaddr + s.memsz ≤ 2 ^ 47

/-- The byte that a segment leaves at an address of its pages. -/
def ProgramHeader.leaves (im : Image) (s : ProgramHeader) (v : Nat) : UInt8 :=
  if s.vaddr ≤ v ∧ v < s.vaddr + s.filesz then im.byteAt (s.offset + (v - s.vaddr)) else 0

theorem ProgramHeader.segEnd_eq {s : ProgramHeader} (hlow : s.vaddr + s.memsz ≤ 2 ^ 47) :
    s.segEnd = (s.vaddr + s.memsz + 4095) / 4096 * 4096 := by
  rw [segEnd, Nat.mod_eq_of_lt (by omega)]

/-- A segment with no more bytes than memory. -/
theorem fits_of_low {s : ProgramHeader} (hle : s.filesz ≤ s.memsz)
    (hlow : s.vaddr + s.memsz ≤ 2 ^ 47) : s.Fits := by
  have hend := segEnd_eq hlow
  exact ⟨by omega, hlow⟩

theorem ProgramHeader.Fits.segEnd_eq {s : ProgramHeader} (h : s.Fits) :
    s.segEnd = (s.vaddr + s.memsz + 4095) / 4096 * 4096 := ProgramHeader.segEnd_eq h.low

/-- The pages of a segment that fits. -/
theorem ProgramHeader.Fits.mem_pages {s : ProgramHeader} (h : s.Fits) {x : Nat} :
    x ∈ s.pages ↔ x % 4096 = 0 ∧ s.segStart ≤ x ∧ x < s.segEnd := by
  have hlow := h.low
  have hend := h.segEnd_eq
  have hstart : s.segStart = s.vaddr / 4096 * 4096 := rfl
  simp only [pages, mem_map, mem_range]
  constructor
  · rintro ⟨p, hp, rfl⟩
    omega
  · intro hx
    exact ⟨(x - s.segStart) / 4096, by omega, by omega⟩

/-- The address lies on a page of the segment. -/
def ProgramHeader.Covers (s : ProgramHeader) (v : Nat) : Prop := s.segStart ≤ v ∧ v < s.segEnd

instance (s : ProgramHeader) (v : Nat) : Decidable (s.Covers v) :=
  inferInstanceAs (Decidable (_ ∧ _))

/-- **One segment**: on its pages are its bytes and zeros, and elsewhere what there was. -/
theorem view_loadSegment (hmapped : Mapped t pages frame) {s : ProgramHeader} (hfits : s.Fits)
    (hpages : ∀ x ∈ s.pages, pages (x / 4096)) {v : Nat} (hv : pages (v / 4096)) :
    view frame (loadSegment im t mem s) v =
      if s.Covers v then s.leaves im v else view frame mem v := by
  have hlow := hfits.low
  have hbytes := hfits.bytes
  have hend := hfits.segEnd_eq
  have hstart : s.segStart = s.vaddr / 4096 * 4096 := rfl
  have hin : ∀ w, s.segStart ≤ w → w < s.segEnd → pages (w / 4096) := by
    intro w hw hw'
    have hmem := hpages (w / 4096 * 4096) (hfits.mem_pages.2 (by omega))
    rwa [Nat.mul_div_cancel _ (by decide)] at hmem
  rw [loadSegment, view_copyLoop hmapped hv _ _ _ _ _ (Nat.le_refl _) (by omega)
    (fun w hw hw' => hin w (by omega) (by omega)), zeroSegment,
    view_zero hmapped (by omega) _ (fun p hp => ?_) hv, leaves]
  · by_cases hfile : s.vaddr ≤ v ∧ v < s.vaddr + s.filesz
    · rw [if_pos hfile, if_pos hfile, if_pos ⟨by omega, by omega⟩]
    rw [if_neg hfile, if_neg hfile]
    by_cases hseg : s.Covers v
    · obtain ⟨hlo, hhi⟩ := hseg
      rw [if_pos (by omega), if_pos ⟨hlo, hhi⟩]
    · rw [if_neg fun h => hseg ⟨by omega, by omega⟩, if_neg hseg]
  · have hpage := hin (s.segStart + 4096 * p) (by omega) (by omega)
    rwa [show (s.segStart + 4096 * p) / 4096 = s.segStart / 4096 + p by omega] at hpage

/-- The last segment of the list on whose pages the address lies. -/
def lastOver (l : List ProgramHeader) (v : Nat) : Option ProgramHeader :=
  l.reverse.find? fun s => s.Covers v

/-- **All segments**: at each address the last one counts that has it on its pages. -/
theorem view_segments (im : Image) (mem : Memory) (hmapped : Mapped t pages frame)
    {l : List ProgramHeader} (hfits : ∀ x ∈ l, x.Fits)
    (hpages : ∀ x ∈ l, ∀ y ∈ x.pages, pages (y / 4096)) {v : Nat} (hv : pages (v / 4096)) :
    view frame (l.foldl (loadSegment im t) mem) v =
      ((lastOver l v).map fun s => s.leaves im v).getD (view frame mem v) := by
  induction l using List.reverseRecOn with
  | nil => rfl
  | append_singleton l s ih =>
    have hs : s ∈ l ++ [s] := by simp
    have hrest := ih (fun x hx => hfits x (mem_append_left _ hx))
      fun x hx => hpages x (mem_append_left _ hx)
    rw [foldl_append, foldl_cons, foldl_nil,
      view_loadSegment hmapped (hfits s hs) (hpages s hs) hv, hrest]
    by_cases hin : s.Covers v
    · rw [if_pos hin, lastOver, reverse_append, reverse_singleton, singleton_append,
        find?_cons_of_pos (by simpa using hin)]
      rfl
    · rw [if_neg hin, lastOver, lastOver, reverse_append, reverse_singleton, singleton_append,
        find?_cons_of_neg (by simpa using hin)]

/-- The bytes of a segment lie on its pages. -/
theorem ProgramHeader.Fits.covers {s : ProgramHeader} (h : s.Fits) {v : Nat} (hlow : s.vaddr ≤ v)
    (hhigh : v < s.vaddr + s.memsz) : s.Covers v := by
  have hend := h.segEnd_eq
  have hstart : s.segStart = s.vaddr / 4096 * 4096 := rfl
  exact ⟨by omega, by omega⟩

theorem lastOver_isSome {l : List ProgramHeader} {s : ProgramHeader} (hs : s ∈ l) {v : Nat}
    (hv : s.Covers v) : ∃ x, lastOver l v = some x := by
  rw [← Option.isSome_iff_exists, lastOver, find?_isSome]
  exact ⟨s, by simpa using hs, by simpa using hv⟩

/-! ### The loader -/

/-- A segment keeps its bytes: it lies below the hole of non-canonical addresses, its bytes are in
the file, and at each of its addresses the last segment with the address on its pages leaves the
same byte. -/
structure Image.Keeps (im : Image) (s : ProgramHeader) : Prop where
  low : s.vaddr + s.memsz ≤ 2 ^ 47
  inside : 0 < s.filesz → s.offset + s.filesz ≤ im.data.length
  last : ∀ v, s.vaddr ≤ v → v < s.vaddr + s.memsz → ∀ x, lastOver im.segments v = some x →
    x.leaves im v = s.leaves im v

/-- The list that the mapping loops go through. -/
abbrev Image.mappings (im : Image) : List (Nat × Flags) :=
  im.segments.flatMap fun s => s.pages.map fun v => (v, s.mapFlags)

theorem mapped_of_mapAll {pmm : Pmm} {t' : PML4} (hgiant : NoGiant t)
    (hfits : ∀ s ∈ im.segments, s.Fits) (h : mapAll pmm 0 im.mappings t = some t') :
    Mapped t' (fun q => ∃ x ∈ im.mappings, x.1 / 4096 = q)
      fun q => getPhysicalAddress t' (q * 4096) / 4096 := by
  have hl : ∀ x ∈ im.mappings, x.1 < 2 ^ 47 ∧ x.2.user = true := by
    intro x hx
    simp only [mem_flatMap, mem_map] at hx
    obtain ⟨s, hs, v, hv, rfl⟩ := hx
    have hlow := (hfits s hs).low
    have hend := (hfits s hs).segEnd_eq
    have hpage := ((hfits s hs).mem_pages).1 hv
    exact ⟨by simp only; omega, rfl⟩
  obtain ⟨hmapped, -⟩ := mapAll_spec hgiant hl h
  -- the frame that the tables give is that of the page handed out
  have hframe : ∀ q, (∃ x ∈ im.mappings, x.1 / 4096 = q) → ∃ k p,
      (∃ x, im.mappings[k]? = some x ∧ x.1 / 4096 = q) ∧ pmm.page k = some p ∧
      getPhysicalAddress t' (q * 4096) / 4096 = p / 4096 ∧
      ∀ v, v / 4096 = q → SmallPage t' v (p / 4096) := by
    intro q hq
    obtain ⟨k, p, hk, hp, hsmall⟩ := hmapped q hq
    have hphys := (hsmall (q * 4096) (Nat.mul_div_cancel _ (by decide))).physical
    exact ⟨k, p, hk, by rwa [Nat.zero_add] at hp, by rw [hphys]; omega, hsmall⟩
  refine ⟨fun v hv => ?_, fun p q hp hq heq => ?_, fun q hq => ?_⟩
  · obtain ⟨k, p, -, -, hphys, hsmall⟩ := hframe _ hv
    simp only [hphys]
    exact hsmall v rfl
  · obtain ⟨k, a, ⟨x, hx, hxp⟩, ha, hphys, -⟩ := hframe p hp
    obtain ⟨k', b, ⟨y, hy, hyq⟩, hb, hphys', -⟩ := hframe q hq
    have hab : a = b := by
      have halign := pmm.aligned k a ha
      have halign' := pmm.aligned k' b hb
      omega
    have hkk := pmm.distinct k k' a ha (hab ▸ hb)
    rw [hkk, hy, Option.some.injEq] at hx
    rw [← hxp, ← hyq, hx]
  obtain ⟨k, p, -, hp, hphys, -⟩ := hframe q hq
  have halign := pmm.aligned k p hp
  have hnonzero := pmm.nonzero k p hp
  simp only [hphys]
  omega

/-- The last pass over the tables keeps the pages. -/
theorem smallPage_finalFlags {v f : Nat} (l : List ProgramHeader) (h : SmallPage t v f) :
    SmallPage (l.foldl
      (fun t s => s.pages.foldl (fun t v => setPageFlagsInSpace t v s.finalFlags) t) t) v f := by
  refine List.foldlRecOn (motive := fun t => SmallPage t v f) l _ h fun t h s _ => ?_
  exact List.foldlRecOn (motive := fun t => SmallPage t v f) s.pages _ h fun t h p _ =>
    smallPage_setPageFlags rfl h

/-- The tables with the final rights. -/
abbrev Image.finalTables (im : Image) (t : PML4) : PML4 :=
  im.segments.foldl
    (fun t s => s.pages.foldl (fun t v => setPageFlagsInSpace t v s.finalFlags) t) t

/-- How the loader ends when `dynlink_process` changes nothing. -/
theorem elfLoadToProcess_cases (pmm : Pmm) (mem : Memory)
    {dynlink : PML4 → Memory → Option (PML4 × Memory)}
    (hquiet : ∀ t mem r, im.dynamic = true → dynlink t mem = some r → r = (t, mem)) :
    elfLoadToProcess im pmm t mem dynlink = .failed ∨
      (32 < im.segments.length ∧ elfLoadToProcess im pmm t mem dynlink = .overrun) ∨
      (im.segments.length ≤ 32 ∧ ∃ t', mapAll pmm 0 im.mappings t = some t' ∧
        elfLoadToProcess im pmm t mem dynlink =
          .loaded (im.finalTables t') (im.segments.foldl (loadSegment im t') mem)) := by
  unfold elfLoadToProcess
  split
  · exact .inl rfl
  split
  · next hmany => exact .inr (.inl ⟨hmany, rfl⟩)
  next hcount =>
  cases hmap : mapAll pmm 0 im.mappings t with
  | none => exact .inl rfl
  | some t' =>
    dsimp only
    split
    · next hdyn =>
      cases hlink : dynlink (im.finalTables t') (im.segments.foldl (loadSegment im t') mem) with
      | none => exact .inl rfl
      | some r =>
        cases hquiet _ _ _ hdyn hlink
        exact .inr (.inr ⟨Nat.not_lt.1 hcount, t', rfl, rfl⟩)
    · exact .inr (.inr ⟨Nat.not_lt.1 hcount, t', rfl, rfl⟩)

/-- What a byte of a segment is when the file is loaded. -/
theorem holds_loaded {pmm : Pmm} {t' : PML4} (hgiant : NoGiant t)
    (hfits : ∀ s ∈ im.segments, s.Fits) (hmap : mapAll pmm 0 im.mappings t = some t')
    {s : ProgramHeader} (hs : s ∈ im.segments) {i : Nat} (hi : i < s.memsz) (b : UInt8) :
    Holds (im.finalTables t') (im.segments.foldl (loadSegment im t') mem) (s.vaddr + i) b ↔
      ∀ x, lastOver im.segments (s.vaddr + i) = some x → x.leaves im (s.vaddr + i) = b := by
  have hmapped := mapped_of_mapAll hgiant hfits hmap
  have hpages : ∀ x ∈ im.segments, ∀ y ∈ x.pages,
      ∃ z ∈ im.mappings, z.1 / 4096 = y / 4096 := fun x hx y hy =>
    ⟨(y, x.mapFlags), mem_flatMap.2 ⟨x, hx, mem_map.2 ⟨y, hy, rfl⟩⟩, rfl⟩
  have hcovers := (hfits s hs).covers (Nat.le_add_right s.vaddr i) (by omega)
  have hlow := (hfits s hs).low
  have hpage : ∃ z ∈ im.mappings, z.1 / 4096 = (s.vaddr + i) / 4096 := by
    obtain ⟨hstart, hend⟩ := hcovers
    have halign : s.segStart = s.vaddr / 4096 * 4096 := rfl
    have hround := (hfits s hs).segEnd_eq
    have hmem := hpages s hs ((s.vaddr + i) / 4096 * 4096) ((hfits s hs).mem_pages.2 (by omega))
    rwa [Nat.mul_div_cancel _ (by decide)] at hmem
  have hsmall := smallPage_finalFlags im.segments (hmapped.small _ hpage)
  have hbyte := view_segments im mem hmapped hfits hpages hpage
  obtain ⟨x, hx⟩ := lastOver_isSome hs hcovers
  rw [hx, Option.map_some, Option.getD_some] at hbyte
  constructor
  · rintro ⟨-, -, p, hp, hb⟩ y hy
    rw [hx, Option.some.injEq] at hy
    rw [← hy, ← hbyte, ← hb]
    exact congrArg _ (Option.some.inj (hsmall.translate.symm.trans hp))
  · intro hlast
    exact ⟨by omega, hsmall.accessible, _, hsmall.translate, hbyte.trans (hlast x hx)⟩

theorem leaves_segment {s : ProgramHeader} (i : Nat) : s.leaves im (s.vaddr + i) =
    if i < s.filesz then im.byteAt (s.offset + i) else 0 := by
  rw [leaves]
  by_cases hfile : i < s.filesz
  · rw [if_pos hfile, if_pos (by omega), Nat.add_sub_cancel_left]
  · rw [if_neg hfile, if_neg (by omega)]

/-- Two segments on pages of their own. -/
theorem separatePages_segments : (twoSegments 0x401000).segments =
    [⟨1, 5, 176, 0x400000, 1, 1⟩, ⟨1, 6, 177, 0x401000, 1, 1⟩] := by
  decide +kernel

theorem noGiant_emptySpace : NoGiant emptySpace := fun _ => rfl

/-- The tables after the mapping loops, for the file with two segments on one page. -/
def sharedTables : PML4 :=
  (mapAll upwards 0 (twoSegments 0x400800).mappings emptySpace).getD emptySpace

/-- The memory after both segments. -/
def sharedMemory : Memory :=
  (twoSegments 0x400800).segments.foldl (loadSegment (twoSegments 0x400800) sharedTables) fun _ => 0

/-- The tables in the end. -/
def sharedFinal : PML4 :=
  (twoSegments 0x400800).segments.foldl
    (fun t s => s.pages.foldl (fun t v => setPageFlagsInSpace t v s.finalFlags) t) sharedTables

theorem sharedPage_loaded : elfLoadToProcess (twoSegments 0x400800) upwards emptySpace (fun _ => 0)
    (fun _ _ => none) = .loaded sharedFinal sharedMemory := rfl

end Elf
