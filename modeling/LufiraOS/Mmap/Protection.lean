import LufiraOS.Elf.Pages

/-!
# The protection of mapped pages

`map_page_in_pml4` keeps the low twelve bits of the flags it is given.  `PAGE_NX`, which `sys_mmap`
and `dynlink_map_libc_into_process` ask for, is not among them.
-/

namespace Protection

open List Paging Paging.PML4 Elf

/-- A call of `map_page_in_pml4`, with the frames for the tables it needs. -/
structure Mapping where
  virt : Nat
  phys : Nat
  flags : Flags
  new : NewTables

/-- The calls for one page after the other.  An address that wraps has the same indices. -/
def mappings (flags : Flags) (start : Nat) (pages : List (Nat × NewTables)) : List Mapping :=
  pages.zipIdx.map fun p => ⟨start + p.2 * pageSize, p.1.1, flags, p.1.2⟩

/-- The mapping loops, if they succeed. -/
def mapEach : List Mapping → PML4 → Option PML4
  | [], t => some t
  | m :: ms, t => (mapPageInPml4 t m.virt m.phys m.flags m.new).bind (mapEach ms)

/-- `page_flags` of `sys_mmap`. -/
def mmapFlags (prot : Nat) (wantShared : Bool) : Flags :=
  { present := true, user := true, write := prot.testBit 1, nx := !prot.testBit 2,
    mmapShared := wantShared }

/-- `dynlink_segment_t`, with the frames that its pages are mapped to. -/
structure Segment where
  vaddrOffset : Nat
  writable : Bool
  executable : Bool
  pages : List (Nat × NewTables)

/-- The calls of `dynlink_map_libc_into_process` for a segment, from `DYNLINK_LIBC_BASE` on. -/
def Segment.mappings (s : Segment) : List Mapping :=
  Protection.mappings
    { user := true, write := s.writable, nx := !s.executable, mmapShared := !s.writable }
    (0x580000000000 + s.vaddrOffset) s.pages

/-! ## The copy in a child -/

/-- A table that is there gets a copy at a new frame. -/
def cloneTable {α : Type} (e : Entry α) (frame : Nat) (zero table : α) : Entry α :=
  if e.flags.present then ⟨{ e.flags with nx := false }, frame, table⟩ else absent zero

/-- A page that is there is shared, or gets a copy at a new frame. -/
def cloneEntry (known : Nat → Bool) (frame : Nat) (e : Entry Unit) : Entry Unit :=
  if e.flags.present then
    if e.flags.mmapShared && known e.frame then e
    else ⟨{ e.flags with identityShared := false }, frame, ()⟩
  else absent ()

/-- `clone_address_space_deep`, from the tables of `create_address_space`; `known` are the frames
that `shm_find_region_by_page` finds, `frames` what `pmm_alloc_page` gives for the entry at the
indices. -/
def cloneAddressSpaceDeep (known : Nat → Bool) (frames : List Nat → Nat) (t created : PML4) :
    PML4 :=
  fun i =>
    if i < 256 ∧ (t i).flags.present then
      cloneTable (t i) (frames [i]) zeroPDPT fun j =>
        let e3 := (t i).table j
        cloneTable e3 (frames [i, j]) zeroPD fun k =>
          let e2 := e3.table k
          if e2.flags.present && e2.flags.huge then e2
          else cloneTable e2 (frames [i, j, k]) zeroPT fun l =>
            cloneEntry known (frames [i, j, k, l]) (e2.table l)
    else created i

/-! ## What the entries are -/

variable {t t' : PML4} {v : Nat} {m : Mapping} {ms : List Mapping} {G : Entry Unit → Prop}

/-- One page: the entries that are as `G` says stay so, and the new one becomes so. -/
theorem reaches_mapPage (hG : ∀ f, G ⟨{ m.flags with present := true, nx := false }, f, ()⟩)
    (hmap : mapPageInPml4 t m.virt m.phys m.flags m.new = some t') :
    Reaches t' m.virt G ∧ ∀ v, Reaches t v G → Reaches t' v G := by
  have hpage : ∀ v, SameRegion v m.virt → ptIndex v = ptIndex m.virt → Reaches t' v G :=
    fun v hregion hpt => (reaches_map splits_inPml4 hmap).1 hregion hpt (hG _)
  refine ⟨hpage _ ⟨rfl, rfl, rfl⟩ rfl, fun v h => ?_⟩
  by_cases hsame : SameRegion v m.virt ∧ ptIndex v = ptIndex m.virt
  · exact hpage v hsame.1 hsame.2
  · exact ((reaches_map splits_inPml4 hmap).2 (fun hregion hpt => hsame ⟨hregion, hpt⟩) h).1

theorem reaches_mapEach
    (hG : ∀ m ∈ ms, ∀ f, G ⟨{ m.flags with present := true, nx := false }, f, ()⟩)
    (hmap : mapEach ms t = some t') :
    (∀ m ∈ ms, Reaches t' m.virt G) ∧ ∀ v, Reaches t v G → Reaches t' v G := by
  induction ms generalizing t with
  | nil =>
    cases hmap
    exact ⟨fun _ hm => absurd hm not_mem_nil, fun _ h => h⟩
  | cons m ms ih =>
    obtain ⟨t₁, hfirst, hrest⟩ := Option.bind_eq_some_iff.1 hmap
    obtain ⟨hnew, hkeep⟩ := reaches_mapPage (hG m mem_cons_self) hfirst
    obtain ⟨hpages, hkeep'⟩ := ih (fun m hm => hG m (mem_cons_of_mem _ hm)) hrest
    refine ⟨fun m' hm' => ?_, fun v h => hkeep' v (hkeep v h)⟩
    rcases mem_cons.1 hm' with rfl | hm'
    · exact hkeep' _ hnew
    · exact hpages m' hm'

theorem entry1_clone (known : Nat → Bool) (frames : List Nat → Nat) (created : PML4)
    (h : Reaches t v G) (hlow : pml4Index v < 256) :
    ∃ f, entry1 (cloneAddressSpaceDeep known frames t created) v = cloneEntry known f
      (entry1 t v) := by
  obtain ⟨⟨h4, -⟩, ⟨h3, -⟩, ⟨h2, -, hhuge⟩, -⟩ := h
  simp only [entry1, entry2, entry3, entry4] at h4 h3 h2 hhuge ⊢
  simp only [cloneAddressSpaceDeep, cloneTable, hlow, h4, h3, h2, hhuge, and_self, if_true,
    Bool.and_false, Bool.false_eq_true, if_false]
  exact ⟨_, rfl⟩

/-! ## The protection asked for -/

/-- The bits of an entry are those that `prot` asks for. -/
def Right (prot : Nat) (e : Entry Unit) : Prop :=
  e.flags.nx = !prot.testBit 2 ∧ e.flags.write = prot.testBit 1

/-- The page is protected as `prot` asks, and so is its copy in every child. -/
def Protected (prot : Nat) (t : PML4) (v : Nat) : Prop :=
  Right prot (entry1 t v) ∧ (pml4Index v < 256 → ∀ known frames created,
    Right prot (entry1 (cloneAddressSpaceDeep known frames t created) v))

/-- **No page is no-execute.**  What `sys_mmap` maps is protected as asked, in the caller and in its
children, exactly if `PROT_EXEC` is asked for; a page of libc, if its segment is executable. -/
theorem protected_iff (prot : Nat) :
    (∀ shared base pages, mapEach (mappings (mmapFlags prot shared) base pages) t = some t' →
      ∀ m ∈ mappings (mmapFlags prot shared) base pages,
        (Protected prot t' m.virt ↔ prot.testBit 2 = true)) ∧
    ∀ segments : List Segment, mapEach (segments.flatMap Segment.mappings) t = some t' →
      ∀ s ∈ segments, ∀ m ∈ s.mappings,
        ((entry1 t' m.virt).flags.nx = !s.executable ↔ s.executable = true) := by
  constructor
  · intro shared base pages hmap m hm
    have hreach := (reaches_mapEach (G := fun e => e.flags.present = true ∧ e.flags.nx = false ∧
      e.flags.write = prot.testBit 1) (fun m hm f => ⟨rfl, rfl, by
        obtain ⟨p, -, rfl⟩ := mem_map.1 hm
        rfl⟩) hmap).1 m hm
    obtain ⟨hpresent, hnx, hwrite⟩ := hreach.level1
    constructor
    · intro h
      have hright := h.1.1
      rw [hnx] at hright
      simpa using hright
    · intro hexec
      refine ⟨⟨by rw [hnx, hexec]; rfl, hwrite⟩, fun hlow known frames created => ?_⟩
      obtain ⟨f, hcopy⟩ := entry1_clone known frames created hreach hlow
      rw [hcopy, cloneEntry, if_pos hpresent]
      split
      all_goals exact ⟨by simp [hnx, hexec], hwrite⟩
  · intro segments hmap s hs m hm
    have hnx := ((reaches_mapEach (G := fun e => e.flags.nx = false) (fun _ _ _ => rfl) hmap).1 m
      (mem_flatMap.2 ⟨s, hs, hm⟩)).level1
    rw [hnx]
    cases s.executable <;> decide

/-- The frame and the tables of a page. -/
def onePage : List (Nat × NewTables) := [(0x200000, ⟨some 1, some 2, some 3⟩)]

def text : Segment := ⟨0, false, true, onePage⟩

theorem protected_iff_onePage :
    (∃ t', mapEach (mappings (mmapFlags 5 false) 0x600000000000 onePage) emptySpace = some t' ∧
      Protected 5 t' 0x600000000000) ∧
    ∃ t', mapEach ([text].flatMap Segment.mappings) emptySpace = some t' ∧
      (entry1 t' 0x580000000000).flags.nx = false := by
  refine ⟨⟨_, rfl, ?_⟩, _, rfl, ?_⟩
  · exact ((protected_iff (t := emptySpace) 5).1 false _ onePage rfl _ mem_cons_self).2 rfl
  · exact ((protected_iff (t := emptySpace) 0).2 [text] rfl _ mem_cons_self _ mem_cons_self).2 rfl

/-- Memory that may be written and not executed can be executed. -/
theorem not_protected_onePage :
    ∃ t', mapEach (mappings (mmapFlags 3 false) 0x600000000000 onePage) emptySpace = some t' ∧
      ¬ Protected 3 t' 0x600000000000 :=
  ⟨_, rfl, fun h => absurd h.1.1 (by decide)⟩

end Protection
