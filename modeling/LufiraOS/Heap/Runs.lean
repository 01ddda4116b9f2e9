import LufiraOS.Heap.Steps
import LufiraOS.Lib.Run

/-!
# Runs of the heap

The heap after any allocations and frees, with the owners of the allocations
writing into them in between: the blocks tile the heap, they are linked both ways,
no two neighbours are free, and the used blocks are the live allocations, which no
call of the heap changes.
-/

namespace Heap

open List

open ByteStore Blocks

/-- The memory, and the live allocations: what `kmalloc` returned and the size it
was asked for. -/
structure Trace where
  mem : Bytes
  live : List (Nat × Nat)

/-- A call of the heap, or a byte that the owner of an allocation stores. -/
inductive Event
  | alloc (size : Nat)
  | free (ptr : Nat)
  | store (a : Nat) (v : UInt8)

namespace Trace

/-- The pointers to the live allocations. -/
def ptrs (t : Trace) : List Nat := t.live.map Prod.fst

/-- One event. -/
def exec (t : Trace) : Event → Trace
  | .alloc size =>
    match kmalloc t.mem size with
    | (ptr, mem) => ⟨mem, if ptr = 0 then t.live else (ptr, size) :: t.live⟩
  | .free ptr => ⟨kfree t.mem ptr, t.live.filter fun q => q.1 ≠ ptr⟩
  | .store a v => { t with mem := Function.update t.mem a v }

/-- Sizes are below `2^32`, only what is live is freed, and owners write into what
they have asked for. -/
def Allowed (t : Trace) : Event → Prop
  | .alloc size => size < 4294967296
  | .free ptr => ptr = 0 ∨ ptr ∈ t.ptrs
  | .store a _ => ∃ q ∈ t.live, q.1 ≤ a ∧ a < q.1 + q.2

instance (t : Trace) (ev : Event) : Decidable (t.Allowed ev) := by
  cases ev <;> unfold Allowed <;> infer_instance

/-- The heap after `heap_init`, in memory that held the bytes `m`. -/
def start (m : Bytes) : Trace := ⟨heapInit m, []⟩

/-- **The heap is in order.**  `bs` are the blocks that a walk from the first header
visits. -/
structure InOrder (t : Trace) (bs : List (Block UInt32)) : Prop where
  tiles : Tiles heapStart bs heapEnd
  linked : Linked (header t.mem) 0 bs 0
  magic : ∀ b ∈ bs, b.tag = magicFree ∨ b.tag = magicUsed
  coalesced : bs.IsChain NotBothFree
  used : ∀ p, p ∈ t.ptrs ↔ ∃ b ∈ bs, b.tag = magicUsed ∧ b.addr + 24 = p
  distinct : t.ptrs.Nodup
  room : ∀ q ∈ t.live, ∃ b ∈ bs, b.tag = magicUsed ∧ b.addr + 24 = q.1 ∧ q.2 + 24 ≤ b.size
  /-- What stays allocated keeps its payload whatever is allocated or freed. -/
  quiet : ∀ ev, t.Allowed ev → (∀ a v, ev ≠ .store a v) → ∀ b ∈ bs, b.tag = magicUsed →
    b.addr + 24 ∈ (t.exec ev).ptrs → SamePayload t.mem (t.exec ev).mem b

/-! ## The invariant -/

/-- The used blocks are the live allocations. -/
structure Kept (t : Trace) (bs : List (Block UInt32)) : Prop extends Valid t.mem bs where
  used : ∀ p, p ∈ t.ptrs ↔ ∃ b ∈ usedBlocks bs, b.addr + 24 = p
  distinct : t.ptrs.Nodup
  room : ∀ q ∈ t.live, ∃ b ∈ usedBlocks bs, b.addr + 24 = q.1 ∧ q.2 + 24 ≤ b.size

variable {t : Trace} {bs : List (Block UInt32)} {m : Bytes}

theorem start_kept (m : Bytes) : Kept (start m) [⟨heapStart, heapSize, magicFree⟩] where
  tiles := ⟨rfl, rfl⟩
  linked := ⟨header_putHeader (m := m) (h := ⟨magicFree, heapSize, 0, 0⟩) (by decide) (by decide)
    (by decide), trivial⟩
  roomy := by
    intro b hb
    rw [mem_singleton.1 hb]
    decide
  magic := by
    intro b hb
    rw [mem_singleton.1 hb]
    exact .inl rfl
  coalesced := isChain_singleton _
  used := by
    intro p
    constructor
    · exact fun hp => nomatch hp
    rintro ⟨b, ⟨hb, hused⟩, _⟩
    rw [mem_singleton.1 hb] at hused
    exact absurd hused.symm magicUsed_ne_free
  distinct := nodup_nil
  room := fun _ hq => nomatch hq

theorem eq_of_addr (h : Laid m bs) {b c : Block UInt32} (hb : b ∈ bs) (hc : c ∈ bs)
    (haddr : c.addr = b.addr) : c = b := by
  obtain ⟨pre, post, rfl⟩ := append_of_mem hb
  by_contra hne
  exact h.addr_ne (by simpa [hne] using hc) haddr

theorem mem_ptrs_cons {p n p' : Nat} {mem : Bytes} :
    p' ∈ Trace.ptrs ⟨mem, (p, n) :: t.live⟩ ↔ p' = p ∨ p' ∈ t.ptrs := by
  simp [ptrs]

theorem mem_ptrs_filter {p p' : Nat} {mem : Bytes} :
    p' ∈ Trace.ptrs ⟨mem, t.live.filter fun q => q.1 ≠ p⟩ ↔ p' ∈ t.ptrs ∧ p' ≠ p := by
  simp only [ptrs, mem_map, mem_filter, ne_eq, decide_not, Bool.not_eq_eq_eq_not,
    Bool.not_true, decide_eq_false_iff_not]
  constructor
  · rintro ⟨q, ⟨hq, hne⟩, rfl⟩
    exact ⟨⟨q, hq, rfl⟩, hne⟩
  · rintro ⟨⟨q, hq, rfl⟩, hne⟩
    exact ⟨q, ⟨hq, hne⟩, rfl⟩

/-- `kmalloc`: the invariant, and the payloads of what was allocated before. -/
theorem Kept.alloc (h : Kept t bs) {n : Nat} (hn : n < 4294967296) :
    (∃ bs', Kept (t.exec (.alloc n)) bs') ∧
      ∀ b ∈ usedBlocks bs, SamePayload t.mem (t.exec (.alloc n)).mem b := by
  rcases h.toValid.kmalloc hn with ⟨hfail, _⟩ | ⟨bs', new, hvalid, hptr, hroom, hused, hkeep⟩
  · have hsame : t.exec (.alloc n) = t := by
      simp only [exec, hfail, if_true]
    rw [hsame]
    exact ⟨⟨bs, h⟩, fun _ _ _ _ _ => rfl⟩
  have hexec : t.exec (.alloc n) = ⟨(kmalloc t.mem n).2, (new.addr + 24, n) :: t.live⟩ := by
    simp only [exec, hptr]
    rfl
  rw [hexec]
  refine ⟨⟨bs', hvalid, fun p => ?_, ?_, ?_⟩, fun b hb => (hkeep b hb).2⟩
  · rw [mem_ptrs_cons, h.used, hused]
    constructor
    · rintro (rfl | ⟨b, hb, rfl⟩)
      · exact ⟨new, Set.mem_insert _ _, rfl⟩
      · exact ⟨b, Set.mem_insert_of_mem _ hb, rfl⟩
    rintro ⟨b, rfl | hb, rfl⟩
    · exact .inl rfl
    · exact .inr ⟨b, hb, rfl⟩
  · refine nodup_cons.2 ⟨fun hmem => ?_, h.distinct⟩
    obtain ⟨b, hb, haddr⟩ := (h.used _).1 hmem
    have hne := (hkeep b hb).1
    simp only at haddr
    omega
  intro q hq
  rw [hused]
  rcases mem_cons.1 hq with rfl | hold
  · exact ⟨new, Set.mem_insert _ _, rfl, hroom⟩
  · obtain ⟨b, hb, hfits⟩ := h.room q hold
    exact ⟨b, Set.mem_insert_of_mem _ hb, hfits⟩

/-- `kfree`: the invariant, and the payloads of what stays allocated. -/
theorem Kept.free (h : Kept t bs) {p : Nat} (hp : p = 0 ∨ p ∈ t.ptrs) :
    (∃ bs', Kept (t.exec (.free p)) bs') ∧
      ∀ b ∈ usedBlocks bs, b.addr + 24 ≠ p → SamePayload t.mem (t.exec (.free p)).mem b := by
  have hpos : ∀ {p'}, p' ∈ t.ptrs → p' ≠ 0 := by
    intro p' hp'
    obtain ⟨b, _, haddr⟩ := (h.used p').1 hp'
    omega
  by_cases hp0 : p = 0
  · subst hp0
    have hsame : t.exec (.free 0) = t := by
      have hall : t.live.filter (fun q => q.1 ≠ 0) = t.live := by
        refine filter_eq_self.2 fun q hq => ?_
        simpa using hpos (mem_map_of_mem (f := Prod.fst) hq)
      simp only [exec, hall, kfree, if_true]
    rw [hsame]
    exact ⟨⟨bs, h⟩, fun _ _ _ _ _ _ => rfl⟩
  obtain ⟨b, hb, rfl⟩ := (h.used p).1 (hp.resolve_left hp0)
  obtain ⟨bs', hvalid, hused, hkeep⟩ := h.toValid.kfree hb
  have hother : ∀ {c}, c ∈ usedBlocks bs → (c ≠ b ↔ c.addr + 24 ≠ b.addr + 24) := by
    intro c hc
    constructor
    · intro hne heq
      exact hne (eq_of_addr h.toLaid hb.1 hc.1 (by omega))
    · rintro hne rfl
      exact hne rfl
  refine ⟨⟨bs', hvalid, fun p => ?_, ?_, ?_⟩, fun c hc hne => hkeep c hc ((hother hc).2 hne)⟩
  · rw [exec, mem_ptrs_filter, h.used, hused]
    constructor
    · rintro ⟨⟨c, hc, rfl⟩, hne⟩
      exact ⟨c, ⟨hc, (hother hc).2 hne⟩, rfl⟩
    · rintro ⟨c, ⟨hc, hne⟩, rfl⟩
      exact ⟨⟨c, hc, rfl⟩, (hother hc).1 hne⟩
  · exact h.distinct.sublist (filter_sublist.map _)
  intro q hq
  obtain ⟨hmem, hne⟩ := mem_filter.1 hq
  obtain ⟨c, hc, haddr, hfits⟩ := h.room q hmem
  rw [hused]
  refine ⟨c, ⟨hc, (hother hc).2 ?_⟩, haddr, hfits⟩
  rw [haddr]
  simpa using hne

/-- A byte stored into an allocation lies in no header. -/
theorem Kept.store (h : Kept t bs) {a : Nat} {v : UInt8} (ha : t.Allowed (.store a v)) :
    Kept (t.exec (.store a v)) bs := by
  obtain ⟨q, hq, hlo, hhi⟩ := ha
  obtain ⟨b, ⟨hb, _⟩, haddr, hfits⟩ := h.room q hq
  have hheader : ∀ c ∈ bs, header (Function.update t.mem a v) c.addr = header t.mem c.addr := by
    intro c hc
    refine header_congr fun k hk => Function.update_of_ne ?_ _ _
    have hclear := h.clear (d := b) hb hc (x := a) (by omega) (by omega)
    omega
  exact ⟨⟨⟨h.tiles, h.linked.congr hheader, h.roomy, h.magic⟩, h.coalesced⟩, h.used, h.distinct,
    h.room⟩

theorem Kept.exec (h : Kept t bs) {ev : Event} (hok : t.Allowed ev) :
    ∃ bs', Kept (t.exec ev) bs' := by
  cases ev with
  | alloc n => exact (h.alloc hok).1
  | free p => exact (h.free hok).1
  | store a v => exact ⟨bs, h.store hok⟩

theorem Kept.inOrder (h : Kept t bs) : InOrder t bs where
  tiles := h.tiles
  linked := h.linked
  magic := h.magic
  coalesced := h.coalesced
  used := by
    intro p
    rw [h.used]
    exact ⟨fun ⟨b, hb, hp⟩ => ⟨b, hb.1, hb.2, hp⟩, fun ⟨b, hb, hused, hp⟩ => ⟨b, ⟨hb, hused⟩, hp⟩⟩
  distinct := h.distinct
  room := by
    intro q hq
    obtain ⟨b, hb, haddr, hfits⟩ := h.room q hq
    exact ⟨b, hb.1, hb.2, haddr, hfits⟩
  quiet := by
    intro ev hok hcall b hb hused hstays
    cases ev with
    | alloc n => exact (h.alloc hok).2 b ⟨hb, hused⟩
    | free p =>
      refine (h.free hok).2 b ⟨hb, hused⟩ ?_
      exact (mem_ptrs_filter.1 hstays).2
    | store a v => exact absurd rfl (hcall a v)

/-- The invariant along a run. -/
theorem kept_of_run (m : Bytes) {evs : List Event}
    (hmeets : Run.Meets exec Allowed (start m) evs) :
    ∃ bs, Kept (Run.run exec (start m) evs) bs := by
  refine Run.Meets.invariant (I := fun t => ∃ bs, Kept t bs) ?_ hmeets ⟨_, start_kept m⟩
  rintro t ev ⟨bs, h⟩ hok
  exact h.exec hok

/-- **The kernel heap.**  After `heap_init` and any allocations and frees the heap is
in order. -/
theorem inOrder_of_run (m : Bytes) {evs : List Event}
    (hmeets : Run.Meets exec Allowed (start m) evs) :
    ∃ bs, InOrder (Run.run exec (start m) evs) bs := by
  obtain ⟨bs, h⟩ := kept_of_run m hmeets
  exact ⟨bs, h.inOrder⟩

/-- Three allocations, the middle one freed and its place taken in part. -/
def shortRun : List Event :=
  [.alloc 100, .alloc 200, .alloc 16, .store (heapStart + 24) 7, .free (heapStart + 152), .alloc 10]

theorem inOrder_of_run_short :
    (Run.run exec (start zeros) shortRun).ptrs =
        [heapStart + 152, heapStart + 376, heapStart + 24] ∧
      ∃ bs, InOrder (Run.run exec (start zeros) shortRun) bs :=
  ⟨by decide +kernel, inOrder_of_run zeros (by decide +kernel)⟩

/-- **Nothing is lost to fragments.**  When all that was allocated is freed again, in any order,
the heap is one free block, as after `heap_init`. -/
theorem whole_of_run (m : Bytes) {evs : List Event}
    (hmeets : Run.Meets exec Allowed (start m) evs)
    (hfreed : (Run.run exec (start m) evs).live = []) :
    header (Run.run exec (start m) evs).mem heapStart = ⟨magicFree, heapSize, 0, 0⟩ := by
  obtain ⟨bs, h⟩ := kept_of_run m hmeets
  have hfree : ∀ b ∈ bs, b.tag = magicFree := by
    intro b hb
    refine (h.magic b hb).resolve_right fun hused => ?_
    have hlive := (h.used _).2 ⟨b, ⟨hb, hused⟩, rfl⟩
    simp [ptrs, hfreed] at hlive
  match bs, h with
  | [], h => exact absurd (show heapStart = heapEnd from h.tiles) (by decide)
  | [b], h =>
    obtain ⟨haddr, hend⟩ := h.tiles
    have hlinked := h.linked.1
    rwa [haddr, hfree b mem_cons_self, Nat.add_left_cancel hend] at hlinked
  -- two neighbours would both be free
  | b :: c :: _, h =>
    exact absurd ⟨hfree b (by simp), hfree c (by simp)⟩ (isChain_cons_cons.1 h.coalesced).1

theorem whole_of_run_crossed :
    header (Run.run exec (start zeros) [.alloc 100, .alloc 200, .free (heapStart + 24),
      .free (heapStart + 152)]).mem heapStart = ⟨magicFree, heapSize, 0, 0⟩ :=
  whole_of_run zeros (by decide +kernel) (by decide +kernel)

/-- **`kmalloc` gives up only without room**: when no free block in the list is large enough. -/
theorem null_of_run (m : Bytes) {evs : List Event}
    (hmeets : Run.Meets exec Allowed (start m) evs) :
    ∃ bs, InOrder (Run.run exec (start m) evs) bs ∧
      ∀ n, (kmalloc (Run.run exec (start m) evs).mem n).1 = 0 ↔
        n = 0 ∨ ∀ b ∈ bs, b.tag = magicFree → b.size < totalSize n := by
  obtain ⟨bs, h⟩ := kept_of_run m hmeets
  exact ⟨bs, h.inOrder, h.kmalloc_eq_zero_iff⟩

theorem null_of_run_short :
    ∃ bs, InOrder (Run.run exec (start zeros) shortRun) bs ∧
      ∀ n, (kmalloc (Run.run exec (start zeros) shortRun).mem n).1 = 0 ↔
        n = 0 ∨ ∀ b ∈ bs, b.tag = magicFree → b.size < totalSize n :=
  null_of_run zeros (by decide +kernel)

end Trace

/-- **Freeing undoes allocating.**  The list has the blocks it had, their headers are
the same, and to free the pointer again changes nothing. -/
theorem kfree_kmalloc {m : Bytes} {bs : List (Block UInt32)} (h : Valid m bs) {n : Nat}
    (hn : n < 4294967296) (hp : (kmalloc m n).1 ≠ 0) :
    let m' := kfree (kmalloc m n).2 (kmalloc m n).1
    Valid m' bs ∧ (∀ b ∈ bs, header m' b.addr = header m b.addr) ∧
      kfree m' (kmalloc m n).1 = m' := by
  have htotal := totalSize_le hn
  rcases h.kmalloc_cases n with ⟨hnone, _⟩ | ⟨pre, b, post, rfl, hb, hcall⟩
  · rw [hnone] at hp
    exact absurd rfl hp
  have hlaid := h.laid_kfree_kmalloc (by omega) hb
  rw [hcall]
  intro m'
  refine ⟨⟨hlaid, h.coalesced⟩, fun c hc => ?_, ?_⟩
  · obtain ⟨before, behind, hsplit⟩ := append_of_mem hc
    rw [hsplit] at hlaid h
    rw [hlaid.header_eq, h.header_eq]
  · have htag : (header m' b.addr).tag ≠ magicUsed := by
      rw [hlaid.header_eq, hb.1]
      exact magicUsed_ne_free.symm
    rw [kfree, if_neg (by omega), Nat.add_sub_cancel, if_pos htag]

theorem kfree_kmalloc_init :
    (kmalloc (heapInit zeros) 100).1 = heapStart + 24 ∧
      Valid (kfree (kmalloc (heapInit zeros) 100).2 (kmalloc (heapInit zeros) 100).1)
        [⟨heapStart, heapSize, magicFree⟩] :=
  ⟨by decide +kernel,
    (kfree_kmalloc (Trace.start_kept zeros).toValid (by decide) (by decide +kernel)).1⟩

end Heap
