import LufiraOS.Heap.Core

/-!
# Cutting and merging blocks

What `split_block` and `merge_blocks` do to the list of blocks: the first puts a
free block behind the one it cuts, the second lets a block absorb its free
neighbours.  Both write into headers only.
-/

namespace Heap

open ByteStore Blocks

section

variable {m : Bytes} {a c v : Nat} {h : Header UInt32} {x next size block : Nat}

/-! ## Groups of writes -/

/-- All four fields of a header. -/
def putHeader (m : Bytes) (a : Nat) (h : Header UInt32) : Bytes :=
  setPrev (setNext (setSize (setMagic m a h.tag) a h.size) a h.next) a h.prev

/-- `if (next) next->prev = v`. -/
def relink (m : Bytes) (next v : Nat) : Bytes := if next ≠ 0 then setPrev m next v else m

/-- The block at `a` grows to `size` and is followed by `next`. -/
def extend (m : Bytes) (a size next : Nat) : Bytes :=
  relink (setNext (setSize m a size) a next) next a

theorem putHeader_outside (hx : x < a ∨ a + 24 ≤ x) : putHeader m a h x = m x := by
  rw [putHeader, setPrev_outside hx, setNext_outside hx, setSize_outside hx, setMagic_outside hx]

theorem header_putHeader (hsize : h.size < 4294967296)
    (hnext : h.next < 18446744073709551616) (hprev : h.prev < 18446744073709551616) :
    header (putHeader m a h) a = h := by
  rw [putHeader, header_setPrev hprev, header_setNext hnext, header_setSize hsize, header_setMagic]

theorem header_putHeader_apart (hap : Apart a c) :
    header (putHeader m a h) c = header m c :=
  header_apart (fun _ => putHeader_outside) hap

theorem relink_outside (hx : next ≠ 0 → x < next ∨ next + 24 ≤ x) : relink m next v x = m x := by
  unfold relink
  split
  · next hne => exact setPrev_outside (hx hne)
  · rfl

theorem header_relink_apart (hap : next ≠ 0 → Apart next c) :
    header (relink m next v) c = header m c := by
  unfold relink
  split
  · next hne => exact header_setPrev_apart (hap hne)
  · rfl

theorem header_relink (hne : next ≠ 0) (hv : v < 18446744073709551616) :
    header (relink m next v) next = { header m next with prev := v } := by
  rw [relink, if_pos hne, header_setPrev hv]

theorem extend_outside (ha : x < a ∨ a + 24 ≤ x)
    (hx : next ≠ 0 → x < next ∨ next + 24 ≤ x) : extend m a size next x = m x := by
  rw [extend, relink_outside hx, setNext_outside ha, setSize_outside ha]

theorem header_extend (hsize : size < 4294967296)
    (hnext : next < 18446744073709551616) (hap : next ≠ 0 → Apart next a) :
    header (extend m a size next) a = ⟨(header m a).tag, size, next, (header m a).prev⟩ := by
  rw [extend, header_relink_apart hap, header_setNext hnext, header_setSize hsize]

theorem header_extend_next (hne : next ≠ 0) (ha : a < 18446744073709551616) (hap : Apart a next) :
    header (extend m a size next) next = { header m next with prev := a } := by
  rw [extend, header_relink hne ha, header_setNext_apart hap, header_setSize_apart hap]

theorem header_extend_apart (ha : Apart a c) (hap : next ≠ 0 → Apart next c) :
    header (extend m a size next) c = header m c := by
  rw [extend, header_relink_apart hap, header_setNext_apart ha, header_setSize_apart ha]

/-! ## The functions in terms of them -/

theorem splitBlock_eq (hap : Apart (block + size) block)
    (hfit : size + 24 + 32 ≤ (header m block).size) :
    splitBlock m block size = setSize (setNext (relink (putHeader m (block + size)
      ⟨magicFree, (header m block).size - size, (header m block).next, block⟩)
        (header m block).next (block + size)) block (block + size)) block size := by
  simp only [splitBlock, if_pos hfit, header_setMagic_apart hap, header_setSize_apart hap,
    header_setNext_apart hap, header_setPrev_apart hap]
  rfl

theorem mergeNext_eq (hne : (header m block).next ≠ 0)
    (hfree : (header m (header m block).next).tag = magicFree)
    (hap : Apart block (header m block).next)
    (hsize : (header m block).size + (header m (header m block).next).size < 4294967296)
    (hnext : (header m (header m block).next).next < 18446744073709551616) :
    mergeNext m block = extend m block
      ((header m block).size + (header m (header m block).next).size)
      (header m (header m block).next).next := by
  simp only [mergeNext, if_pos (And.intro hne hfree), header_setNext hnext, header_setSize hsize,
    header_setSize_apart hap]
  rfl

theorem mergePrev_eq (hne : (header m block).prev ≠ 0)
    (hfree : (header m (header m block).prev).tag = magicFree)
    (hap : Apart (header m block).prev block) :
    mergePrev m block = extend m (header m block).prev
      ((header m (header m block).prev).size + (header m block).size) (header m block).next := by
  simp only [mergePrev, if_pos (And.intro hne hfree), header_setNext_apart hap,
    header_setSize_apart hap]
  rfl

end

/-! ## The list of blocks -/

/-- The list of blocks in the memory of the heap. -/
structure Laid (m : Bytes) (bs : List (Block UInt32)) : Prop where
  tiles : Tiles heapStart bs heapEnd
  linked : Linked (header m) 0 bs 0
  roomy : ∀ b ∈ bs, 24 ≤ b.size
  magic : ∀ b ∈ bs, b.tag = magicFree ∨ b.tag = magicUsed

namespace Laid

variable {m m' : Bytes} {bs pre post : List (Block UInt32)} {b c : Block UInt32}

theorem bounds (h : Laid m bs) (hb : b ∈ bs) :
    heapStart ≤ b.addr ∧ b.addr + b.size ≤ heapEnd ∧ 24 ≤ b.size := by
  obtain ⟨hlo, hhi⟩ := h.tiles.bounds hb
  exact ⟨hlo, hhi, h.roomy b hb⟩

/-- Addresses are pointers other than `NULL`, and sizes fit into 32 bits. -/
theorem fits (h : Laid m bs) (hb : b ∈ bs) :
    b.addr ≠ 0 ∧ b.addr + b.size < 18446744073709551616 ∧ b.size < 4294967296 := by
  obtain ⟨hlo, hhi, _⟩ := h.bounds hb
  unfold heapEnd at hhi
  unfold heapStart at hlo hhi
  unfold heapSize at hhi
  omega

theorem apart_before (h : Laid m (pre ++ b :: post)) (hc : c ∈ pre) : Apart b.addr c.addr := by
  have hle := h.tiles.before hc
  have hroom := h.roomy c (List.mem_append_left _ hc)
  exact .inr (by omega)

theorem apart_behind (h : Laid m (pre ++ b :: post)) (hc : c ∈ post) : Apart b.addr c.addr := by
  have hle := h.tiles.behind hc
  have hroom := h.roomy b (by simp)
  exact .inl (by omega)

/-- Blocks are told apart by their addresses. -/
theorem addr_ne (h : Laid m (pre ++ b :: post)) (hc : c ∈ pre ++ post) : c.addr ≠ b.addr := by
  rcases List.mem_append.1 hc with hc | hc
  · have hap := h.apart_before hc
    unfold Apart at hap
    omega
  · have hap := h.apart_behind hc
    unfold Apart at hap
    omega

/-- The header of a block, as the list has it. -/
theorem header_eq (h : Laid m (pre ++ b :: post)) :
    header m b.addr = ⟨b.tag, b.size, first post 0, last 0 pre⟩ :=
  h.linked.header

/-- What follows a block is `NULL` or one of the blocks behind it. -/
theorem first_cases (post : List (Block UInt32)) :
    first post 0 = 0 ∨ ∃ c rest, post = c :: rest ∧ first post 0 = c.addr := by
  cases post with
  | nil => exact .inl rfl
  | cons c rest => exact .inr ⟨c, rest, rfl, rfl⟩

section

variable (h : Laid m (pre ++ b :: post))

include h

theorem first_lt : first post 0 < 18446744073709551616 := by
  rcases first_cases post with hz | ⟨c, rest, rfl, hc⟩
  · omega
  · have hfits := h.fits (b := c) (by simp)
    omega

/-- The next block begins where this one ends, or later. -/
theorem first_ge (hne : first post 0 ≠ 0) : b.addr + b.size ≤ first post 0 := by
  rcases first_cases post with hz | ⟨c, rest, rfl, hc⟩
  · exact absurd hz hne
  · rw [hc]
    exact h.tiles.behind (by simp)

theorem first_apart_before (hc : c ∈ pre)
    (hne : first post 0 ≠ 0) : Apart (first post 0) c.addr := by
  have hge := h.first_ge hne
  have hle := h.tiles.before hc
  have hroom := h.roomy c (List.mem_append_left _ hc)
  exact .inr (by omega)

theorem first_apart_behind {rest : List (Block UInt32)}
    (hpost : post = c :: rest) {d : Block UInt32} (hd : d ∈ rest) :
    Apart (first post 0) d.addr := by
  subst hpost
  have h' : Laid m ((pre ++ [b]) ++ c :: rest) := by simpa using h
  exact h'.apart_behind hd

end

/-- Blocks of a list in which some blocks have been replaced. -/
theorem forall_mem_replace {P : Block UInt32 → Prop} (mid mid' : List (Block UInt32))
    (h : ∀ c ∈ pre ++ mid ++ post, P c) (hmid : ∀ c ∈ mid', P c) :
    ∀ c ∈ pre ++ mid' ++ post, P c := by
  intro c hc
  simp only [List.mem_append] at h hc
  rcases hc with (hc | hc) | hc
  · exact h c (.inl (.inl hc))
  · exact hmid c hc
  · exact h c (.inr hc)

/-- The header of one block gets another tag. -/
theorem setMagic (h : Laid m (pre ++ b :: post)) {v : UInt32} (hv : v = magicFree ∨ v = magicUsed) :
    Laid (setMagic m b.addr v) (pre ++ ⟨b.addr, b.size, v⟩ :: post) where
  tiles := h.tiles.retag v
  linked := h.linked.retag v (header_setMagic v)
    (fun _ hc => header_setMagic_apart (h.apart_before hc))
    (fun _ hc => header_setMagic_apart (h.apart_behind hc))
  roomy := by
    have hroom := h.roomy b (by simp)
    simpa using forall_mem_replace [b] [⟨b.addr, b.size, v⟩]
      (by simpa using h.roomy) (by simpa using hroom)
  magic := by
    simpa using forall_mem_replace [b] [⟨b.addr, b.size, v⟩]
      (by simpa using h.magic) (by simpa using hv)

/-- **`split_block`** on a block that is large enough. -/
theorem splitBlock (h : Laid m (pre ++ b :: post)) {size : Nat} (hsize : 24 ≤ size)
    (hfit : size + 24 + 32 ≤ b.size) :
    Laid (splitBlock m b.addr size)
      (pre ++ ⟨b.addr, size, b.tag⟩ :: ⟨b.addr + size, b.size - size, magicFree⟩ :: post) := by
  have hb := h.header_eq
  obtain ⟨hne, haddr, hsmall⟩ := h.fits (b := b) (by simp)
  have hap : Apart (b.addr + size) b.addr := .inr (by omega)
  have hnext := h.first_lt
  have heq := splitBlock_eq (m := m) hap (by rw [hb]; exact hfit)
  rw [hb] at heq
  simp only at heq
  -- the next block is apart from the two parts
  have hnextB : first post 0 ≠ 0 → Apart (first post 0) b.addr := fun hz => by
    have hge := h.first_ge hz
    exact .inr (by omega)
  have hnextNew : first post 0 ≠ 0 → Apart (first post 0) (b.addr + size) := fun hz => by
    have hge := h.first_ge hz
    exact .inr (by omega)
  -- and so is the new block from all the others
  have hnewPre : ∀ c ∈ pre, Apart (b.addr + size) c.addr := fun c hc => by
    have hle := h.tiles.before hc
    have hroom := h.roomy c (List.mem_append_left _ hc)
    exact .inr (by omega)
  have hnewPost : ∀ c ∈ post, Apart (b.addr + size) c.addr := fun c hc => by
    have hle := h.tiles.behind hc
    exact .inl (by omega)
  refine ⟨h.tiles.cut (by omega) _ _, ?_, ?_, ?_⟩
  · rw [heq]
    refine h.linked.cut rfl ?_ ?_ ?_ ?_ ?_
    · rw [header_setSize (by omega), header_setNext (by omega), header_relink_apart hnextB,
        header_putHeader_apart hap, hb]
    · rw [header_setSize_apart hap.symm, header_setNext_apart hap.symm,
        header_relink_apart hnextNew, header_putHeader (by simp; omega) hnext (by simp; omega)]
    · intro c hc
      have hbc := h.apart_before hc
      rw [header_setSize_apart hbc, header_setNext_apart hbc,
        header_relink_apart (h.first_apart_before hc), header_putHeader_apart (hnewPre c hc)]
    · rintro c rest rfl
      have hbc := h.apart_behind (c := c) (by simp)
      have hc0 := (h.fits (b := c) (by simp)).1
      rw [header_setSize_apart hbc, header_setNext_apart hbc]
      simp only [first]
      rw [header_relink hc0 (by omega), header_putHeader_apart (hnewPost c (by simp))]
    rintro c rest hpost d hd
    have hmem : d ∈ post := by simp [hpost, hd]
    have hbd := h.apart_behind hmem
    rw [header_setSize_apart hbd, header_setNext_apart hbd,
      header_relink_apart fun _ => h.first_apart_behind hpost hd,
      header_putHeader_apart (hnewPost d hmem)]
  · simpa using forall_mem_replace [b]
      [⟨b.addr, size, b.tag⟩, ⟨b.addr + size, b.size - size, magicFree⟩]
      (by simpa using h.roomy) (by simp; omega)
  · have hmagic := h.magic b (by simp)
    simpa using forall_mem_replace [b]
      [⟨b.addr, size, b.tag⟩, ⟨b.addr + size, b.size - size, magicFree⟩]
      (by simpa using h.magic) (by simpa using hmagic)

/-- A block absorbs the one behind it. -/
theorem extend (h : Laid m (pre ++ b :: c :: post)) :
    Laid (extend m b.addr (b.size + c.size) (first post 0))
      (pre ++ ⟨b.addr, b.size + c.size, b.tag⟩ :: post) := by
  have hb := h.header_eq
  have h' : Laid m ((pre ++ [b]) ++ c :: post) := by simpa using h
  obtain ⟨hne, haddr, hsmall⟩ := h.fits (b := b) (by simp)
  obtain ⟨_, hcaddr, _⟩ := h.fits (b := c) (by simp)
  have hbc := h.tiles.behind (c := c) (by simp)
  have htotal : b.size + c.size < 4294967296 := by
    obtain ⟨hlo, _⟩ := h.bounds (b := b) (by simp)
    obtain ⟨_, hhi, _⟩ := h.bounds (b := c) (by simp)
    unfold heapEnd heapSize at hhi
    omega
  have hroom := h.roomy b (by simp)
  refine ⟨h.tiles.absorb b.tag, ?_, ?_, ?_⟩
  · refine h.linked.absorb rfl ?_ ?_ ?_ ?_
    · rw [header_extend htotal h'.first_lt fun hz => h'.first_apart_before (by simp) hz, hb]
    · intro d hd
      exact header_extend_apart (h.apart_before hd) fun hz => h'.first_apart_before
        (by simp [hd]) hz
    · rintro d rest rfl
      exact header_extend_next (h.fits (b := d) (by simp)).1 (by omega) (h.apart_behind (by simp))
    rintro d rest hpost e he
    exact header_extend_apart (h.apart_behind (by simp [hpost, he]))
      fun _ => h'.first_apart_behind hpost he
  · simpa using forall_mem_replace [b, c] [⟨b.addr, b.size + c.size, b.tag⟩]
      (by simpa using h.roomy) (by simp; omega)
  · have hmagic := h.magic b (by simp)
    simpa using forall_mem_replace [b, c] [⟨b.addr, b.size + c.size, b.tag⟩]
      (by simpa using h.magic) (by simpa using hmagic)

end Laid

end Heap
