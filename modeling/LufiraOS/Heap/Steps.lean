import LufiraOS.Heap.Edits

/-!
# Allocating and freeing

What `kmalloc` and `kfree` do to a heap in which no two neighbouring blocks are
free: the first turns the first free block that is large enough into a used one,
the second turns a used block into a free one and merges it with its free
neighbours.  Neither writes into the payload of another used block.
-/

namespace Heap

open ByteStore Blocks List Heap

/-- The two blocks are not both free. -/
def NotBothFree (b c : Block UInt32) : Prop := ¬ (b.tag = magicFree ∧ c.tag = magicFree)

/-- A heap between two calls. -/
structure Valid (m : Bytes) (bs : List (Block UInt32)) : Prop extends Laid m bs where
  coalesced : bs.IsChain NotBothFree

/-- The payload of the block is the same in both memories. -/
def SamePayload (m m' : Bytes) (b : Block UInt32) : Prop :=
  ∀ x, b.addr + 24 ≤ x → x < b.addr + b.size → m' x = m x

theorem SamePayload.trans {m m' m'' : Bytes} {b : Block UInt32} (h : SamePayload m m' b)
    (h' : SamePayload m' m'' b) : SamePayload m m'' b := fun x hlo hhi =>
  (h' x hlo hhi).trans (h x hlo hhi)

theorem magicUsed_ne_free : magicUsed ≠ magicFree := by decide

section

variable {m m' : Bytes} {bs pre post : List (Block UInt32)} {b c d : Block UInt32}

/-! ## Payloads -/

/-- No header lies in a payload. -/
theorem Laid.clear (h : Laid m bs) (hd : d ∈ bs) (hc : c ∈ bs) {x : Nat} (hlo : d.addr + 24 ≤ x)
    (hhi : x < d.addr + d.size) : x < c.addr ∨ c.addr + 24 ≤ x := by
  obtain ⟨pre, post, rfl⟩ := append_of_mem hc
  rcases mem_append.1 hd with hpre | hrest
  · have hle := h.tiles.before hpre
    omega
  rcases mem_cons.1 hrest with rfl | hpost
  · omega
  · have hle := h.tiles.behind hpost
    omega

/-- Writing the header of a block changes no payload. -/
theorem Laid.samePayload (h : Laid m bs) (hd : d ∈ bs) (hc : c ∈ bs)
    (hout : ∀ x, x < c.addr ∨ c.addr + 24 ≤ x → m' x = m x) : SamePayload m m' d :=
  fun _ hlo hhi => hout _ (h.clear hd hc hlo hhi)

theorem Laid.samePayload_extend (h : Laid m (pre ++ b :: c :: post)) {size : Nat}
    (hd : d ∈ pre ++ b :: c :: post) :
    SamePayload m (Heap.extend m b.addr size (first post 0)) d := by
  intro x hlo hhi
  refine extend_outside (h.clear hd (by simp) hlo hhi) fun hne => ?_
  rcases Laid.first_cases post with hz | ⟨e, rest, rfl, he⟩
  · exact absurd hz hne
  · rw [he]
    exact h.clear hd (by simp) hlo hhi

/-! ## Searching -/

/-- The block is free and has room for `size` bytes. -/
def Suits (size : Nat) (b : Block UInt32) : Prop := b.tag = magicFree ∧ size ≤ b.size

/-- **`find_free_block`** finds the first block that suits. -/
theorem findFreeBlock_spec (size : Nat) {p : Nat} (h : Linked (header m) p bs 0)
    (hne : ∀ b ∈ bs, b.addr ≠ 0) {fuel : Nat} (hfuel : bs.length ≤ fuel) :
    (findFreeBlock m size fuel (first bs 0) = 0 ∧ ∀ b ∈ bs, ¬ Suits size b) ∨
      ∃ pre b post, bs = pre ++ b :: post ∧ (∀ c ∈ pre, ¬ Suits size c) ∧ Suits size b ∧
        findFreeBlock m size fuel (first bs 0) = b.addr := by
  induction bs generalizing p fuel with
  | nil =>
    refine .inl ⟨?_, by simp⟩
    cases fuel with
    | zero => rfl
    | succ fuel => simp [findFreeBlock, first]
  | cons b bs ih =>
    obtain ⟨hb, hrest⟩ := h
    cases fuel with
    | zero => simp at hfuel
    | succ fuel =>
      have hstep : findFreeBlock m size (fuel + 1) b.addr =
          if b.tag = magicFree ∧ size ≤ b.size then b.addr
          else findFreeBlock m size fuel (first bs 0) := by
        rw [findFreeBlock, if_neg (hne b (by simp)), hb]
      simp only [first, hstep]
      by_cases hsuits : b.tag = magicFree ∧ size ≤ b.size
      · rw [if_pos hsuits]
        exact .inr ⟨[], b, bs, rfl, by simp, hsuits, rfl⟩
      rw [if_neg hsuits]
      rcases ih hrest (fun c hc => hne c (by simp [hc])) (by simpa using hfuel) with
        ⟨hnone, hall⟩ | ⟨pre, c, post, rfl, hpre, hc, hfound⟩
      · exact .inl ⟨hnone, by simpa using ⟨hsuits, hall⟩⟩
      · exact .inr ⟨b :: pre, c, post, rfl, by simpa using ⟨hsuits, hpre⟩, hc, hfound⟩

theorem Laid.length_le (h : Laid m bs) : bs.length ≤ heapSize := by
  have hcount : ∀ {lo : Nat} {bs : List (Block UInt32)}, Tiles lo bs heapEnd →
      (∀ b ∈ bs, 24 ≤ b.size) → lo + bs.length ≤ heapEnd := by
    intro lo bs
    induction bs generalizing lo with
    | nil =>
      intro ht _
      exact Nat.le_of_eq ht
    | cons b bs ih =>
      intro ht hroom
      have hrest := ih ht.2 fun c hc => hroom c (by simp [hc])
      have hb := hroom b (by simp)
      simp only [length_cons]
      omega
  have hall := hcount h.tiles h.roomy
  unfold heapEnd at hall
  omega

theorem Laid.first_eq (h : Laid m bs) : first bs 0 = heapStart := by
  cases bs with
  | nil => exact absurd (show heapStart = heapEnd from h.tiles) (by decide)
  | cons b bs => exact h.tiles.1

/-! ## Allocating -/

theorem totalSize_le {n : Nat} (hn : n < 4294967296) : n + 24 ≤ totalSize n := by
  unfold totalSize
  omega

/-- The used blocks of the list. -/
def usedBlocks (bs : List (Block UInt32)) : Set (Block UInt32) :=
  { b | b ∈ bs ∧ b.tag = magicUsed }

theorem mem_usedBlocks : d ∈ usedBlocks bs ↔ d ∈ bs ∧ d.tag = magicUsed := Iff.rfl

/-- The memory outside the block that `split_block` cuts, apart from the header of
the next block, stays. -/
theorem Laid.samePayload_split (h : Laid m (pre ++ b :: post)) {size : Nat} (hsize : 24 ≤ size)
    (hfit : size + 24 + 32 ≤ b.size) (hd : d ∈ pre ++ post) :
    SamePayload m (Heap.splitBlock m b.addr size) d := by
  have hb := h.header_eq
  have hap : Apart (b.addr + size) b.addr := .inr (by omega)
  have heq := splitBlock_eq (m := m) hap (by rw [hb]; exact hfit)
  rw [hb] at heq
  intro x hlo hhi
  have hout : x < b.addr ∨ b.addr + b.size ≤ x := by
    rcases mem_append.1 hd with hpre | hpost
    · have hle := h.tiles.before hpre
      omega
    · have hle := h.tiles.behind hpost
      omega
  have hnext : first post 0 ≠ 0 → x < first post 0 ∨ first post 0 + 24 ≤ x := fun hne => by
    rcases Laid.first_cases post with hz | ⟨c, rest, rfl, hc⟩
    · exact absurd hz hne
    · rw [hc]
      exact h.clear (d := d) (by simp at hd ⊢; tauto) (by simp) hlo hhi
  rw [heq, setSize_outside (by omega), setNext_outside (by omega), relink_outside hnext,
    putHeader_outside (by omega)]

/-- `split_block` leaves the block with the size asked for and a free one behind it,
or as it was. -/
theorem Laid.split (h : Laid m (pre ++ b :: post)) {size : Nat} (hsize : 24 ≤ size)
    (hroom : size ≤ b.size) :
    ∃ s mid, size ≤ s ∧ (∀ c ∈ mid, c.tag = magicFree) ∧ mid.length ≤ 1 ∧
      Laid (Heap.splitBlock m b.addr size) (pre ++ ⟨b.addr, s, b.tag⟩ :: (mid ++ post)) ∧
      ∀ d ∈ pre ++ post, SamePayload m (Heap.splitBlock m b.addr size) d := by
  by_cases hfit : size + 24 + 32 ≤ b.size
  · exact ⟨size, [⟨b.addr + size, b.size - size, magicFree⟩], le_refl _, by simp, by simp,
      h.splitBlock hsize hfit, fun d hd => h.samePayload_split hsize hfit hd⟩
  have hsame : Heap.splitBlock m b.addr size = m := by
    rw [Heap.splitBlock, h.header_eq, if_neg hfit]
  rw [hsame]
  exact ⟨b.size, [], hroom, by simp, by simp, h, fun _ _ _ _ _ => rfl⟩

/-- A free block becomes a used one, with perhaps a free one behind it. -/
theorem coalesced_take {new : Block UInt32} {mid : List (Block UInt32)}
    (h : (pre ++ b :: post).IsChain NotBothFree) (hb : b.tag = magicFree)
    (hnew : new.tag = magicUsed) (hmid : ∀ c ∈ mid, c.tag = magicFree) (hone : mid.length ≤ 1) :
    (pre ++ new :: (mid ++ post)).IsChain NotBothFree := by
  obtain ⟨hpre, hrest, _⟩ := isChain_append.1 h
  have hused : ∀ c, NotBothFree c new ∧ NotBothFree new c := fun c =>
    ⟨fun hboth => magicUsed_ne_free (hnew.symm.trans hboth.2),
      fun hboth => magicUsed_ne_free (hnew.symm.trans hboth.1)⟩
  have hpost : (mid ++ post).IsChain NotBothFree := by
    rcases mid with _ | ⟨f, _ | ⟨g, rest⟩⟩
    · exact hrest.tail
    · -- the free rest has the neighbour of the free block it was cut from
      cases post with
      | nil => exact isChain_singleton f
      | cons c post =>
        obtain ⟨hbc, htail⟩ := isChain_cons_cons.1 hrest
        exact isChain_cons_cons.2 ⟨fun hboth => hbc ⟨hb, hboth.2⟩, htail⟩
    · simp at hone
  refine isChain_append.2 ⟨hpre, ?_, fun c _ d hd => ?_⟩
  · exact isChain_cons.2 ⟨fun c _ => (hused c).2, hpost⟩
  simp only [head?_cons, Option.mem_def, Option.some.injEq] at hd
  rw [← hd]
  exact (hused c).1

theorem usedBlocks_append : usedBlocks (pre ++ post) = usedBlocks pre ∪ usedBlocks post := by
  ext d
  simp only [Set.mem_union, mem_usedBlocks, mem_append, or_and_right]

/-- Free blocks do not count. -/
theorem usedBlocks_free (h : ∀ c ∈ bs, c.tag = magicFree) : usedBlocks bs = ∅ :=
  Set.eq_empty_of_forall_notMem fun d hd => magicUsed_ne_free (hd.2.symm.trans (h d hd.1))

theorem usedBlocks_cons (b : Block UInt32) (bs : List (Block UInt32)) :
    usedBlocks (b :: bs) = usedBlocks [b] ∪ usedBlocks bs := by
  rw [← usedBlocks_append, singleton_append]

theorem usedBlocks_freed (h : b.tag = magicFree) : usedBlocks [b] = ∅ :=
  usedBlocks_free (by simpa using h)

theorem usedBlocks_used (h : b.tag = magicUsed) : usedBlocks [b] = {b} := by
  ext d
  simp only [mem_usedBlocks, mem_singleton, Set.mem_singleton_iff]
  exact ⟨fun hd => hd.1, fun hd => ⟨hd, hd ▸ h⟩⟩

theorem usedBlocks_take {new : Block UInt32} {mid : List (Block UInt32)} (hb : b.tag = magicFree)
    (hnew : new.tag = magicUsed) (hmid : ∀ c ∈ mid, c.tag = magicFree) :
    usedBlocks (pre ++ new :: (mid ++ post)) = insert new (usedBlocks (pre ++ b :: post)) := by
  simp only [usedBlocks_append, usedBlocks_cons, usedBlocks_free hmid, usedBlocks_used hnew,
    usedBlocks_freed hb, Set.empty_union]
  rw [← Set.union_assoc, Set.union_comm _ {new}, Set.union_assoc, Set.singleton_union]

/-- `kmalloc` fails, or takes a block that suits. -/
theorem Valid.kmalloc_cases (h : Valid m bs) (n : Nat) :
    (Heap.kmalloc m n = (0, m) ∧ (n = 0 ∨ ∀ b ∈ bs, ¬ Suits (totalSize n) b)) ∨
      ∃ pre b post, bs = pre ++ b :: post ∧ Suits (totalSize n) b ∧
        Heap.kmalloc m n = (b.addr + 24,
          Heap.setMagic (Heap.splitBlock m b.addr (totalSize n)) b.addr magicUsed) := by
  by_cases hn0 : n = 0
  · exact .inl ⟨by simp [Heap.kmalloc, hn0], .inl hn0⟩
  have hstart := h.first_eq
  rcases findFreeBlock_spec (totalSize n) h.linked (fun b hb => (h.fits hb).1) h.length_le with
    ⟨hnone, hall⟩ | ⟨pre, b, post, rfl, _, hsuits, hfound⟩
  · rw [hstart] at hnone
    exact .inl ⟨by simp only [Heap.kmalloc, hn0, if_false, hnone], .inr hall⟩
  rw [hstart] at hfound
  have hb0 := (h.fits (b := b) (by simp)).1
  exact .inr ⟨pre, b, post, rfl, hsuits, by simp only [Heap.kmalloc, hn0, if_false, hfound]⟩

/-- `kmalloc` gives up when no free block is large enough. -/
theorem Valid.kmalloc_eq_zero_iff (h : Valid m bs) (n : Nat) : (Heap.kmalloc m n).1 = 0 ↔
    n = 0 ∨ ∀ b ∈ bs, b.tag = magicFree → b.size < totalSize n := by
  rcases h.kmalloc_cases n with ⟨hnull, hno⟩ | ⟨pre, b, post, rfl, ⟨hfree, hroom⟩, hcall⟩
  · rw [hnull]
    refine iff_of_true rfl (hno.imp_right fun hno b hb hfree => ?_)
    exact Nat.lt_of_not_le fun hroom => hno b hb ⟨hfree, hroom⟩
  · have hptr := congrArg Prod.fst hcall
    refine iff_of_false (hptr ▸ Nat.succ_ne_zero _) ?_
    rintro (rfl | hno)
    · exact Nat.succ_ne_zero _ hptr.symm
    · exact Nat.not_lt.2 hroom (hno b (by simp) hfree)

/-- **`kmalloc`** changes nothing, or turns one free block into a used one. -/
theorem Valid.kmalloc (h : Valid m bs) {n : Nat} (hn : n < 4294967296) :
    (Heap.kmalloc m n = (0, m) ∧ (n = 0 ∨ ∀ b ∈ bs, ¬ Suits (totalSize n) b)) ∨
      ∃ bs' new, Valid (Heap.kmalloc m n).2 bs' ∧ (Heap.kmalloc m n).1 = new.addr + 24 ∧
        n + 24 ≤ new.size ∧ usedBlocks bs' = insert new (usedBlocks bs) ∧
        ∀ d ∈ usedBlocks bs, d.addr ≠ new.addr ∧ SamePayload m (Heap.kmalloc m n).2 d := by
  have htotal := totalSize_le hn
  rcases h.kmalloc_cases n with hnone | ⟨pre, b, post, rfl, ⟨hfree, hroom⟩, hcall⟩
  · exact .inl hnone
  · have hb0 := (h.fits (b := b) (by simp)).1
    have hheader : 24 ≤ totalSize n := by omega
    obtain ⟨s, mid, hs, hmid, hone, hlaid, hkept⟩ := h.toLaid.split hheader hroom
    rw [hcall]
    refine .inr ⟨_, ⟨b.addr, s, magicUsed⟩, ⟨hlaid.setMagic (.inr rfl), ?_⟩, rfl, ?_, ?_, ?_⟩
    · exact coalesced_take h.coalesced hfree rfl hmid hone
    · show n + 24 ≤ s
      omega
    · exact usedBlocks_take hfree rfl hmid
    rintro d ⟨hd, hused⟩
    have hother : d ∈ pre ++ post := by
      simp only [mem_append, mem_cons] at hd ⊢
      rcases hd with hpre | rfl | hpost
      · exact .inl hpre
      · exact absurd (hused.symm.trans hfree) magicUsed_ne_free
      · exact .inr hpost
    refine ⟨h.addr_ne hother, (hkept d hother).trans ?_⟩
    exact hlaid.samePayload (c := ⟨b.addr, s, b.tag⟩)
      (by simp only [mem_append, mem_cons] at hother ⊢; tauto) (by simp)
      fun x => setMagic_outside

/-! ## Freeing -/

theorem last_append_singleton (p : Nat) (a : Block UInt32) : last p (pre ++ [a]) = a.addr := by
  induction pre generalizing p with
  | nil => rfl
  | cons c pre ih => exact ih c.addr

section

variable (h : Laid m (pre ++ b :: post))

include h

/-- Nothing is absorbed where no free block follows. -/
theorem Laid.mergeNext_stay (hno : ∀ c ∈ post.head?, c.tag ≠ magicFree) :
    Heap.mergeNext m b.addr = m := by
  rw [Heap.mergeNext, if_neg]
  rintro ⟨hnext, hfree⟩
  rw [h.header_eq] at hnext hfree
  cases post with
  | nil => exact hnext rfl
  | cons c post =>
    have h' : Laid m ((pre ++ [b]) ++ c :: post) := by simpa using h
    rw [first, h'.header_eq] at hfree
    exact hno c rfl hfree

/-- And nothing is given away where none precedes. -/
theorem Laid.mergePrev_stay (hno : ∀ a ∈ pre.getLast?, a.tag ≠ magicFree) :
    Heap.mergePrev m b.addr = m := by
  rw [Heap.mergePrev, if_neg]
  rintro ⟨hprev, hfree⟩
  rw [h.header_eq] at hprev hfree
  rcases eq_nil_or_concat' pre with rfl | ⟨pre, a, rfl⟩
  · exact hprev rfl
  have h' : Laid m (pre ++ a :: b :: post) := by simpa using h
  simp only [last_append_singleton] at hfree
  rw [h'.header_eq] at hfree
  exact hno a (by simp) hfree

end

/-- A free block that follows is absorbed. -/
theorem Laid.mergeNext_extend (h : Laid m (pre ++ b :: c :: post)) (hfree : c.tag = magicFree) :
    Heap.mergeNext m b.addr = Heap.extend m b.addr (b.size + c.size) (first post 0) := by
  have hhead := h.header_eq
  have h' : Laid m ((pre ++ [b]) ++ c :: post) := by simpa using h
  have hnext : (header m b.addr).next = c.addr := by rw [hhead]; rfl
  have hc := h'.header_eq
  have hsize : (header m b.addr).size + (header m (header m b.addr).next).size <
      4294967296 := by
    obtain ⟨hlo, _⟩ := h.bounds (b := b) (by simp)
    obtain ⟨_, hhi, _⟩ := h.bounds (b := c) (by simp)
    have hbc := h.tiles.behind (c := c) (by simp)
    unfold heapEnd heapSize at hhi
    rw [hnext, hhead, hc]
    simp only
    omega
  have heq := mergeNext_eq (m := m) (by rw [hnext]; exact (h.fits (b := c) (by simp)).1)
    (by rw [hnext, hc]; exact hfree) (by rw [hnext]; exact h.apart_behind (by simp)) hsize
    (by rw [hnext, hc]; exact h'.first_lt)
  rw [hnext, hhead, hc] at heq
  exact heq

/-- What is behind a block that has become free: it absorbs a free neighbour. -/
theorem Laid.mergeNext (h : Laid m (pre ++ b :: post)) (hb : b.tag = magicFree)
    (hchain : post.IsChain NotBothFree) :
    ∃ s post', Laid (Heap.mergeNext m b.addr) (pre ++ ⟨b.addr, s, magicFree⟩ :: post') ∧
      (⟨b.addr, s, magicFree⟩ :: post').IsChain NotBothFree ∧
      usedBlocks post' = usedBlocks post ∧
      ∀ d ∈ pre ++ b :: post, SamePayload m (Heap.mergeNext m b.addr) d := by
  by_cases hno : ∀ c ∈ post.head?, c.tag ≠ magicFree
  · rw [h.mergeNext_stay hno, ← hb]
    refine ⟨b.size, post, h, ?_, rfl, fun _ _ _ _ _ => rfl⟩
    exact isChain_cons.2 ⟨fun c hc hboth => hno c hc hboth.2, hchain⟩
  cases post with
  | nil => simp at hno
  | cons c post =>
    have hfree : c.tag = magicFree := by simpa using hno
    obtain ⟨hcpost, hpost⟩ := isChain_cons.1 hchain
    rw [h.mergeNext_extend hfree, ← hb]
    refine ⟨b.size + c.size, post, h.extend, ?_, ?_, fun d hd => h.samePayload_extend hd⟩
    · exact isChain_cons.2 ⟨fun d hd hboth => hcpost d hd ⟨hfree, hboth.2⟩, hpost⟩
    · rw [usedBlocks_cons c, usedBlocks_freed hfree, Set.empty_union]

/-- What is before a block that has become free: a free neighbour absorbs it. -/
theorem Laid.mergePrev (h : Laid m (pre ++ b :: post)) (hb : b.tag = magicFree)
    (hpre : pre.IsChain NotBothFree) (hpost : (b :: post).IsChain NotBothFree) :
    ∃ bs', Valid (Heap.mergePrev m b.addr) bs' ∧ usedBlocks bs' = usedBlocks (pre ++ b :: post) ∧
      ∀ d ∈ pre ++ b :: post, SamePayload m (Heap.mergePrev m b.addr) d := by
  by_cases hno : ∀ a ∈ pre.getLast?, a.tag ≠ magicFree
  · rw [h.mergePrev_stay hno]
    refine ⟨_, ⟨h, ?_⟩, rfl, fun _ _ _ _ _ => rfl⟩
    exact isChain_append.2 ⟨hpre, hpost, fun a ha c _ hboth => hno a ha hboth.1⟩
  rcases eq_nil_or_concat' pre with rfl | ⟨pre, a, rfl⟩
  · simp at hno
  have hfree : a.tag = magicFree := by simpa using hno
  have h' : Laid m (pre ++ a :: b :: post) := by simpa using h
  have hprev : (header m b.addr).prev = a.addr := by
    rw [h.header_eq, last_append_singleton]
  have ha := h'.header_eq
  have heq := mergePrev_eq (m := m) (by rw [hprev]; exact (h'.fits (b := a) (by simp)).1)
    (by rw [hprev, ha]; exact hfree) (by rw [hprev]; exact h'.apart_behind (by simp))
  rw [hprev, h.header_eq, ha] at heq
  obtain ⟨hfront, _, hseam⟩ := isChain_append.1 hpre
  obtain ⟨hbpost, hrest⟩ := isChain_cons.1 hpost
  rw [heq]
  refine ⟨_, ⟨h'.extend, ?_⟩, ?_, fun d hd => h'.samePayload_extend (by simpa using hd)⟩
  · refine isChain_append.2 ⟨hfront, isChain_cons.2 ⟨?_, hrest⟩, ?_⟩
    · exact fun d hd hboth => hbpost d hd ⟨hb, hboth.2⟩
    · intro c hc d hd hboth
      exact hseam c hc a (by simp) ⟨hboth.1, hfree⟩
  · simp only [usedBlocks_append, usedBlocks_cons _ post]
    rw [usedBlocks_freed (b := ⟨_, a.size + b.size, _⟩) hfree, usedBlocks_freed hb,
      usedBlocks_freed hfree,
      Set.union_empty]

theorem Laid.kfree_eq (h : Laid m (pre ++ b :: post)) (hused : b.tag = magicUsed) :
    Heap.kfree m (b.addr + 24) =
      Heap.mergePrev (Heap.mergeNext (Heap.setMagic m b.addr magicFree) b.addr) b.addr := by
  have htag : (header m b.addr).tag = magicUsed := by rw [h.header_eq]; exact hused
  rw [Heap.kfree, if_neg (by omega), Nat.add_sub_cancel, if_neg (by simpa using htag)]
  rfl

/-- **`kfree`** of a used block. -/
theorem Valid.kfree (h : Valid m bs) (hb : b ∈ usedBlocks bs) :
    ∃ bs', Valid (Heap.kfree m (b.addr + 24)) bs' ∧ usedBlocks bs' = usedBlocks bs \ {b} ∧
      ∀ d ∈ usedBlocks bs, d ≠ b → SamePayload m (Heap.kfree m (b.addr + 24)) d := by
  obtain ⟨hmem, hused⟩ := hb
  obtain ⟨pre, post, rfl⟩ := append_of_mem hmem
  obtain ⟨hpre, hrest, _⟩ := isChain_append.1 h.coalesced
  have hfreed := h.toLaid.setMagic (v := magicFree) (.inl rfl)
  obtain ⟨s, post', hnext, hchain, hpostUsed, hkeep⟩ := hfreed.mergeNext rfl hrest.tail
  obtain ⟨bs', hvalid, hall, hkeep'⟩ := hnext.mergePrev rfl hpre hchain
  rw [h.kfree_eq hused]
  refine ⟨bs', hvalid, ?_, fun d hd hne => ?_⟩
  · have hnot : b ∉ usedBlocks (pre ++ post) := fun hb => h.addr_ne hb.1 rfl
    have hnone : usedBlocks [⟨b.addr, s, magicFree⟩] = ∅ := usedBlocks_free (by simp)
    rw [usedBlocks_append] at hnot
    rw [hall, usedBlocks_append, usedBlocks_append, usedBlocks_cons, usedBlocks_cons (b := b),
      hpostUsed, hnone, usedBlocks_used hused, Set.empty_union, Set.union_left_comm,
      Set.singleton_union, Set.insert_sdiff_self_of_notMem hnot]
  have hwhere : d ∈ pre ∨ d ∈ post := by
    simp only [mem_usedBlocks, mem_append, mem_cons] at hd
    tauto
  have hfirst : SamePayload m (setMagic m b.addr magicFree) d :=
    h.samePayload hd.1 hmem fun x => setMagic_outside
  have hsecond := hkeep d (by simp only [mem_append, mem_cons]; tauto)
  have hpost : d ∈ post → d ∈ post' := fun hm => (hpostUsed.ge ⟨hm, hd.2⟩).1
  have hthird := hkeep' d (by simp only [mem_append, mem_cons]; tauto)
  exact (hfirst.trans hsecond).trans hthird

/-! ## Freeing what was just allocated -/

/-- The block is put together again: its neighbours are not free. -/
theorem Valid.laid_kfree_kmalloc (h : Valid m (pre ++ b :: post)) {size : Nat} (hsize : 24 ≤ size)
    (hb : Suits size b) :
    Laid (Heap.kfree (Heap.setMagic (Heap.splitBlock m b.addr size) b.addr magicUsed)
      (b.addr + 24)) (pre ++ b :: post) := by
  obtain ⟨hfree, hroom⟩ := hb
  obtain ⟨_, hrest, hseam⟩ := isChain_append.1 h.coalesced
  have hprev : ∀ a ∈ pre.getLast?, a.tag ≠ magicFree := fun a ha htag =>
    hseam a ha b rfl ⟨htag, hfree⟩
  have hnext : ∀ c ∈ post.head?, c.tag ≠ magicFree := fun c hc htag =>
    (isChain_cons.1 hrest).1 c hc ⟨hfree, htag⟩
  by_cases hfit : size + 24 + 32 ≤ b.size
  · have hused := (h.toLaid.splitBlock hsize hfit).setMagic (v := magicUsed) (.inr rfl)
    have hfreed := hused.setMagic (v := magicFree) (.inl rfl)
    have hwhole := hfreed.extend
    rw [hused.kfree_eq rfl, hfreed.mergeNext_extend rfl, hwhole.mergePrev_stay hprev]
    simpa only [Nat.add_sub_of_le hroom, ← hfree] using hwhole
  have hsame : Heap.splitBlock m b.addr size = m := by
    rw [Heap.splitBlock, h.header_eq, if_neg hfit]
  have hused := h.toLaid.setMagic (v := magicUsed) (.inr rfl)
  have hfreed := hused.setMagic (v := magicFree) (.inl rfl)
  rw [hsame, hused.kfree_eq rfl, hfreed.mergeNext_stay hnext, hfreed.mergePrev_stay hprev]
  simpa only [← hfree] using hfreed

end

end Heap
