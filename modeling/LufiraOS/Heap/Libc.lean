import LufiraOS.Heap.Runs

/-!
# What a pointer of `malloc` is good for

The allocator of `libc/src/malloc.c`, beside that of the kernel: both add a header to the size and
round it up in 64 bits.  A header of libc has 24 bytes and lies at a multiple of 16, so no pointer
that `malloc` returns is such a multiple.
-/

namespace Libc

open List

/-- `ARENA_SIZE`. -/
def arenaSize : Nat := 64 * 1024

/-- `MAX_ARENAS`. -/
def maxArenas : Nat := 32

/-- The magics of a block. -/
inductive Tag
  | free | used | large
  deriving DecidableEq

/-- `block_header_t`.  The links are the order of the list of all blocks; `first` is that `prev` is
NULL, as at the start of an arena. -/
structure Block where
  addr : Nat
  size : Nat
  tag : Tag
  first : Bool

/-- What `malloc` looks for: with the header, rounded up to 16 bytes. -/
def need (size : Nat) : Nat := ((size + 24) % 2 ^ 64 + 15) % 2 ^ 64 / 16 * 16

/-- `split_block` on a block that is taken. -/
def splitBlock (b : Block) (need : Nat) : List Block :=
  if b.size - need < 24 + 64 then [{ b with tag := .used }]
  else [{ b with size := need % 2 ^ 32, tag := .used },
    ⟨b.addr + need, (b.size - need) % 2 ^ 32, .free, false⟩]

/-- `find_free_block`: where the block lies, and the blocks after it is taken. -/
def findFreeBlock (need : Nat) : List Block → Option (Nat × List Block)
  | [] => none
  | b :: bs =>
    if b.tag = .free ∧ need ≤ b.size then some (b.addr, splitBlock b need ++ bs)
    else (findFreeBlock need bs).map fun r => (r.1, b :: r.2)

/-- `malloc`.  `page` is where `sys_mmap` puts a mapping, if it does. -/
def malloc (bs : List Block) (size : Nat) (page : Option Nat) : Option Nat × List Block :=
  if size = 0 then (none, bs)
  else if need size > arenaSize then
    match page with
    | none => (none, bs)
    | some page =>
      let total := (need size + 4095) % 2 ^ 64 / 4096 * 4096
      (some (4096 * page + 24), bs ++ [⟨4096 * page, total % 2 ^ 32, .large, true⟩])
  else match findFreeBlock (need size) bs with
    | some r => (some (r.1 + 24), r.2)
    | none =>
      if bs.countP (fun b => b.first ∧ b.tag ≠ .large) ≥ maxArenas then (none, bs)
      else match page with
        | none => (none, bs)
        | some page => (some (4096 * page + 24),
            bs ++ splitBlock ⟨4096 * page, arenaSize, .free, true⟩ (need size))

/-- `malloc_usable_size`. -/
def mallocUsableSize (bs : List Block) (ptr : Nat) : Nat :=
  match bs.find? fun b => b.addr + 24 = ptr with
  | none => 0
  | some b => if b.tag = .free then 0 else (b.size + (2 ^ 64 - 24)) % 2 ^ 64

/-- `merge_with_next` on the first block of the list. -/
def mergeWithNext : List Block → List Block
  | b :: c :: bs =>
    if c.first = false ∧ c.tag = .free then { b with size := (b.size + c.size) % 2 ^ 32 } :: bs
    else b :: c :: bs
  | bs => bs

/-- `free`. -/
def free (bs : List Block) (ptr : Nat) : List Block :=
  let before := bs.takeWhile fun b => b.addr + 24 ≠ ptr
  match bs.dropWhile fun b => b.addr + 24 ≠ ptr with
  | [] => bs
  | b :: behind =>
    match b.tag with
    | .free => bs
    | .large => before ++ behind
    | .used =>
      let merged := mergeWithNext ({ b with tag := .free } :: behind)
      match before.getLast? with
      | none => merged
      | some c =>
        if b.first = false ∧ c.tag = .free then before.dropLast ++ mergeWithNext (c :: merged)
        else before ++ merged

/-- A call of a history.  The sizes are those for which `need` does not wrap.  After another one the
blocks are no list any more: the tail lies on the header of the block it is split off, and the block
becomes its own successor. -/
inductive Call
  | malloc (size : Fin (2 ^ 64 - 39)) (page : Option Nat)
  | free (ptr : Nat)

def step (bs : List Block) : Call → List Block
  | .malloc size page => (malloc bs size page).2
  | .free ptr => free bs ptr

/-- A pointer of `malloc` is good for the size asked for, and aligned. -/
def Roomy (bs : List Block) (n : Nat) (page : Option Nat) : Prop :=
  ∀ p, (malloc bs n page).1 = some p → n ≤ mallocUsableSize (malloc bs n page).2 p ∧ p % 16 = 0

/-- What `malloc` finds when it has nothing to return: nothing is asked for, a large mapping is
refused, or no free block is large enough and there is no further arena. -/
def Refused (bs : List Block) (n : Nat) (page : Option Nat) : Prop :=
  n = 0 ∨ (arenaSize < need n ∧ page = none) ∨
    (need n ≤ arenaSize ∧ (∀ b ∈ bs, b.tag = .free → b.size < need n) ∧
      (maxArenas ≤ bs.countP (fun b => b.first ∧ b.tag ≠ .large) ∨ page = none))

/-! ### When `malloc` gives up -/

theorem findFreeBlock_eq_none {n : Nat} {bs : List Block} :
    findFreeBlock n bs = none ↔ ∀ b ∈ bs, b.tag = .free → b.size < n := by
  induction bs with
  | nil => simp [findFreeBlock]
  | cons b bs ih =>
    rw [forall_mem_cons, ← ih, findFreeBlock]
    by_cases hb : b.tag = .free ∧ n ≤ b.size
    · simp [hb, Nat.not_lt.2 hb.2]
    · have hsmall : b.tag = .free → b.size < n := fun hfree => by
        simpa [hfree] using hb
      rw [if_neg hb, Option.map_eq_none_iff, and_iff_right hsmall]

theorem malloc_eq_none_iff (bs : List Block) (n : Nat) (page : Option Nat) :
    (malloc bs n page).1 = none ↔ Refused bs n page := by
  unfold malloc Refused
  rw [← findFreeBlock_eq_none]
  by_cases hn : n = 0
  · simp [hn]
  by_cases hlarge : need n > arenaSize
  · cases page <;> simp [hn, hlarge]
  have hsmall : need n ≤ arenaSize := Nat.not_lt.1 hlarge
  simp only [hn, hlarge, if_false, false_or, false_and, hsmall, true_and]
  cases hfind : findFreeBlock (need n) bs with
  | some r => simp
  | none =>
    dsimp only
    split
    · next hfull => exact iff_of_true rfl ⟨rfl, .inl hfull⟩
    · next hroom =>
      cases page with
      | none => simp
      | some page => simpa using hroom

/-! ### Where the blocks lie -/

/-- The blocks start at multiples of 16. -/
def Aligned (bs : List Block) : Prop := ∀ b ∈ bs, b.addr % 16 = 0

variable {b : Block} {bs : List Block} {n : Nat}

theorem aligned_splitBlock (hb : b.addr % 16 = 0) (n : Nat) : Aligned (splitBlock b (need n)) := by
  have hn : need n % 16 = 0 := Nat.mul_mod_left ..
  unfold splitBlock
  split <;> grind [Aligned]

theorem aligned_findFreeBlock (h : Aligned bs) {r : Nat × List Block}
    (hr : findFreeBlock (need n) bs = some r) : r.1 % 16 = 0 ∧ Aligned r.2 := by
  induction bs generalizing r with
  | nil => cases hr
  | cons b bs ih =>
    obtain ⟨hb, hbs⟩ := forall_mem_cons.1 h
    rw [findFreeBlock] at hr
    split at hr
    · cases hr
      exact ⟨hb, forall_mem_append.2 ⟨aligned_splitBlock hb n, hbs⟩⟩
    · obtain ⟨r', hr', rfl⟩ := Option.map_eq_some_iff.1 hr
      obtain ⟨hp, hrest⟩ := ih hbs hr'
      exact ⟨hp, forall_mem_cons.2 ⟨hb, hrest⟩⟩

/-- **The header is in the way**: no pointer of `malloc` is aligned. -/
theorem aligned_malloc (h : Aligned bs) (n : Nat) (page : Option Nat) :
    (∀ p, (malloc bs n page).1 = some p → p % 16 = 8) ∧ Aligned (malloc bs n page).2 := by
  have hfound := fun r => aligned_findFreeBlock (r := r) (n := n) h
  have hsplit := fun page => aligned_splitBlock (b := ⟨4096 * page, arenaSize, .free, true⟩)
    (by dsimp only; omega) n
  unfold malloc
  split
  · exact ⟨nofun, h⟩
  split
  · cases page <;> grind [Aligned]
  split
  · grind
  split
  · exact ⟨nofun, h⟩
  · cases page <;> grind [Aligned]

theorem aligned_mergeWithNext (h : Aligned bs) : Aligned (mergeWithNext bs) := by
  unfold mergeWithNext
  split
  · split <;> grind [Aligned]
  · exact h

theorem aligned_free (h : Aligned bs) (ptr : Nat) : Aligned (free bs ptr) := by
  have hbefore : Aligned (bs.takeWhile fun b => b.addr + 24 ≠ ptr) :=
    fun b hb => h b ((takeWhile_sublist _).subset hb)
  unfold free
  dsimp only
  split
  · exact h
  · next b behind hdrop =>
    obtain ⟨hb, hbehind⟩ := forall_mem_cons.1 fun c hc =>
      h c ((dropWhile_sublist _).subset (hdrop ▸ hc))
    have hmerged : Aligned (mergeWithNext ({ b with tag := .free } :: behind)) :=
      aligned_mergeWithNext (forall_mem_cons.2 ⟨hb, hbehind⟩)
    split
    · exact h
    · exact forall_mem_append.2 ⟨hbefore, hbehind⟩
    split
    · exact hmerged
    · next c hlast =>
      split
      · exact forall_mem_append.2 ⟨fun b hb => hbefore b ((dropLast_sublist _).subset hb),
          aligned_mergeWithNext (forall_mem_cons.2 ⟨hbefore c (mem_of_getLast? hlast), hmerged⟩)⟩
      · exact forall_mem_append.2 ⟨hbefore, hmerged⟩

theorem aligned_run (calls : List Call) : Aligned (Run.run step [] calls) := by
  refine Run.invariant (I := Aligned) (fun bs c h => ?_) (fun _ hb => absurd hb not_mem_nil) calls
  cases c with
  | malloc size page => exact (aligned_malloc h size page).2
  | free ptr => exact aligned_free h ptr

end Libc

/-! ### Both allocators -/

namespace Heap

open ByteStore Blocks

/-- A pointer of `kmalloc` has the size asked for in a block of its own. -/
def Roomy (m : Bytes) (n : Nat) : Prop :=
  (kmalloc m n).1 ≠ 0 → ∃ bs b, Valid (kmalloc m n).2 bs ∧ b ∈ usedBlocks bs ∧
    (kmalloc m n).1 = b.addr + 24 ∧ n + 24 ≤ b.size

/-- **Room in the kernel heap**: no block is found, or the size does not wrap. -/
theorem roomy_iff {m : Bytes} {bs : List (Block UInt32)} {n : Nat} (h : Valid m bs)
    (hn : n < 2 ^ 64) : Roomy m n ↔
      (∀ b ∈ bs, b.tag = magicFree → b.size < totalSize n) ∨ n ≤ 2 ^ 64 - 32 := by
  have hzero := h.kmalloc_eq_zero_iff n
  by_cases hnull : (kmalloc m n).1 = 0
  · refine iff_of_true (fun hp => absurd hnull hp) ?_
    rcases hzero.1 hnull with rfl | hno
    · exact .inr (by decide)
    · exact .inl hno
  refine ⟨fun hroomy => .inr ?_, fun hle _ => ?_⟩
  · obtain ⟨bs', b, hvalid, hb, -, hsize⟩ := hroomy hnull
    have := (hvalid.fits hb.1).2.2
    omega
  · replace hle : n ≤ 2 ^ 64 - 32 := hle.resolve_left fun hno => hnull (hzero.2 (.inr hno))
    have hsmall : n < 4294967296 := by
      rcases h.kmalloc_cases n with ⟨hnone, -⟩ | ⟨pre, b, post, rfl, hb, -⟩
      · exact absurd (congrArg Prod.fst hnone) hnull
      · have hsize := (h.fits (b := b) (by simp)).2.2
        have htotal := hb.2
        unfold totalSize at htotal
        omega
    rcases h.kmalloc hsmall with ⟨hnone, -⟩ | ⟨bs', b, hvalid, hptr, hsize, hused, -⟩
    · exact absurd (congrArg Prod.fst hnone) hnull
    · exact ⟨bs', b, hvalid, hused ▸ Set.mem_insert _ _, hptr, hsize⟩

end Heap

namespace Libc

/-- **Sizes and alignment.**  Where the blocks of libc lie at multiples of 16, as they do after any
calls, and for any size, both allocators keep their word exactly when `malloc` finds nothing to
return and `kmalloc` finds no block or is asked for a size that does not wrap. -/
theorem roomy_iff_refused {blocks : List Block} (haligned : Aligned blocks) (page : Option Nat)
    {m : ByteStore.Bytes} {bs : List (Blocks.Block UInt32)} (h : Heap.Valid m bs) {n : Nat}
    (hn : n < 2 ^ 64) :
    Roomy blocks n page ∧ Heap.Roomy m n ↔ Refused blocks n page ∧
      ((∀ b ∈ bs, b.tag = Heap.magicFree → b.size < Heap.totalSize n) ∨ n ≤ 2 ^ 64 - 32) := by
  rw [Heap.roomy_iff h hn, ← malloc_eq_none_iff]
  refine and_congr_left fun _ => ⟨fun hroomy => ?_, fun hnull p hp => ?_⟩
  · cases hp : (malloc blocks n page).1 with
    | none => rfl
    | some p =>
      have hmod := (hroomy p hp).2
      rw [(aligned_malloc haligned n page).1 p hp] at hmod
      cases hmod
  · rw [hnull] at hp
    cases hp

/-- After a first small allocation a large one gets no mapping; the kernel has a block for it. -/
theorem roomy_iff_refused_large :
    Roomy (Run.run step [] [.malloc ⟨100, by decide⟩ (some 256)]) 70000 none ∧
      Heap.Roomy (Heap.heapInit ByteStore.zeros) 70000 :=
  (roomy_iff_refused (aligned_run _) none (Heap.Trace.start_kept ByteStore.zeros).toValid
    (by decide)).2 ⟨.inr (.inl ⟨by decide, rfl⟩), .inr (by decide)⟩

/-- The first allocation of a process lies 24 bytes behind the start of a page. -/
theorem not_roomy_firstArena : ¬ Roomy [] 100 (some 256) := fun h =>
  absurd (h (4096 * 256 + 24) (by decide)).2 (by decide)

end Libc
