import LufiraOS.Driver.Dir
import LufiraOS.Lib.FirstFit
import LufiraOS.Volume.Growth

/-!
# The directory entries of a volume

The lookups of the driver as functions of the volume alone, and the entries of a
directory as a map from positions to names and inode numbers: position `n` is
entry `n % 128` of the `n / 128`-th block.  An entry is read off its own 64 bytes
as long as its name ends inside them, so writing one entry leaves the others
alone.
-/

namespace LufiraFs

open ByteStore Vol FirstFit

variable {blk : Bytes} {name : CStr} {i n k j d : Nat} {V V' : Vol}

namespace Vol

/-- The inode number that the first of the `n` blocks from `b` on with an entry
`name` has for it. -/
def lookupBlocks (V : Vol) (r : Inode) (name : CStr) : (b n : Nat) → Option Nat
  | _, 0 => none
  | b, n + 1 =>
    match V.fetch r b with
    | none => lookupBlocks V r name (b + 1) n
    | some (_, blk) =>
      match findEntry blk name 0 128 with
      | some i => some (direntIno blk i).toNat
      | none => lookupBlocks V r name (b + 1) n

/-- The inode number that directory `d` has for `name`. -/
def lookupIn (V : Vol) (d : Nat) (name : CStr) : Option Nat :=
  if V.IsIno d ∧ (V.inode d).mode = modeDir then
    V.lookupBlocks (V.inode d) name 0 (blocksOf (V.inode d).size.toNat)
  else none

/-- Walk down from `d`. -/
def walk (V : Vol) : List CStr → Nat → Option Nat
  | [], d => some d
  | name :: rest, d =>
    match V.lookupIn d name with
    | none => none
    | some next => walk V rest next

theorem walk_cons_some (V : Vol) {name : CStr} {rest : List CStr} {d i : Nat}
    (h : V.walk (name :: rest) d = some i) :
    ∃ next, V.lookupIn d name = some next ∧ V.walk rest next = some i := by
  rw [walk] at h
  split at h
  · cases h
  · next next hlook => exact ⟨next, hlook, h⟩

theorem walk_append (V : Vol) (names names' : List CStr) (d : Nat) :
    V.walk (names ++ names') d = (V.walk names d).bind (V.walk names') := by
  induction names generalizing d with
  | nil => rfl
  | cons name rest ih =>
    rw [List.cons_append, walk, walk]
    cases V.lookupIn d name with
    | none => rfl
    | some next => exact ih next

/-- The inode that `path` names for a process in directory `start`. -/
def lookup (V : Vol) (start : Nat) (path : CStr) : Option Nat :=
  if path.head? = some slash then V.walk (components path.tail) V.rootInode
  else V.walk (components path) start

end Vol

/-! ## The scans of one block -/

theorem findEntry_eq (blk : Bytes) (name : CStr) (i n : Nat) : findEntry blk name i n =
    firstClear (fun k => !decide (direntIno blk k ≠ 0 ∧ direntName blk k = name)) i n := by
  induction n generalizing i with
  | zero => rfl
  | succ n ih =>
    rw [findEntry, firstClear, ih]
    by_cases hhit : direntIno blk i ≠ 0 ∧ direntName blk i = name <;> simp [hhit]

theorem findEntry_some (h : findEntry blk name i n = some k) :
    i ≤ k ∧ k < i + n ∧ direntIno blk k ≠ 0 ∧ direntName blk k = name := by
  rw [findEntry_eq] at h
  simpa using firstClear_some h

theorem findEntry_none (h : findEntry blk name i n = none) :
    ∀ k, i ≤ k → k < i + n → direntIno blk k ≠ 0 → direntName blk k ≠ name := by
  rw [findEntry_eq, firstClear_eq_none] at h
  intro k hlo hhi hused
  simpa [hused] using h k hlo hhi

theorem findUnused_eq (blk : Bytes) (i n : Nat) :
    findUnused blk i n = firstClear (fun k => direntIno blk k != 0) i n := by
  induction n generalizing i with
  | zero => rfl
  | succ n ih =>
    rw [findUnused, firstClear, ih]
    by_cases hfree : direntIno blk i = 0 <;> simp [hfree]

theorem findUnused_some (h : findUnused blk i n = some k) :
    i ≤ k ∧ k < i + n ∧ direntIno blk k = 0 := by
  rw [findUnused_eq] at h
  simpa using firstClear_some h

theorem findUnused_none (h : findUnused blk i n = none) :
    ∀ k, i ≤ k → k < i + n → direntIno blk k ≠ 0 := by
  rw [findUnused_eq, firstClear_eq_none] at h
  simpa using h

/-! ## One block of entries -/

/-- Entry `k` of a block, if it is used. -/
def direntAt (blk : Bytes) (k : Nat) : Option (Nat × CStr) :=
  if direntIno blk k = 0 then none else some ((direntIno blk k).toNat, direntName blk k)

theorem direntAt_eq_none : direntAt blk k = none ↔ direntIno blk k = 0 := by
  unfold direntAt
  split <;> simp_all

theorem direntAt_eq_some : direntAt blk k = some (i, name) ↔
      direntIno blk k ≠ 0 ∧ (direntIno blk k).toNat = i ∧ direntName blk k = name := by
  unfold direntAt
  split <;> simp_all

@[simp] theorem direntAt_zeros (k : Nat) : direntAt zeros k = none := by
  simp [direntAt, direntIno]

/-- The name of entry `k`, if it is used, ends inside the entry. -/
def ShortAt (blk : Bytes) (k : Nat) : Prop :=
  ∀ i name, direntAt blk k = some (i, name) → name.length ≤ 59

/-- An entry depends on its own 64 bytes. -/
theorem direntAt_congr {blk' : Bytes} (hk : k < 128) (hshort : ShortAt blk k)
    (h : ∀ a, 64 * k ≤ a → a < 64 * k + 64 → blk' a = blk a) :
    direntAt blk' k = direntAt blk k := by
  have hino : direntIno blk' k = direntIno blk k :=
    word32_congr fun j hj => h _ (by omega) (by omega)
  by_cases hz : direntIno blk k = 0
  · rw [direntAt_eq_none.2 hz, direntAt_eq_none.2 (hino.trans hz)]
  have hname : direntName blk' k = direntName blk k := by
    refine cstrAt_congr_short (n := 59) (by omega) ?_ fun j hj => h _ (by omega) (by omega)
    exact hshort _ _ (direntAt_eq_some.2 ⟨hz, rfl, rfl⟩)
  simp only [direntAt, hino, hname]

/-- A block whose entry `k` has been overwritten, with `m` bytes in the field of the name. -/
theorem direntIno_written {blk' src : Bytes} {ino : UInt32} {m : Nat} (hk : k < 128) (hm : m ≤ 60)
    (hbyte : ∀ a, a < 8192 → blk' a = copyIn (putWord blk (64 * k) ino) (64 * k + 4) m src a) :
    direntIno blk' k = ino ∧
      ∀ j, j < 128 → j ≠ k → ShortAt blk j → direntAt blk' j = direntAt blk j := by
  constructor
  · apply word32_byteOf
    intro b hb
    rw [hbyte _ (by omega), copyIn_outside (by omega), putWord, copyIn_inside (by omega) (by omega)]
    congr 1
    omega
  intro j hj hjk hshort
  refine direntAt_congr hj hshort fun a hlo hhi => ?_
  rw [hbyte a (by omega), copyIn_outside (by omega), putWord, copyIn_outside (by omega)]

/-- A block whose entry `k` has been overwritten, with the name in a field of `m` bytes. -/
theorem direntAt_filled {blk' : Bytes} {ino : UInt32} {m : Nat} (hk : k < 128) (hj : j < 128)
    (hino : ino ≠ 0) (hname : name.length < m) (hm : m ≤ 60) (hshort : ShortAt blk j)
    (hbyte : ∀ a, a < 8192 →
      blk' a = copyIn (putWord blk (64 * k) ino) (64 * k + 4) m (cstrBytes name) a) :
    direntAt blk' j = if j = k then some (ino.toNat, name) else direntAt blk j := by
  obtain ⟨hnum, hrest⟩ := direntIno_written hk hm hbyte
  by_cases hjk : j = k
  · subst hjk
    have htext : direntName blk' j = name := by
      refine cstrAt_of_bytes (by omega) fun b hb => ?_
      rw [hbyte _ (by omega), copyIn_inside (by omega) (by omega)]
      congr 1
      omega
    rw [if_pos rfl, direntAt_eq_some, hnum]
    exact ⟨hino, rfl, htext⟩
  · rw [if_neg hjk, hrest j hj hjk hshort]

/-- A block after entry `k` is filled. -/
theorem direntAt_putDirent {ino : UInt32} (hk : k < 128)
    (hj : j < 128) (hino : ino ≠ 0) (hname : name.length ≤ 59) (hshort : ShortAt blk j) :
    direntAt (window (putDirent blk k ino name) 0 8192) j =
      if j = k then some (ino.toNat, name) else direntAt blk j := by
  refine direntAt_filled hk hj hino (Nat.lt_succ_self _) (by omega) hshort fun a ha => ?_
  rw [window_apply ha, Nat.zero_add, putDirent, copyName, List.take_of_length_le hname]

/-- A block after entry `k` is emptied. -/
theorem direntAt_clearDirent (hk : k < 128) (hj : j < 128) (hshort : ShortAt blk j) :
    direntAt (window (clearDirent blk k) 0 8192) j = if j = k then none else direntAt blk j := by
  have hbyte : ∀ a, a < 8192 → window (clearDirent blk k) 0 8192 a =
      copyIn (putWord blk (64 * k) 0) (64 * k + 4) 1 zeros a := by
    intro a ha
    rw [window_apply ha, Nat.zero_add, clearDirent]
  obtain ⟨hnum, hrest⟩ := direntIno_written hk (by omega) hbyte
  by_cases hjk : j = k
  · rw [if_pos hjk, hjk, direntAt_eq_none, hnum]
  · rw [if_neg hjk, hrest j hj hjk hshort]

/-! ## Directories -/

namespace Vol

/-- Inode `i` is in use. -/
def Live (V : Vol) (i : Nat) : Prop := V.IsIno i ∧ (V.inode i).mode ≠ modeFree

instance (V : Vol) (i : Nat) : Decidable (V.Live i) :=
  inferInstanceAs (Decidable (_ ∧ _))

/-- Inode `d` is a directory. -/
def IsDir (V : Vol) (d : Nat) : Prop := V.IsIno d ∧ (V.inode d).mode = modeDir

instance (V : Vol) (d : Nat) : Decidable (V.IsDir d) :=
  inferInstanceAs (Decidable (_ ∧ _))

/-- The entry at position `n` of a directory with record `r`. -/
def entryIn (V : Vol) (r : Inode) (n : Nat) : Option (Nat × CStr) :=
  if n < blocksOf r.size.toNat * 128 then
    (V.fetch r (n / 128)).bind fun found => direntAt found.2 (n % 128)
  else none

/-- The entry at position `n` of directory `d`. -/
def entryAt (V : Vol) (d n : Nat) : Option (Nat × CStr) := V.entryIn (V.inode d) n

/-- The names of `d` end inside their entries. -/
def ShortNames (V : Vol) (d : Nat) : Prop :=
  ∀ n i name, V.entryAt d n = some (i, name) → name.length ≤ 59

variable {V : Vol} {r : Inode} {d : Nat} {name : CStr} {c k bn n i : Nat} {blk : Bytes}

theorem entryIn_of_fetch (hc : c < blocksOf r.size.toNat)
    (hk : k < 128) (hfetch : V.fetch r c = some (bn, blk)) :
    V.entryIn r (c * 128 + k) = direntAt blk k := by
  have hdiv : (c * 128 + k) / 128 = c := by omega
  have hmod : (c * 128 + k) % 128 = k := by omega
  have hlt : c * 128 + k < blocksOf r.size.toNat * 128 := by omega
  simp [entryIn, hlt, hdiv, hmod, hfetch]

theorem entryIn_some (h : V.entryIn r n = some (i, name)) : n < blocksOf r.size.toNat * 128 ∧
      ∃ bn blk, V.fetch r (n / 128) = some (bn, blk) ∧ direntAt blk (n % 128) = some (i, name) := by
  unfold entryIn at h
  split at h
  · next hlt =>
    cases hfetch : V.fetch r (n / 128) with
    | none => simp [hfetch] at h
    | some found =>
      simp only [hfetch, Option.bind_some] at h
      exact ⟨hlt, found.1, found.2, rfl, h⟩
  · simp at h

theorem ShortNames.shortAt (h : V.ShortNames d)
    (hc : c < blocksOf (V.inode d).size.toNat) (hk : k < 128)
    (hfetch : V.fetch (V.inode d) c = some (bn, blk)) : ShortAt blk k := by
  intro i name hentry
  rw [← entryIn_of_fetch hc hk hfetch] at hentry
  exact h _ i name hentry

/-! ### What the lookups find -/

theorem lookupBlocks_some {b : Nat} (h : V.lookupBlocks r name b n = some i) :
    ∃ c k bn blk, b ≤ c ∧ c < b + n ∧ k < 128 ∧ V.fetch r c = some (bn, blk) ∧
      direntAt blk k = some (i, name) := by
  induction n generalizing b with
  | zero => simp [lookupBlocks] at h
  | succ n ih =>
    have hrest : V.lookupBlocks r name (b + 1) n = some i → ∃ c k bn blk, b ≤ c ∧
        c < b + (n + 1) ∧ k < 128 ∧ V.fetch r c = some (bn, blk) ∧
        direntAt blk k = some (i, name) := by
      intro hlater
      obtain ⟨c, k, bn, blk, hlo, hhi, hfound⟩ := ih hlater
      exact ⟨c, k, bn, blk, by omega, by omega, hfound⟩
    rw [lookupBlocks] at h
    split at h
    · exact hrest h
    · next bn blk hfetch =>
      split at h
      · next k hentry =>
        obtain ⟨_, hk, hused, hname⟩ := findEntry_some hentry
        exact ⟨b, k, bn, blk, by omega, by omega, by omega, hfetch,
          direntAt_eq_some.2 ⟨hused, Option.some.inj h, hname⟩⟩
      · exact hrest h

theorem lookupBlocks_none {b : Nat} (h : V.lookupBlocks r name b n = none) (hlo : b ≤ c)
    (hhi : c < b + n) (hk : k < 128)
    (hfetch : V.fetch r c = some (bn, blk)) : direntAt blk k ≠ some (i, name) := by
  induction n generalizing b with
  | zero => omega
  | succ n ih =>
    rw [lookupBlocks] at h
    by_cases hcb : c = b
    · subst hcb
      rw [hfetch] at h
      cases hentry : findEntry blk name 0 128 with
      | some j => simp [hentry] at h
      | none =>
        intro hat
        obtain ⟨hused, _, hname⟩ := direntAt_eq_some.1 hat
        exact findEntry_none hentry k (Nat.zero_le _) (by omega) hused hname
    have hrest : V.lookupBlocks r name (b + 1) n = none := by
      split at h
      · exact h
      split at h
      · simp at h
      · exact h
    exact ih hrest (by omega) (by omega)

/-- A name that is found has an entry. -/
theorem lookupIn_some (h : V.lookupIn d name = some i) :
    V.IsDir d ∧ ∃ n, V.entryAt d n = some (i, name) := by
  unfold lookupIn at h
  split at h
  · next hdir =>
    obtain ⟨c, k, bn, blk, _, hc, hk, hfetch, hentry⟩ := lookupBlocks_some h
    exact ⟨hdir, c * 128 + k, (entryIn_of_fetch (by omega) hk hfetch).trans hentry⟩
  · simp at h

/-- A name that is not found has no entry. -/
theorem lookupIn_none (hd : V.IsDir d) (h : V.lookupIn d name = none) (n i : Nat) :
    V.entryAt d n ≠ some (i, name) := by
  intro hat
  obtain ⟨hlt, bn, blk, hfetch, hentry⟩ := entryIn_some hat
  rw [lookupIn, if_pos ⟨hd.1, hd.2⟩] at h
  exact lookupBlocks_none h (Nat.zero_le _) (by omega) (Nat.mod_lt _ (by omega)) hfetch hentry

end Vol

/-! ### The entries of a directory that is not touched -/

theorem Vol.InData.ne_zero (hin : V.InData b) (h0 : 0 < V.dataStart) : b ≠ 0 :=
  Nat.ne_of_gt (Nat.lt_of_lt_of_le h0 hin.1)

/-- An untouched file has the blocks it had. -/
theorem Evolves.fetch_eq {S : Set Nat} (h : Evolves S V V') (h0 : 0 < V.dataStart) (hj : V.IsIno j)
    (hS : j ∉ S) (b : Nat) :
    V'.fetch (V'.inode j) b = V.fetch (V.inode j) b := by
  have hblock : blockOf V'.block (V'.inode j) b = blockOf V.block (V.inode j) b :=
    blockOf_congr fun s _ => h.ptr_eq hj hS s
  unfold fetch
  rw [hblock]
  simp only [h.geo.inData]
  split
  · next hin =>
    have hne := hin.ne_zero h0
    obtain ⟨s, _, _, hptr⟩ := exists_slot_of_blockOf hne
    have hkeep := h.block (s := s) hj hS (by rw [ptr, hptr]; exact hne)
    rw [ptr, hptr] at hkeep
    rw [hkeep]
  · rfl

/-- An untouched directory has the entries it had. -/
theorem Evolves.entryAt_eq {S : Set Nat} (h : Evolves S V V') (h0 : 0 < V.dataStart)
    (hd : V.IsIno d) (hS : d ∉ S) (n : Nat) : V'.entryAt d n = V.entryAt d n := by
  unfold entryAt entryIn
  rw [h.fetch_eq h0 hd hS, h.inode hd hS]

/-! ### The entries of a directory that is changed -/

namespace Sound

variable {V : Vol} {d bn c : Nat}

/-- Distinct data blocks of a file have distinct numbers. -/
theorem blockOf_inj (h : Sound V) (hd : V.IsIno d) {b : Nat}
    (hne : blockOf V.block (V.inode d) b ≠ 0)
    (heq : blockOf V.block (V.inode d) b = blockOf V.block (V.inode d) c) : b = c := by
  obtain ⟨s, hs, _, hptr⟩ := exists_slot_of_blockOf hne
  obtain ⟨t, ht, _, hptr'⟩ := exists_slot_of_blockOf (heq ▸ hne)
  have hsame : V.ptr d s = V.ptr d t := by
    rw [ptr, ptr, hptr, hptr', heq]
  obtain ⟨_, rfl⟩ := h.inj hd hd (by rw [ptr, hptr]; exact hne) hsame
  exact slotOf_inj hs ht

/-- Rewriting a data block of a file shows in that block only. -/
theorem fetch_setBlock (h : Sound V) (hd : V.IsIno d) (h0 : 0 < V.dataStart)
    (hin : V.InData bn) (hbn : bn = blockOf V.block (V.inode d) c) (blk : Bytes) (b : Nat) :
    (V.setBlock bn blk).fetch (V.inode d) b =
      if b = c then some (bn, blk) else V.fetch (V.inode d) b := by
  obtain ⟨s, hs, hslot, hptr⟩ := exists_slot_of_blockOf (hbn ▸ hin.ne_zero h0)
  have hptrs := (h.writeData (i := d) (s := s) blk hd hslot
    (by rw [ptr, hptr, ← hbn]; exact hin.ne_zero h0)).2.2
  rw [ptr, hptr, ← hbn] at hptrs
  have hblock : ∀ b', blockOf (V.setBlock bn blk).block (V.inode d) b' =
      blockOf V.block (V.inode d) b' := fun b' => blockOf_congr fun s _ => hptrs d s hd
  have hdata : ∀ b', (V.setBlock bn blk).InData b' ↔ V.InData b' := fun _ => Iff.rfl
  unfold fetch
  simp only [hblock, hdata]
  by_cases hbc : b = c
  · subst hbc
    rw [if_pos rfl, ← hbn, if_pos hin, setBlock_block_same]
  rw [if_neg hbc]
  split
  · next hin' =>
    rw [setBlock_block_ne]
    intro heq
    exact hbc (h.blockOf_inj hd (hin'.ne_zero h0) (heq.trans hbn))
  · rfl

end Sound

/-- Position `n` of directory `d` has changed from unused to an entry `name` for
`i`; the other positions are as they were. -/
structure Enters (d n i : Nat) (name : CStr) (V V' : Vol) : Prop where
  was : V.entryAt d n = none
  now : V'.entryAt d n = some (i, name)
  rest : ∀ {m}, m ≠ n → V'.entryAt d m = V.entryAt d m

/-- Position `n` of directory `d` has become unused; the other positions are as
they were. -/
structure Leaves (d n i : Nat) (name : CStr) (V V' : Vol) : Prop where
  was : V.entryAt d n = some (i, name)
  now : V'.entryAt d n = none
  rest : ∀ {m}, m ≠ n → V'.entryAt d m = V.entryAt d m

/-- The entries after one block of the directory is rewritten. -/
theorem Sound.entryAt_setBlock {bn c : Nat} (h : Sound V) (hd : V.IsIno d)
    (h0 : 0 < V.dataStart) (hin : V.InData bn) (hbn : bn = blockOf V.block (V.inode d) c)
    (hc : c < blocksOf (V.inode d).size.toNat) (blk : Bytes) (m : Nat) :
    (V.setBlock bn blk).entryAt d m =
      if m / 128 = c then direntAt blk (m % 128) else V.entryAt d m := by
  unfold entryAt entryIn
  rw [setBlock_inode, h.fetch_setBlock hd h0 hin hbn]
  by_cases hmc : m / 128 = c
  · have hlt : m < blocksOf (V.inode d).size.toNat * 128 := by omega
    simp [hmc, hlt]
  · simp [hmc]

theorem Vol.fetch_of_blockOf {r : Inode} {bn c : Nat} (hin : V.InData bn)
    (hbn : bn = blockOf V.block r c) : V.fetch r c = some (bn, V.block bn) := by
  subst hbn
  exact if_pos hin

/-- Writing into one entry of a fetched block changes one position. -/
theorem Sound.entryAt_write {bn c k : Nat} (h : Sound V) (hd : V.IsIno d) (h0 : 0 < V.dataStart)
    (hin : V.InData bn) (hbn : bn = blockOf V.block (V.inode d) c)
    (hc : c < blocksOf (V.inode d).size.toNat) {blk : Bytes} (entry : Option (Nat × CStr))
    (hk : k < 128)
    (hblk : ∀ j, j < 128 → direntAt blk j = if j = k then entry else direntAt (V.block bn) j)
    (n : Nat) :
    (V.setBlock bn blk).entryAt d n = if n = c * 128 + k then entry else V.entryAt d n := by
  rw [h.entryAt_setBlock hd h0 hin hbn hc]
  by_cases hnc : n / 128 = c
  · rw [if_pos hnc, hblk _ (Nat.mod_lt _ (by omega))]
    by_cases hnk : n % 128 = k
    · have hn : n = c * 128 + k := by omega
      rw [if_pos hnk, if_pos hn]
    have hn : n ≠ c * 128 + k := by omega
    have hfetch := fetch_of_blockOf hin hbn
    rw [if_neg hnk, if_neg hn, ← entryIn_of_fetch hc (Nat.mod_lt n (by omega)) hfetch]
    congr 1
    omega
  · have hn : n ≠ c * 128 + k := by omega
    rw [if_neg hnc, if_neg hn]

/-- Filling an unused entry of a fetched block. -/
theorem Sound.enters_write {bn c k i : Nat} {name : CStr} (h : Sound V) (hd : V.IsIno d)
    (h0 : 0 < V.dataStart) (hin : V.InData bn) (hbn : bn = blockOf V.block (V.inode d) c)
    (hc : c < blocksOf (V.inode d).size.toNat) {blk : Bytes} (hk : k < 128)
    (hunused : direntIno (V.block bn) k = 0)
    (hblk : ∀ j, j < 128 →
      direntAt blk j = if j = k then some (i, name) else direntAt (V.block bn) j) :
    Enters d (c * 128 + k) i name V (V.setBlock bn blk) := by
  have hentry := h.entryAt_write hd h0 hin hbn hc _ hk hblk
  refine ⟨?_, by rw [hentry, if_pos rfl], fun hm => by rw [hentry, if_neg hm]⟩
  exact (entryIn_of_fetch hc hk (fetch_of_blockOf hin hbn)).trans (direntAt_eq_none.2 hunused)

/-- A new last block with one entry. -/
theorem enters_grow {i : Nat} {name : CStr} {blk : Bytes}
    (hentry : ∀ m, V'.entryAt d m = if m / 128 = blocksOf (V.inode d).size.toNat
      then direntAt blk (m % 128) else V.entryAt d m)
    (hblk : ∀ j, j < 128 → direntAt blk j = if j = 0 then some (i, name) else none) :
    Enters d (blocksOf (V.inode d).size.toNat * 128) i name V V' := by
  have hpast : ∀ m, m / 128 = blocksOf (V.inode d).size.toNat → V.entryAt d m = none := by
    intro m hm
    have hge : ¬ m < blocksOf (V.inode d).size.toNat * 128 := by omega
    rw [entryAt, entryIn, if_neg hge]
  refine ⟨hpast _ (by omega), ?_, fun {m} hm => ?_⟩
  · rw [hentry, if_pos (by omega), hblk _ (Nat.mod_lt _ (by omega)), if_pos (by omega)]
  rw [hentry]
  split
  · next hlast => rw [hblk _ (Nat.mod_lt _ (by omega)), if_neg (by omega), hpast m hlast]
  · rfl

/-- The blocks of a file depend on the block numbers of its record only. -/
theorem SamePtrs.fetch_eq {r r' : Inode} (h : SamePtrs r r') (V : Vol) (b : Nat) :
    V.fetch r' b = V.fetch r b := by
  rw [fetch, blockOf_congr fun s _ => h.ptrOf_eq V.block s, fetch]

namespace Gains

variable {d : Nat} {T : Set Slot} {V V' : Vol} {r r' : Inode}

/-- The block numbers outside `T` can still be read off the old record. -/
theorem ptrOf_old (g : Gains d T (V.setInode d r) (V'.setInode d r')) {s : Slot} (hs : s ∉ T)
    (hslot : s ≠ .indirect) : ptrOf V'.block r s = ptrOf V.block r s := by
  cases s with
  | direct k => rfl
  | indirect => exact absurd rfl hslot
  | entry e =>
    by_cases hz : r.indirect = 0
    · simp [ptrOf, hz]
    have hkeep := g.keep (s := .indirect)
    have honly := g.only hs
    rw [setInode_ptr_same, setInode_ptr_same] at hkeep honly
    have hind : r'.indirect = r.indirect :=
      UInt32.toNat_inj.1 (hkeep fun h0 => hz (UInt32.toNat_inj.1 h0))
    simp only [ptrOf, hind] at honly ⊢
    exact honly

/-- A growing file keeps the blocks outside `T`, for its new record as well as
for the old one. -/
theorem fetch_eq (g : Gains d T (V.setInode d r) (V'.setInode d r')) (h0 : 0 < V.dataStart)
    {b : Nat} (hb : ∀ s, slotOf b = some s → s ∉ T) :
    V'.fetch r' b = V.fetch r b ∧ V'.fetch r b = V.fetch r b := by
  have hnew : blockOf V'.block r' b = blockOf V.block r b := blockOf_congr fun s hs => by
    have honly := g.only (hb s hs)
    rwa [setInode_ptr_same, setInode_ptr_same] at honly
  have hold : blockOf V'.block r b = blockOf V.block r b := blockOf_congr fun s hs =>
    g.ptrOf_old (hb s hs) fun hind => slotOf_ne_indirect (hind ▸ hs)
  have hgeo : ∀ b', V'.InData b' ↔ V.InData b' := fun b' => g.evolves.geo.inData
  have hdata : V.InData (blockOf V.block r b) →
      V'.block (blockOf V.block r b) = V.block (blockOf V.block r b) := by
    intro hin
    have hne := hin.ne_zero h0
    obtain ⟨s, _, hslot, hptr⟩ := exists_slot_of_blockOf hne
    have hkeep := g.data (s := s) hslot
    rw [setInode_ptr_same, hptr] at hkeep
    exact hkeep hne
  unfold fetch
  rw [hnew, hold]
  simp only [hgeo]
  constructor <;>
  · split
    · next hin => rw [hdata hin]
    · rfl

end Gains

/-- The slots that are filled for one data block are not those of another one. -/
theorem notMem_slotsFor {b c : Nat} (hbc : b ≠ c) {s : Slot} (hs : slotOf b = some s) :
    s ∉ slotsFor c := by
  rintro (rfl | hs')
  · exact slotOf_ne_indirect hs
  · exact hbc (slotOf_inj hs hs')

/-- A directory whose growth has been given up has the entries it had. -/
theorem Gains.entryAt_abandon {r' : Inode} (h0 : 0 < V.dataStart)
    (g : Gains d (slotsFor (blocksOf (V.inode d).size.toNat)) (V.setInode d (V.inode d))
      (V'.setInode d r'))
    (hrec : V'.inode d = V.inode d) (n : Nat) : V'.entryAt d n = V.entryAt d n := by
  unfold entryAt entryIn
  rw [hrec]
  split
  · next hlt => rw [(g.fetch_eq h0 fun s hs => notMem_slotsFor (by omega) hs).2]
  · rfl

section grow

variable {d bn : Nat} {V V₁ : Vol} {r' : Inode}

/-- The size of a file that has grown by a block behind its last one: a file that
still finds a slot is far from the size at which the count wraps. -/
theorem blocksOf_grow {block : Nat → Bytes}
    (hne : blockOf block r' (blocksOf (V.inode d).size.toNat) ≠ 0) :
    blocksOf (UInt32.ofNat ((blocksOf (V.inode d).size.toNat + 1) * 8192)).toNat =
      blocksOf (V.inode d).size.toNat + 1 := by
  obtain ⟨s, hs, _⟩ := exists_slot_of_blockOf hne
  have hsmall : blocksOf (V.inode d).size.toNat < 2060 := by
    by_contra hbig
    rw [slotOf_none (by omega) (by omega)] at hs
    cases hs
  rw [toNat_ofNat_lt (by omega)]
  generalize blocksOf (V.inode d).size.toNat = k at hsmall ⊢
  unfold blocksOf
  omega

section

variable (h0 : 0 < V.dataStart) (hd : V.IsIno d)
  (g : Gains d (slotsFor (blocksOf (V.inode d).size.toNat)) (V.setInode d (V.inode d))
    (V₁.setInode d r')) (hne : bn ≠ 0)
    (hbn : blockOf V₁.block r' (blocksOf (V.inode d).size.toNat) = bn)

include h0 hd g hne hbn

/-- A file that has grown by a block has the blocks it had and the new one. -/
theorem Gains.fetch_grow {blk : Bytes} (size : UInt32) (b : Nat) :
    ((V₁.setBlock bn blk).setInode d (r'.setSize size)).fetch (r'.setSize size) b =
      if b = blocksOf (V.inode d).size.toNat then some (bn, blk) else V.fetch (V.inode d) b := by
  have hd₁ : V₁.IsIno d := g.evolves.geo.isIno.2 hd
  have hin : (V₁.setInode d r').InData bn := by
    rw [← hbn] at hne ⊢
    exact g.sound.blockOf_inData hd₁ hne
  have hdata : 0 < (V₁.setInode d r').dataStart := by
    rw [g.evolves.geo.dataStart]
    exact h0
  have hfetch := g.sound.fetch_setBlock (c := blocksOf (V.inode d).size.toNat) (d := d)
    hd₁ hdata hin (by rw [setInode_inode_same]; exact hbn.symm) blk b
  rw [setInode_inode_same] at hfetch
  have hsame : ((V₁.setBlock bn blk).setInode d (r'.setSize size)).fetch (r'.setSize size) b =
      ((V₁.setInode d r').setBlock bn blk).fetch r' b :=
    (SamePtrs.setSize r' size).fetch_eq (V₁.setBlock bn blk) b
  rw [hsame, hfetch]
  by_cases hlast : b = blocksOf (V.inode d).size.toNat
  · rw [if_pos hlast, if_pos hlast]
  · rw [if_neg hlast, if_neg hlast]
    exact (g.fetch_eq h0 fun s hs => notMem_slotsFor hlast hs).1

/-- A directory that has grown by a block has the entries it had and those of the
new block. -/
theorem Gains.entryAt_grow (blk : Bytes) (n : Nat) :
    ((V₁.setBlock bn blk).setInode d (r'.setSize (UInt32.ofNat
        ((blocksOf (V.inode d).size.toNat + 1) * 8192)))).entryAt d n =
      if n / 128 = blocksOf (V.inode d).size.toNat then direntAt blk (n % 128)
      else V.entryAt d n := by
  have hsize := blocksOf_grow (V := V) (d := d) (hbn.symm ▸ hne)
  unfold entryAt entryIn
  rw [setInode_inode_same, g.fetch_grow h0 hd hne hbn]
  simp only [Inode.setSize, hsize]
  by_cases hlast : n / 128 = blocksOf (V.inode d).size.toNat
  · have hlt : n < (blocksOf (V.inode d).size.toNat + 1) * 128 := by omega
    simp [hlast, hlt]
  have hiff : n < (blocksOf (V.inode d).size.toNat + 1) * 128 ↔
      n < blocksOf (V.inode d).size.toNat * 128 := by omega
  simp only [hlast, if_false, hiff]

end

end grow

end LufiraFs
