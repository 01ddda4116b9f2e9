import LufiraOS.Driver.Contents
import LufiraOS.Driver.Room
import LufiraOS.Driver.Runs
import Mathlib

/-!
# Reading and writing ranges of a file

How many bytes `lufirafs_read` delivers, what `lufirafs_write` leaves when it writes everything, a
part or nothing, and when its first block can be had.
-/

namespace LufiraFs

open ByteStore

theorem direct_pos : 0 < 12 := by decide

/-- A region with a single data block, which the root directory occupies, and a file of the given
size without blocks. -/
def tightMount (size : UInt32) : Mount :=
  (({ blankMount with sb := computeLayout 8 (Superblock.ofBytes zeros) }.blockBitmapSet 7
    true).writeInode 1
      (((Mount.newInode modeDir 0 0 493).setSize 8192).setDirect ⟨0, direct_pos⟩ 7)).writeInode 2
      ((Mount.newInode modeFile 0 0 420).setSize size)

theorem tightMount_becomes (size : UInt32) :
    Mount.Becomes { blankMount with sb := computeLayout 8 (Superblock.ofBytes zeros) }
      (tightMount size) (computeLayout 8 (Superblock.ofBytes zeros))
      (((({ blankMount with sb := computeLayout 8 (Superblock.ofBytes zeros) } : Mount).vol.setBit 7
        true).setInode 1 (((Mount.newInode modeDir 0 0 493).setSize 8192).setDirect 0 7)).setInode 2
          ((Mount.newInode modeFile 0 0 420).setSize size)) := by
  have hready : ({ blankMount with sb := computeLayout 8 (Superblock.ofBytes zeros) } :
      Mount).Ready :=
    ⟨computeLayout_laid (by decide) (by decide), by decide, by decide, by decide, Env.allOk_ioOk⟩
  have hmark := Mount.blockBitmapSet_becomes hready (b := 7) (by decide) true
  have hroot := hmark.trans (Mount.writeInode_becomes hmark.ready (i := 1)
    (by rw [hmark.vol]; decide) (((Mount.newInode modeDir 0 0 493).setSize 8192).setDirect 0 7))
  have hfile := hroot.trans (Mount.writeInode_becomes hroot.ready (i := 2)
    (by rw [hroot.vol, hmark.vol]; decide) ((Mount.newInode modeFile 0 0 420).setSize size))
  rw [hroot.vol, hmark.vol, hroot.sb, hmark.sb] at hfile
  exact hfile

theorem tightMount_file (size : UInt32) :
    (tightMount size).vol.inode 2 = (Mount.newInode modeFile 0 0 420).setSize size := by
  rw [(tightMount_becomes size).vol, Vol.setInode_inode_same]

theorem tightMount_isIno (size : UInt32) : (tightMount size).vol.IsIno 2 :=
  (tightMount_becomes size).ready.isIno_iff.mpr ⟨by omega, by omega⟩

theorem tightMount_sound (size : UInt32) : Sound (tightMount size).vol := by
  have hptr : ∀ i s, (tightMount size).vol.ptr i s ≠ 0 →
      i = 1 ∧ s = .direct 0 ∧ (tightMount size).vol.ptr i s = 7 := by
    intro i s
    rw [(tightMount_becomes size).vol]
    by_cases h2 : i = 2
    · subst h2
      rw [Vol.setInode_ptr_same]
      intro hne
      exact absurd (ptrOf_zero _ s) hne
    rw [Vol.setInode_ptr_ne _ _ _ h2]
    by_cases h1 : i = 1
    · subst h1
      rw [Vol.setInode_ptr_same]
      cases s with
      | direct k =>
        by_cases hk : k = 0 <;>
          simp [ptrOf, Inode.setDirect, Inode.setSize, Mount.newInode, Inode.zero, hk]
      | indirect => simp [ptrOf, Inode.setDirect, Inode.setSize, Mount.newInode, Inode.zero]
      | entry e => simp [ptrOf, Inode.setDirect, Inode.setSize, Mount.newInode, Inode.zero]
    · rw [Vol.setInode_ptr_ne _ _ _ h1]
      intro hne
      exfalso
      apply hne
      show ptrOf _ (inodeIn zeros _ _ i) s = 0
      unfold inodeIn
      split
      · exact ptrOf_zero _ s
      · rw [Inode.ofBytes_zeros]
        exact ptrOf_zero _ s
  constructor
  · intro i s _ hne
    rw [(hptr i s hne).2.2, (tightMount_becomes size).vol]
    have hseven : 7 ≤ 7 ∧ 7 < 8 := by omega
    exact hseven
  · intro i s _ hne
    rw [(hptr i s hne).2.2, (tightMount_becomes size).vol]
    rfl
  · intro i s j t _ _ hne heq
    obtain ⟨rfl, rfl, -⟩ := hptr i s hne
    obtain ⟨rfl, rfl, -⟩ := hptr j t (heq ▸ hne)
    exact ⟨rfl, rfl⟩

theorem tightMount_clearCount (size : UInt32) : (tightMount size).vol.clearCount = 0 := by
  by_contra hpos
  obtain ⟨b, hin, hclear⟩ := Vol.clearCount_pos_iff.mp (Nat.pos_of_ne_zero hpos)
  rw [(tightMount_becomes size).vol] at hin hclear
  obtain rfl : b = 7 := by
    have h1 : 7 ≤ b := hin.1
    have h2 : b < 8 := hin.2
    omega
  cases hclear

theorem tightMount_env (size : UInt32) : (tightMount size).env = Env.allOk :=
  (tightMount_becomes size).used.allOk

/-- `blankMount` with an empty file. -/
def roomyMount : Mount := blankMount.writeInode 2 (Mount.newInode modeFile 0 0 420)

theorem roomyMount_becomes : Mount.Becomes blankMount roomyMount blankMount.sb
    (blankMount.vol.setInode 2 (Mount.newInode modeFile 0 0 420)) :=
  Mount.writeInode_becomes blankMount_ready (by decide) _

theorem roomyMount_sound : Sound roomyMount.vol := by
  have hptr : ∀ i s, roomyMount.vol.ptr i s = 0 := by
    intro i s
    rw [roomyMount_becomes.vol]
    by_cases h2 : i = 2
    · subst h2
      rw [Vol.setInode_ptr_same]
      exact ptrOf_zero _ s
    · rw [Vol.setInode_ptr_ne _ _ _ h2, Vol.ptr, blankMount_inode, ptrOf_zero]
  exact ⟨fun _ hne => absurd (hptr _ _) hne, fun _ hne => absurd (hptr _ _) hne,
    fun _ _ hne => absurd (hptr _ _) hne⟩

theorem roomyMount_env : roomyMount.env = Env.allOk := roomyMount_becomes.used.allOk

theorem roomyMount_isIno : roomyMount.vol.IsIno 2 :=
  roomyMount_becomes.ready.isIno_iff.mpr ⟨by omega, by omega⟩

theorem roomyMount_heapOk : roomyMount.HeapOk := by
  intro n
  rw [roomyMount_env]
  rfl

namespace Mount

variable {fs fs' : Mount} {ino : Nat} {r : Inode} {src : Bytes}

/-! ### The length of a read -/

theorem readLoop_length (r : Inode) (fuel pos remaining : Nat) (hfuel : remaining ≤ fuel) :
    (readLoop r fuel pos remaining fs).1.length = remaining := by
  induction fuel generalizing pos remaining fs with
  | zero =>
      obtain rfl : remaining = 0 := by omega
      rfl
  | succ fuel ih =>
      rw [readLoop]
      split
      · next hzero =>
          rw [hzero]
          rfl
      · have hmod : pos % 8192 < 8192 := Nat.mod_lt _ (by omega)
        dsimp only
        rw [List.length_append, List.length_map, List.length_range, ih _ _ (by omega)]
        omega

/-- Past the end. -/
theorem read_past (hi : fs.readInode ino = some r) {offset : Nat} (hpast : r.size.toNat ≤ offset)
    (count : Nat) : fs.read ino offset count = (0, [], fs) := by
  simp only [read, hi, hpast, if_true]

/-- No memory for the block buffer. -/
theorem read_of_heap_false (hi : fs.readInode ino = some r) {offset : Nat}
    (hlt : offset < r.size.toNat) (hheap : fs.env.heap 0 = false) (count : Nat) :
    (fs.read ino offset count).1 = -1 := by
  obtain ⟨e, hmalloc, -⟩ := fs.kmalloc_eq
  rw [hheap] at hmalloc
  simp only [read, hi, Nat.not_le.mpr hlt, if_false, hmalloc]

/-- Inside the file, `lufirafs_read` delivers `readCount` bytes. -/
theorem read_inside (hi : fs.readInode ino = some r) {offset : Nat} (hlt : offset < r.size.toNat)
    (hheap : fs.env.heap 0 = true) (count : Nat) :
    (fs.read ino offset count).1 = toInt (readCount r.size.toNat offset count) ∧
      (fs.read ino offset count).2.1.length = readCount r.size.toNat offset count := by
  obtain ⟨e, hmalloc, -⟩ := fs.kmalloc_eq
  rw [hheap] at hmalloc
  simp only [read, hi, Nat.not_le.mpr hlt, if_false, hmalloc]
  exact ⟨rfl, readLoop_length r _ _ _ (Nat.le_refl _)⟩

theorem readCount_eq {size offset count : Nat} (hlt : offset < size)
    (hsum : offset + count < 4294967296) :
    readCount size offset count = min count (size - offset) := by
  unfold readCount
  rw [Nat.mod_eq_of_lt hsum]
  split <;> omega

/-- The sum of offset and count wraps around and passes the test for the end of the file. -/
theorem readCount_of_wrap {size offset count : Nat} (hlt : offset < size)
    (hcount : count < 4294967296)
    (hsize : size < 4294967296) (hsum : 4294967296 ≤ offset + count) :
    readCount size offset count = count ∧ min count (size - offset) ≠ count := by
  have hmod : (offset + count) % 4294967296 = offset + count - 4294967296 := by omega
  unfold readCount
  rw [hmod, if_neg (by omega)]
  exact ⟨rfl, by omega⟩

theorem toInt_eq_iff {n : Nat} (hn : n < 4294967296) : toInt n = (n : Int) ↔ n < 2147483648 := by
  unfold toInt
  rw [Nat.mod_eq_of_lt hn]
  split <;> omega

/-- `lufirafs_read` of a file of `size` bytes returns the number of bytes there are, and delivers so
many. -/
def ReadsLength (fs : Mount) (ino size offset count : Nat) : Prop :=
  let expected := if size ≤ offset then 0 else min count (size - offset)
  (fs.read ino offset count).1 = (expected : Int) ∧
    (fs.read ino offset count).2.1.length = expected

/-- **The length of a read.**  It is right behind the end of the file, and before it exactly when
there is memory for the block buffer, `offset + count` does not wrap around and the result fits in
`int`. -/
theorem readsLength_iff (hi : fs.readInode ino = some r) (offset : Nat) {count : Nat}
    (hcount : count < 4294967296) :
    fs.ReadsLength ino r.size.toNat offset count ↔ r.size.toNat ≤ offset ∨
      (fs.env.heap 0 = true ∧ offset + count < 4294967296 ∧
        min count (r.size.toNat - offset) < 2147483648) := by
  have hsize := r.size.toNat_lt
  unfold ReadsLength
  by_cases hpast : r.size.toNat ≤ offset
  · simp [read_past hi hpast, hpast]
  have hlt : offset < r.size.toNat := by omega
  simp only [hpast, if_false, false_or]
  cases hheap : fs.env.heap 0 with
  | false =>
      rw [read_of_heap_false hi hlt hheap]
      constructor
      · intro h
        exfalso
        omega
      · rintro ⟨h, -⟩
        cases h
  | true =>
      obtain ⟨hret, hlen⟩ := read_inside hi hlt hheap count
      rw [hret, hlen]
      by_cases hsum : offset + count < 4294967296
      · rw [readCount_eq hlt hsum, toInt_eq_iff (by omega)]
        simp [hsum]
      · obtain ⟨hwrap, hne⟩ := readCount_of_wrap hlt hcount hsize (by omega)
        rw [hwrap]
        constructor
        · intro h
          exact absurd h.2.symm hne
        · intro h
          exact absurd h.2.1 hsum

theorem readsLength_iff_tight :
    (tightMount 10).ReadsLength 2 10 5 100 := by
  have hread := readInode_some (tightMount_isIno 10)
  have hsize : ((tightMount 10).vol.inode 2).size.toNat = 10 := by rw [tightMount_file]; rfl
  have h := (readsLength_iff hread 5 (show 100 < 4294967296 by omega)).mpr
    (Or.inr ⟨by rw [tightMount_env]; rfl, by omega, by omega⟩)
  rwa [hsize] at h

/-- Five bytes from the end, a count of `2^32 - 3` passes the test for the end. -/
theorem read_wraps_past_end : (tightMount 10).readInode 2 =
      some ((newInode modeFile 0 0 420).setSize 10) ∧
    ¬ (tightMount 10).ReadsLength 2 10 5 4294967293 := by
  have hread := readInode_some (tightMount_isIno 10)
  rw [tightMount_file] at hread
  refine ⟨hread, fun h => ?_⟩
  have hinside := (read_inside hread (show 5 < _ by decide) (by rw [tightMount_env]; rfl)
    4294967293).2
  have hlen := h.2
  rw [hinside] at hlen
  exact absurd hlen (by decide)

/-! ### What a write leaves -/

/-- `n` bytes have been written from `offset` on. -/
structure Written (ino offset n : Nat) (src : Bytes) (fs fs' : Mount) : Prop where
  step : Step {ino} fs fs'
  attrs : SameAttrs ((fs.vol.inode ino).setSize (fs'.vol.inode ino).size) (fs'.vol.inode ino)
  size : (fs'.vol.inode ino).size.toNat = max (fs.vol.inode ino).size.toNat (offset + n)
  inside : ∀ i, i < n → fs'.vol.byteAt (fs'.vol.inode ino) (offset + i) = src i
  outside : ∀ p, p < offset ∨ offset + n ≤ p →
    fs'.vol.byteAt (fs'.vol.inode ino) p = fs.vol.byteAt (fs.vol.inode ino) p

/-- The size that `lufirafs_write` stores. -/
theorem size_extend (r : Inode) {pos : Nat} (hpos : pos ≤ maxFileSize) :
    (if r.size.toNat < pos then r.setSize (UInt32.ofNat pos) else r).size.toNat =
      max r.size.toNat pos := by
  have hmax : maxFileSize = 16875520 := rfl
  split
  · have hlt : pos < 4294967296 := by omega
    show (UInt32.ofNat pos).toNat = _
    rw [UInt32.toNat_ofNat_of_lt' hlt]
    omega
  · omega

/-- The record is written back with the size adapted to what the loop has done. -/
theorem Wrote.commit {offset n : Nat} {r' : Inode}
    (h : Wrote ino offset n 0 src (fs.vol.inode ino) r' fs fs') (hi : fs.vol.IsIno ino)
    (hfit : offset + n ≤ maxFileSize) :
    Written ino offset n src fs (fs'.writeInode ino
      (if r'.size.toNat < offset + n then r'.setSize (UInt32.ofNat (offset + n)) else r')) := by
  have hptrs : SamePtrs r' (if r'.size.toNat < offset + n
      then r'.setSize (UInt32.ofNat (offset + n)) else r') := by
    split <;> exact ⟨rfl, rfl⟩
  have hcommit := h.edit.commit hi hptrs
  have hsize := size_extend r' hfit
  have hattrs : ∀ size, SameAttrs (r'.setSize size) ((if r'.size.toNat < offset + n
      then r'.setSize (UInt32.ofNat (offset + n)) else r').setSize size) := by
    intro size
    split <;> exact ⟨rfl, rfl, rfl, rfl, rfl, rfl⟩
  generalize (if r'.size.toNat < offset + n
    then r'.setSize (UInt32.ofNat (offset + n)) else r') = r'' at hptrs hcommit hsize hattrs
  rw [h.attrs.size] at hsize
  have hi' : fs'.vol.IsIno ino := h.edit.evolves.geo.isIno.mpr hi
  have hvol := (writeInode_becomes h.edit.ready hi' r'').vol
  have hbyte : ∀ p, (fs'.writeInode ino r'').vol.byteAt
      ((fs'.writeInode ino r'').vol.inode ino) p = fs'.vol.byteAt r' p := by
    intro p
    rw [hvol, Vol.setInode_inode_same]
    exact Vol.byteAt_samePtrs hptrs p
  refine ⟨hcommit, ?_, ?_, fun i hlt => ?_, fun p hp => ?_⟩
  · rw [hvol, Vol.setInode_inode_same]
    exact (h.attrs.setSize r''.size).trans (hattrs r''.size)
  · rw [hvol, Vol.setInode_inode_same, hsize]
  · rw [hbyte, h.inside i hlt, Nat.zero_add]
  · rw [hbyte, h.outside p hp]

/-- A write that is refused before its loop. -/
theorem write_refused (hi : fs.vol.IsIno ino) (src : Bytes) {offset count : Nat}
    (hno : maxFileSize < offset + count ∨ fs.env.heap 0 = false) :
    ∃ e, fs.write ino offset src count = (-1, fs.withEnv e) ∧ fs.env.Leads e := by
  unfold write
  rw [readInode_some hi]
  dsimp only
  by_cases hbig : maxFileSize < offset + count
  · rw [if_pos hbig]
    exact ⟨fs.env, rfl, Env.Leads.refl _⟩
  · obtain ⟨e, hmalloc, hleads⟩ := fs.kmalloc_eq
    rw [hno.resolve_left hbig] at hmalloc
    rw [if_neg hbig, hmalloc]
    exact ⟨e, rfl, hleads⟩

/-- The number of bytes that the loop of `lufirafs_write` gets through. -/
def wroteCount (fs : Mount) (ino offset : Nat) (src : Bytes) (count : Nat) : Nat :=
  count - (writeLoop src count offset count 0 (fs.vol.inode ino) fs.kmalloc.2).1

/-- **`lufirafs_write`** behind its checks: it writes the first bytes, as many as it gets blocks
for, and returns `-1` when these are none of several. -/
theorem write_written (h : fs.Ready) (hs : Sound fs.vol) (hi : fs.vol.IsIno ino)
    {offset count : Nat} (hfit : offset + count ≤ maxFileSize) (hheap : fs.env.heap 0 = true)
    (src : Bytes) :
    Written ino offset (fs.wroteCount ino offset src count) src fs
        (fs.write ino offset src count).2 ∧
      (fs.write ino offset src count).1 =
        if 0 < fs.wroteCount ino offset src count ∨ fs.wroteCount ino offset src count = count
        then (fs.wroteCount ino offset src count : Int) else -1 := by
  obtain ⟨e, hmalloc, hleads⟩ := fs.kmalloc_eq
  have hself : Sound (fs.vol.setInode ino (fs.vol.inode ino)) := by
    rw [Vol.setInode_self]
    exact hs
  have henv : Draft ino ∅ (fs.vol.inode ino) (fs.vol.inode ino) fs (fs.withEnv e) :=
    Draft.withEnv h hself hleads
  obtain ⟨rem, pos, r, fs', hloop, hle, hpos, hrest⟩ := writeLoop_wrote src count offset count 0
    (Nat.le_refl _) henv.ready hi hself
  have hall := (Wrote.ofDraft offset 0 src henv h hi).trans hrest
  rw [Nat.zero_add] at hall
  have hmax : maxFileSize = 16875520 := rfl
  have hdone := hall.commit hi (by omega)
  have hcount : fs.wroteCount ino offset src count = count - rem := by
    rw [wroteCount, hmalloc, hloop]
  rw [hcount]
  unfold write
  rw [readInode_some hi]
  dsimp only
  rw [if_neg (by omega), hmalloc, hheap]
  dsimp only
  rw [hloop]
  dsimp only
  by_cases hzero : rem = 0
  · rw [if_pos hzero, hpos]
    refine ⟨hdone, ?_⟩
    rw [if_pos (Or.inr (by omega)), toInt_of_lt (by omega)]
    omega
  · rw [if_neg hzero]
    refine ⟨hdone, ?_⟩
    dsimp only
    by_cases hn : 0 < count - rem
    · rw [if_pos hn, if_pos (Or.inl hn), toInt_of_lt (by omega)]
    · rw [if_neg hn, if_neg (by omega)]

/-! ### How far the loop gets -/

theorem writeLoop_le (src : Bytes) (fuel pos remaining done : Nat) (r : Inode) (fs : Mount) :
    (writeLoop src fuel pos remaining done r fs).1 ≤ remaining := by
  induction fuel generalizing pos remaining done r fs with
  | zero => exact Nat.le_refl _
  | succ fuel ih =>
      rw [writeLoop]
      split
      · exact Nat.zero_le _
      · dsimp only
        split
        · exact Nat.le_refl _
        · exact (ih _ _ _ _ _).trans (Nat.sub_le _ _)

theorem writeLoop_zero (src : Bytes) (fuel pos done : Nat) (r : Inode) (fs : Mount) :
    (writeLoop src fuel pos 0 done r fs).1 = 0 := by
  cases fuel <;> simp [writeLoop]

/-- The loop gets through the bytes it has got through before, if it is asked for these only: every
round but the last writes up to the end of a block, so that its chunk is the same. -/
theorem writeLoop_again (src : Bytes) (fuel fuel' pos remaining done : Nat) (r : Inode) (fs : Mount)
    (hfuel : remaining ≤ fuel)
    (hfuel' : remaining - (writeLoop src fuel pos remaining done r fs).1 ≤ fuel') :
    (writeLoop src fuel' pos (remaining - (writeLoop src fuel pos remaining done r fs).1)
      done r fs).1 = 0 := by
  induction fuel generalizing fuel' pos remaining done r fs with
  | zero =>
      obtain rfl : remaining = 0 := by omega
      rw [Nat.zero_sub]
      exact writeLoop_zero _ _ _ _ _ _
  | succ fuel ih =>
      by_cases hrem : remaining = 0
      · subst hrem
        rw [Nat.zero_sub]
        exact writeLoop_zero _ _ _ _ _ _
      by_cases h0 : (fs.inodeGetBlock r (pos / 8192) true).1 = 0
      · have hnone : (writeLoop src (fuel + 1) pos remaining done r fs).1 = remaining := by
          simp [writeLoop, hrem, h0]
        rw [hnone, Nat.sub_self]
        exact writeLoop_zero _ _ _ _ _ _
      have hmod : pos % 8192 < 8192 := Nat.mod_lt _ (by omega)
      generalize hnext : (fun (chunk : Nat) =>
        ((if pos % 8192 ≠ 0 ∨ chunk ≠ 8192
            then (fs.inodeGetBlock r (pos / 8192) true).2.2.readDataBlock
              (fs.inodeGetBlock r (pos / 8192) true).1
            else (none, (fs.inodeGetBlock r (pos / 8192) true).2.2)).2.writeDataBlock
          (fs.inodeGetBlock r (pos / 8192) true).1
          (copyIn ((if pos % 8192 ≠ 0 ∨ chunk ≠ 8192
            then (fs.inodeGetBlock r (pos / 8192) true).2.2.readDataBlock
              (fs.inodeGetBlock r (pos / 8192) true).1
            else (none, (fs.inodeGetBlock r (pos / 8192) true).2.2)).1.getD zeros)
              (pos % 8192) chunk
            fun i => src (done + i))).2) = next
      have hround : ∀ k m, m ≠ 0 → writeLoop src (k + 1) pos m done r fs =
          writeLoop src k (pos + min (8192 - pos % 8192) m) (m - min (8192 - pos % 8192) m)
            (done + min (8192 - pos % 8192) m) (fs.inodeGetBlock r (pos / 8192) true).2.1
            (next (min (8192 - pos % 8192) m)) := by
        intro k m hm
        rw [writeLoop, if_neg hm, ← hnext]
        dsimp only
        rw [if_neg h0]
      rw [hround fuel remaining hrem] at hfuel' ⊢
      generalize hchunk : min (8192 - pos % 8192) remaining = chunk at hfuel' ⊢
      have hle := writeLoop_le src fuel (pos + chunk) (remaining - chunk) (done + chunk)
        (fs.inodeGetBlock r (pos / 8192) true).2.1 (next chunk)
      have ih' := ih (fuel' - 1) (pos + chunk) (remaining - chunk) (done + chunk)
        (fs.inodeGetBlock r (pos / 8192) true).2.1 (next chunk)
      generalize (writeLoop src fuel (pos + chunk) (remaining - chunk) (done + chunk)
        (fs.inodeGetBlock r (pos / 8192) true).2.1 (next chunk)).1 = rem at hfuel' hle ih' ⊢
      obtain ⟨k, rfl⟩ : ∃ k, fuel' = k + 1 := ⟨fuel' - 1, by omega⟩
      have hsame : min (8192 - pos % 8192) (remaining - rem) = chunk := by omega
      rw [hround k _ (by omega), hsame,
        show remaining - rem - chunk = remaining - chunk - rem by omega]
      exact ih' (by omega) (by omega)

theorem wroteCount_le (fs : Mount) (ino offset : Nat) (src : Bytes) (count : Nat) :
    fs.wroteCount ino offset src count ≤ count := Nat.sub_le _ _

/-- Asked for as many bytes as it got through, the loop gets through them. -/
theorem wroteCount_again (fs : Mount) (ino offset : Nat) (src : Bytes) (count : Nat) :
    fs.wroteCount ino offset src (fs.wroteCount ino offset src count) =
      fs.wroteCount ino offset src count := by
  have hdone := writeLoop_again src count _ offset count 0 (fs.vol.inode ino) fs.kmalloc.2
    (Nat.le_refl count) (Nat.le_refl _)
  have hfold : count - (writeLoop src count offset count 0 (fs.vol.inode ino) fs.kmalloc.2).1 =
    fs.wroteCount ino offset src count := rfl
  rw [hfold] at hdone
  show _ - _ = _
  rw [hdone, Nat.sub_zero]

/-- The loop gets through something exactly when its first block can be had. -/
theorem wroteCount_pos_iff (h : fs.Ready) (hs : Sound fs.vol) (hi : fs.vol.IsIno ino)
    {offset count : Nat} (hcount : 0 < count) (hfit : offset + count ≤ maxFileSize) (src : Bytes) :
    0 < fs.wroteCount ino offset src count ↔
      fs.vol.Mappable (fun n => fs.env.heap (n + 1)) (fs.vol.inode ino) (offset / 8192) := by
  have hmax : maxFileSize = 16875520 := rfl
  have hleads : fs.env.Leads fs.kmalloc.2.env := ⟨1, 0, 0, rfl⟩
  have hself : Sound (fs.kmalloc.2.vol.setInode ino (fs.vol.inode ino)) := by
    rw [show fs.kmalloc.2.vol = fs.vol from rfl, Vol.setInode_self]
    exact hs
  have hget := inodeGetBlock_ne_zero_iff (h.withEnv hleads) hi hself
    (show offset / 8192 < 2060 by omega)
  obtain ⟨k, rfl⟩ : ∃ k, count = k + 1 := ⟨count - 1, by omega⟩
  unfold wroteCount
  refine Iff.trans ?_ hget
  by_cases h0 : (fs.kmalloc.2.inodeGetBlock (fs.vol.inode ino) (offset / 8192) true).1 = 0
  · have hnone : (writeLoop src (k + 1) offset (k + 1) 0 (fs.vol.inode ino) fs.kmalloc.2).1 =
        k + 1 := by
      simp [writeLoop, h0]
    rw [hnone]
    exact ⟨fun hpos => absurd hpos (by omega), fun hne => absurd h0 hne⟩
  · refine ⟨fun _ => h0, fun _ => ?_⟩
    have hmod : offset % 8192 < 8192 := Nat.mod_lt _ (by omega)
    have hsome : (writeLoop src (k + 1) offset (k + 1) 0 (fs.vol.inode ino) fs.kmalloc.2).1 ≤
        k + 1 - min (8192 - offset % 8192) (k + 1) := by
      rw [writeLoop, if_neg (by omega)]
      dsimp only
      rw [if_neg h0]
      exact writeLoop_le _ _ _ _ _ _ _
    omega

/-- One byte goes into an empty file. -/
theorem roomyMount_wroteCount {offset : Nat} (hoffset : offset < 98304) (src : Bytes) :
    roomyMount.wroteCount 2 offset src 1 = 1 := by
  have hmax : maxFileSize = 16875520 := rfl
  have hmap := wroteCount_pos_iff roomyMount_becomes.ready roomyMount_sound roomyMount_isIno
    (show 0 < 1 by omega) (show offset + 1 ≤ maxFileSize by omega) src
  have hroom : roomyMount.vol.Mappable (fun n => roomyMount.env.heap (n + 1))
      (roomyMount.vol.inode 2) (offset / 8192) := by
    unfold Vol.Mappable
    rw [if_pos (by omega)]
    refine Or.inr ⟨Vol.clearCount_pos_iff.mpr ⟨7, ?_⟩, roomyMount_heapOk 1⟩
    rw [roomyMount_becomes.vol]
    exact ⟨by decide, rfl⟩
  have hle := roomyMount.wroteCount_le 2 offset src 1
  have hpos := hmap.mpr hroom
  omega

theorem roomyMount_written {offset : Nat} (hoffset : offset < 98304) (src : Bytes) :
    Written 2 offset 1 src roomyMount (roomyMount.write 2 offset src 1).2 ∧
      (roomyMount.write 2 offset src 1).1 = ((1 : Nat) : Int) := by
  have hmax : maxFileSize = 16875520 := rfl
  have h := write_written roomyMount_becomes.ready roomyMount_sound roomyMount_isIno
    (show offset + 1 ≤ maxFileSize by omega) (roomyMount_heapOk 0) src
  rw [roomyMount_wroteCount hoffset] at h
  exact h

/-! ### Reading back -/

/-- One byte of a file, as `lufirafs_read` delivers it. -/
theorem read_one (h : fs.Ready) (hheap : fs.HeapOk) (hi : fs.vol.IsIno ino) {p : Nat}
    (hp : p < (fs.vol.inode ino).size.toNat) :
    (fs.read ino p 1).2.1 = [fs.vol.byteAt (fs.vol.inode ino) p] :=
  (read_bytes h hheap hi p 1 (by omega) hp).2

/-- A read of no bytes. -/
theorem read_none (hheap : fs.HeapOk) (hi : fs.vol.IsIno ino) (offset : Nat) :
    (fs.read ino offset 0).1 = 0 ∧ (fs.read ino offset 0).2.1 = [] := by
  have hread := readInode_some hi
  by_cases hpast : (fs.vol.inode ino).size.toNat ≤ offset
  · rw [read_past hread hpast]
    exact ⟨rfl, rfl⟩
  · have hlt := (fs.vol.inode ino).size.toNat_lt
    obtain ⟨hret, hlen⟩ := read_inside hread (Nat.not_le.mp hpast) (hheap 0) 0
    rw [readCount_eq (by omega) (by omega), Nat.zero_min] at hret hlen
    exact ⟨hret, List.length_eq_zero_iff.mp hlen⟩

theorem HeapOk.leads (h : fs.HeapOk) (hleads : fs.env.Leads fs'.env) : fs'.HeapOk := by
  obtain ⟨a, b, c, heq⟩ := hleads
  intro n
  rw [heq]
  exact h (n + a)

/-- What reading shows after `n` bytes were written at `offset`. -/
structure ReadsBack (ino offset n : Nat) (src : Bytes) (fs fs' : Mount) : Prop where
  data : (fs'.read ino offset n).1 = n ∧ (fs'.read ino offset n).2.1 = bytesFrom src 0 n
  kept : ∀ p, p < (fs.vol.inode ino).size.toNat → p < offset ∨ offset + n ≤ p →
    (fs'.read ino p 1).2.1 = (fs.read ino p 1).2.1
  size : (fs'.vol.inode ino).size.toNat =
    if n = 0 then (fs.vol.inode ino).size.toNat else max (fs.vol.inode ino).size.toNat (offset + n)
  attrs : ∀ j, fs.vol.IsIno j → j ≠ ino → fs'.vol.inode j = fs.vol.inode j
  bytes : ∀ j, fs.vol.IsIno j → j ≠ ino → ∀ p, p < (fs.vol.inode j).size.toNat →
    (fs'.read j p 1).2.1 = (fs.read j p 1).2.1

/-- Bytes that have been written are read back, as long as the size is the one expected. -/
theorem Written.readsBack {offset n : Nat} (h : Written ino offset n src fs fs') (hready : fs.Ready)
    (hheap : fs.HeapOk) (hi : fs.vol.IsIno ino) (hfit : offset + n ≤ maxFileSize)
    (hsize : 0 < n ∨ offset ≤ (fs.vol.inode ino).size.toNat) :
    ReadsBack ino offset n src fs fs' := by
  have hheap' : fs'.HeapOk := hheap.leads h.step.used
  have hi' : fs'.vol.IsIno ino := h.step.isIno.mpr hi
  have hmax : maxFileSize = 16875520 := rfl
  have hgrown := h.size
  refine ⟨?_, fun p hp hout => ?_, ?_, fun j hj hne => ?_, fun j hj hne p hp => ?_⟩
  · by_cases hn : n = 0
    · subst hn
      exact read_none hheap' hi' offset
    · obtain ⟨hret, hbytes⟩ := read_bytes h.step.ready hheap' hi' offset n (by omega) (by omega)
      rw [toInt_of_lt (by omega)] at hret
      refine ⟨hret, hbytes.trans (List.map_congr_left fun i hlt => ?_)⟩
      rw [Nat.zero_add]
      exact h.inside i (List.mem_range.mp hlt)
  · rw [read_one h.step.ready hheap' hi' (by omega), read_one hready hheap hi hp, h.outside p hout]
  · rw [hgrown]
    split <;> omega
  · exact h.step.evolves.inode hj hne
  · have hsame := h.step.evolves.inode hj hne
    rw [read_one h.step.ready hheap' (h.step.isIno.mpr hj) (by rw [hsame]; exact hp),
      read_one hready hheap hj hp,
      Vol.byteAt_evolves hready.dataStart_pos h.step.evolves hj hne p]

/-- What a read of one byte shows when it is not short of memory. -/
def shows (fs : Mount) (ino p : Nat) : List UInt8 :=
  ((fs.withEnv Env.allOk).read ino p 1).2.1

theorem shows_eq (h : fs.Ready) (hi : fs.vol.IsIno ino) (p : Nat) :
    fs.shows ino p = if p < (fs.vol.inode ino).size.toNat
      then [fs.vol.byteAt (fs.vol.inode ino) p] else [] := by
  have hready : (fs.withEnv Env.allOk).Ready :=
    ⟨h.laid, h.fits, h.cursorLo, h.cursorHi, Env.allOk_ioOk⟩
  unfold shows
  split
  · next hlt => exact read_one hready (fun _ => rfl) hi hlt
  · next hge =>
      have hread : (fs.withEnv Env.allOk).readInode ino = some (fs.vol.inode ino) :=
        readInode_some hi
      rw [read_past hread (Nat.not_lt.mp hge)]

/-- The two mounts have the same files: attributes, sizes and bytes. -/
structure SameFiles (fs fs' : Mount) : Prop where
  attrs : ∀ j, fs.vol.IsIno j → SameAttrs (fs.vol.inode j) (fs'.vol.inode j)
  bytes : ∀ j, fs.vol.IsIno j → ∀ p, fs'.shows j p = fs.shows j p

/-- Files that show the same attributes and hold the same bytes. -/
theorem SameFiles.of_bytes (h : fs.Ready) (h' : fs'.Ready)
    (hgeo : ∀ j, fs'.vol.IsIno j ↔ fs.vol.IsIno j)
    (hattrs : ∀ j, fs.vol.IsIno j → SameAttrs (fs.vol.inode j) (fs'.vol.inode j))
    (hbytes : ∀ j, fs.vol.IsIno j → ∀ p, p < (fs.vol.inode j).size.toNat →
      fs'.vol.byteAt (fs'.vol.inode j) p = fs.vol.byteAt (fs.vol.inode j) p) :
    SameFiles fs fs' := by
  refine ⟨hattrs, fun j hj p => ?_⟩
  rw [shows_eq h hj, shows_eq h' ((hgeo j).mpr hj), (hattrs j hj).size]
  split
  · next hlt => rw [hbytes j hj p hlt]
  · rfl

/-- A write that leaves the size alone and writes nothing leaves the files as they are. -/
theorem Written.sameFiles {offset : Nat} (h : Written ino offset 0 src fs fs') (hready : fs.Ready)
    (hle : offset ≤ (fs.vol.inode ino).size.toNat) : SameFiles fs fs' := by
  refine SameFiles.of_bytes hready h.step.ready (fun j => h.step.isIno) (fun j hj => ?_)
    (fun j hj p hp => ?_)
  · by_cases hne : j = ino
    · subst hne
      have hsize : (fs'.vol.inode j).size = (fs.vol.inode j).size :=
        UInt32.toNat_inj.mp (by rw [h.size]; omega)
      exact ⟨h.attrs.mode, hsize, h.attrs.linksCount, h.attrs.uid, h.attrs.gid, h.attrs.perm⟩
    · rw [h.step.evolves.inode hj hne]
      exact SameAttrs.refl _
  · by_cases hne : j = ino
    · subst hne
      exact h.outside p (by omega)
    · exact Vol.byteAt_evolves hready.dataStart_pos h.step.evolves hj hne p

/-- Two writes of the same bytes leave the same files. -/
theorem Written.sameFiles_of_written {offset n : Nat} {fs'' : Mount}
    (h : Written ino offset n src fs fs') (h' : Written ino offset n src fs fs'')
    (hready : fs.Ready) (hi : fs.vol.IsIno ino) : SameFiles fs' fs'' := by
  refine SameFiles.of_bytes h.step.ready h'.step.ready
    (fun j => h'.step.isIno.trans h.step.isIno.symm) (fun j hj => ?_) (fun j hj p hp => ?_)
  · have hj' := h.step.isIno.mp hj
    by_cases hne : j = ino
    · subst hne
      have hsize : (fs''.vol.inode j).size = (fs'.vol.inode j).size :=
        UInt32.toNat_inj.mp (by rw [h.size, h'.size])
      have hold := h.attrs
      rw [← hsize] at hold
      exact ⟨h'.attrs.mode.trans hold.mode.symm, hsize,
        h'.attrs.linksCount.trans hold.linksCount.symm, h'.attrs.uid.trans hold.uid.symm,
        h'.attrs.gid.trans hold.gid.symm, h'.attrs.perm.trans hold.perm.symm⟩
    · rw [h.step.evolves.inode hj' hne, h'.step.evolves.inode hj' hne]
      exact SameAttrs.refl _
  · have hj' := h.step.isIno.mp hj
    by_cases hne : j = ino
    · subst hne
      by_cases hin : offset ≤ p ∧ p < offset + n
      · have h1 := h.inside (p - offset) (by omega)
        have h2 := h'.inside (p - offset) (by omega)
        rw [Nat.add_sub_cancel' hin.1] at h1 h2
        rw [h1, h2]
      · rw [h.outside p (by omega), h'.outside p (by omega)]
    · rw [Vol.byteAt_evolves hready.dataStart_pos h.step.evolves hj' hne p,
        Vol.byteAt_evolves hready.dataStart_pos h'.step.evolves hj' hne p]

/-- A short write has the effect of a write of the bytes it reports, and a failed one has none. -/
def ReportsWrite (fs : Mount) (ino offset : Nat) (src : Bytes) (count : Nat) : Prop :=
  (∀ w : Nat, 0 < w → w < count → (fs.write ino offset src count).1 = w →
    (fs.write ino offset src w).1 = w ∧
      SameFiles (fs.write ino offset src w).2 (fs.write ino offset src count).2) ∧
  ((fs.write ino offset src count).1 = -1 → SameFiles fs (fs.write ino offset src count).2)

/-- Every short write has the effect of a write of the bytes it reports. -/
theorem write_short (h : fs.Ready) (hs : Sound fs.vol) (hi : fs.vol.IsIno ino)
    {offset count w : Nat} (hw : 0 < w) (hret : (fs.write ino offset src count).1 = w) :
    (fs.write ino offset src w).1 = w ∧
      SameFiles (fs.write ino offset src w).2 (fs.write ino offset src count).2 := by
  by_cases hno : maxFileSize < offset + count ∨ fs.env.heap 0 = false
  · obtain ⟨e, hwrite, -⟩ := write_refused hi src hno
    rw [hwrite] at hret
    omega
  have hfit : offset + count ≤ maxFileSize := by omega
  have hheap : fs.env.heap 0 = true := by
    cases hok : fs.env.heap 0 with
    | true => rfl
    | false => exact absurd (Or.inr hok) hno
  obtain ⟨hlong, hret'⟩ := write_written h hs hi hfit hheap src
  have hcount : fs.wroteCount ino offset src count = w := by
    rw [hret] at hret'
    split at hret' <;> omega
  have hle := fs.wroteCount_le ino offset src count
  obtain ⟨hshort, hall⟩ := write_written h hs hi (show offset + w ≤ maxFileSize by omega) hheap src
  have hagain := fs.wroteCount_again ino offset src count
  rw [hcount] at hagain hlong
  rw [hagain] at hshort hall
  refine ⟨hall.trans (if_pos (Or.inr rfl)), ?_⟩
  exact hshort.sameFiles_of_written hlong h hi

end Mount

end LufiraFs
