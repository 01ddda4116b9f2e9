import LufiraOS.Driver.Runs
import LufiraOS.Lib.WriteBack

/-!
# Write-back of the metadata

`lufirafs_t` caches the metadata blocks, and `lufirafs_sync` writes back those
that `mark_dirty` has marked.  `Durable` is the write-back invariant for this
cache.  It asks nothing of the contents of the bitmap and of the inode table,
and of the environment only that disk writes succeed.

Every write of the driver marks the block it changes, with one exception: the
inode record has 76 bytes, so some records lie across a block boundary
(`Straddles`), and `lufirafs_write_inode` marks only the block in which the
record begins.
-/

namespace LufiraFs

open ByteStore Mount

/-- The record of `ino` lies in two blocks of the inode table. -/
def Straddles (ino : Nat) : Prop := 8192 < (ino - 1) * 76 % 8192 + 76

instance (ino : Nat) : Decidable (Straddles ino) := inferInstanceAs (Decidable (_ < _))

/-- The four slots of the table whose records lie across a block boundary. -/
theorem straddles_iff {ino : Nat} (h1 : 1 ≤ ino) (h2 : ino ≤ 512) :
    Straddles ino ↔ ino = 108 ∨ ino = 216 ∨ ino = 324 ∨ ino = 432 := by
  have hall : ∀ i : Fin 512, Straddles (i.val + 1) ↔
      i.val + 1 = 108 ∨ i.val + 1 = 216 ∨ i.val + 1 = 324 ∨ i.val + 1 = 432 := by
    decide +kernel
  have hthis := hall ⟨ino - 1, by omega⟩
  rwa [Nat.sub_add_cancel h1] at hthis

namespace Mount

/-- The write-back invariant of a mount of a region that starts at sector `lba`
and has the layout of `sb₀`. -/
structure Durable (sb₀ : Superblock) (lba : UInt32) (fs : Mount) : Prop where
  laid : Laid sb₀
  counters : ∃ blocks inodes, fs.sb = sb₀.withFree blocks inodes
  start : fs.lbaOffset = lba
  fits : lba.toNat + sb₀.totalBlocks.toNat * 16 ≤ 4294967296
  cursor : fs.nextFreeBlock ≤ sb₀.totalBlocks.toNat
  wr : ∀ n, fs.env.wr n = true
  super : Superblock.ofBytes fs.image = fs.sb
  behind : Behind 8192 sb₀.dataStart.toNat (lba.toNat * 512) fs.image fs.disk fs.dirty

/-! ## Results that do not depend on the environment -/

section

variable (fs : Mount)

include fs

/-- The search for a free inode reads the table only. -/
theorem scanFreeInode_withEnv (e : Env) (ino n : Nat) :
    (fs.withEnv e).scanFreeInode ino n = fs.scanFreeInode ino n := by
  rw [scanFreeInode_eq, scanFreeInode_eq]
  rfl

/-- The environment is no part of the superblock. -/
theorem withEnv_inodeCount (e : Env) : (fs.withEnv e).inodeCount = fs.inodeCount := rfl

/-- Block numbers are 32-bit words. -/
theorem inodeGetBlock_lt (r : Inode) (b : Nat) : (fs.inodeGetBlock r b false).1 < 4294967296 := by
  unfold inodeGetBlock
  split
  · rw [if_neg (by simp)]
    exact (r.direct _).toNat_lt
  split
  · exact Nat.zero_lt_succ _
  split
  · simp
  unfold indirectGetBlock
  split
  · exact Nat.zero_lt_succ _
  split
  · exact Nat.zero_lt_succ _
  · next buf _ _ =>
    simp only [Bool.false_eq_true, and_false, if_false]
    exact UInt32.toNat_lt _

end

namespace Durable

variable {sb₀ : Superblock} {lba : UInt32} {fs : Mount} {b ino : Nat}

section

variable (h : Durable sb₀ lba fs)

include h

/-- The superblock in memory keeps the layout of the one on the device. -/
theorem dataStart_eq : fs.dataStart = sb₀.dataStart.toNat := by
  obtain ⟨blocks, inodes, hsb⟩ := h.counters
  rw [dataStart, hsb]
  rfl

/-- So it does the number of blocks. -/
theorem totalBlocks_eq : fs.totalBlocks = sb₀.totalBlocks.toNat := by
  obtain ⟨blocks, inodes, hsb⟩ := h.counters
  rw [totalBlocks, hsb]
  rfl

/-- And so it stays well laid out. -/
theorem laid_sb : Laid fs.sb := by
  obtain ⟨blocks, inodes, hsb⟩ := h.counters
  rw [hsb]
  exact h.laid.withFree blocks inodes

/-! ## The elementary operations -/

/-- Reading uses up the environment only. -/
theorem uses {fs' : Mount} (huses : Uses fs fs') : Durable sb₀ lba fs' := by
  obtain ⟨e, rfl, a, b, c, rfl⟩ := huses
  exact ⟨h.1, h.2, h.3, h.4, h.5, fun n => h.6 (n + c), h.7, h.8⟩

/-- `kmalloc` touches neither image nor device. -/
theorem kmalloc {ok : Bool} {fs' : Mount} (heq : fs.kmalloc = (ok, fs')) : Durable sb₀ lba fs' :=
  h.uses (fs.kmalloc_uses.ofEq heq)

/-- Reading a block of data changes nothing. -/
theorem readDataBlock (b : Nat) : Durable sb₀ lba (fs.readDataBlock b).2 :=
  h.uses (fs.readDataBlock_uses b)

/-- Data blocks lie behind the metadata on the device. -/
theorem writeDataBlock (b : Nat) (buf : Bytes) : Durable sb₀ lba (fs.writeDataBlock b buf).2 := by
  have hdata := h.dataStart_eq
  have htotal := h.totalBlocks_eq
  have hfits := h.fits
  unfold Mount.writeDataBlock
  split
  · exact h
  · next hin =>
    have hlba : fs.lbaOf b = lba.toNat + b * 16 := by
      rw [lbaOf, h.start]
      exact Nat.mod_eq_of_lt (by omega)
    refine ⟨h.1, h.2, h.3, h.4, h.5, fun n => h.6 _, h.7, h.behind.elsewhere ?_⟩
    intro a _ hhi
    simp only [diskWriteSectors, h.wr 0, if_true]
    apply copyIn_outside
    rw [hlba]
    omega

/-- A metadata write behind block 0 that stays inside the block it marks. -/
theorem change {image : Bytes} {lo : Nat} (len : Nat) (hlo : 8192 ≤ lo)
    (himage : ∀ a, a < lo ∨ lo + len ≤ a → image a = fs.image a)
    (hlen : lo % 8192 + len ≤ 8192) :
    Durable sb₀ lba ({ fs with image := image }.markDirty (lo / 8192)) := by
  have hdata := h.dataStart_eq
  have hblock0 : Superblock.ofBytes image = fs.sb := by
    rw [← h.super]
    exact Superblock.ofBytes_congr fun a ha => himage a (by omega)
  unfold markDirty
  split
  · next hout =>
    refine ⟨h.1, h.2, h.3, h.4, h.5, h.6, hblock0, h.behind.touch (fun _ => id) ?_⟩
    intro b k hb hk _
    have hout' : fs.dataStart ≤ lo / 8192 := hout
    exact himage _ (by omega)
  refine ⟨h.1, h.2, h.3, h.4, h.5, h.6, hblock0, h.behind.mark ?_⟩
  intro b k _ hk hb
  exact himage _ (by omega)

/-- The bit and its sector's mark are set together. -/
theorem blockBitmapSet (hb : b < 4294967296) (u : Bool) :
    Durable sb₀ lba (fs.blockBitmapSet b u) := by
  have hstart := h.laid_sb.bitmapStart
  have hbase : fs.bitmapBase = 8192 := by rw [bitmapBase, hstart]
  have hblock : (fs.sb.bitmapStart.toNat + b / 8 / 8192) % 4294967296 =
      (fs.bitmapBase + b / 8) / 8192 := by
    rw [hbase, hstart]
    omega
  unfold Mount.blockBitmapSet
  rw [hblock]
  refine h.change 1 (by omega) ?_ (by omega)
  intro a ha
  apply setBitAt_outside
  omega

/-- Writing the superblock with other counters. -/
theorem writeSuperblock {sb : Superblock}
    (hsb : ∃ blocks inodes, sb = fs.sb.withFree blocks inodes) :
    Durable sb₀ lba { fs with sb := sb }.writeSuperblock := by
  have hdata := h.dataStart_eq
  have hpos := h.laid.dataStart
  have hcounters : ∃ blocks inodes, sb = sb₀.withFree blocks inodes := by
    obtain ⟨blocks, inodes, rfl⟩ := hsb
    obtain ⟨blocks', inodes', heq⟩ := h.counters
    exact ⟨blocks, inodes, by rw [heq]; rfl⟩
  unfold Mount.writeSuperblock markDirty
  split
  · next hzero =>
    obtain ⟨blocks, inodes, rfl⟩ := hsb
    have hzero' : fs.dataStart ≤ 0 := hzero
    omega
  refine ⟨h.1, hcounters, h.3, h.4, h.5, h.6, Superblock.ofBytes_copyIn _ _, h.behind.mark ?_⟩
  intro b k _ hk hb
  exact copyIn_outside (by omega)

/-- Writing a record that lies in one block. -/
theorem writeInode (hino : ¬ Straddles ino) (r : Inode) :
    Durable sb₀ lba (fs.writeInode ino r) := by
  unfold Mount.writeInode
  split
  · exact h
  · next hvalid =>
    have hcount := h.laid_sb.inodeCount
    have hoff : fs.inodeOff ino = (1 + fs.sb.bitmapBlocks.toNat) * 8192 + (ino - 1) * 76 :=
      inodeOff_lt h.laid_sb (by unfold inodeCount at hvalid; omega)
    have hmod : fs.inodeOff ino % 8192 = (ino - 1) * 76 % 8192 := by
      rw [hoff, Nat.mul_comm (1 + fs.sb.bitmapBlocks.toNat), Nat.mul_add_mod]
    unfold Straddles at hino
    refine h.change 76 (by omega) ?_ (by omega)
    intro a ha
    exact copyIn_outside ha

/-! ## Blocks and inodes -/

/-- A block is claimed in the bitmap. -/
theorem claimBlock (hb : b < sb₀.totalBlocks.toNat) : Durable sb₀ lba (fs.claimBlock b).2 := by
  have htotal := h.laid.total
  have hlt : b < 4294967296 := by omega
  have hmark := h.blockBitmapSet hlt true
  dsimp only [Mount.claimBlock]
  split
  · next heq => exact (hmark.kmalloc heq).blockBitmapSet hlt false
  · next fs₁ heq =>
    have hzero := (hmark.kmalloc heq).writeDataBlock b zeros
    have hcount := hzero.writeSuperblock (withFree_takeBlock _)
    exact ⟨hcount.1, hcount.2, hcount.3, hcount.4, hb, hcount.6, hcount.7, hcount.8⟩

/-- `alloc_block`. -/
theorem allocBlock : Durable sb₀ lba fs.allocBlock.2 := by
  have htotal := h.totalBlocks_eq
  have hcursor := h.cursor
  unfold Mount.allocBlock
  split
  · next heq =>
    obtain ⟨_, hhi, _⟩ := scanClear_some heq
    exact h.claimBlock (by omega)
  split
  · next heq =>
    obtain ⟨_, hhi, _⟩ := scanClear_some heq
    exact h.claimBlock (by omega)
  · exact h

/-- `free_data_block`. -/
theorem freeDataBlock (hb : b < 4294967296) : Durable sb₀ lba (fs.freeDataBlock b) := by
  unfold Mount.freeDataBlock
  split
  · exact h
  · exact (h.blockBitmapSet hb false).writeSuperblock (withFree_giveBlock _)

/-- `alloc_inode` counts, and stores no inode. -/
theorem allocInode : Durable sb₀ lba fs.allocInode.2 := by
  unfold Mount.allocInode
  split
  · exact h.writeSuperblock (withFree_takeInode _)
  · exact h

/-- An inode within one block of the table is cleared. -/
theorem freeInodeSlot (hino : ¬ Straddles ino) :
    Durable sb₀ lba (fs.freeInodeSlot ino) :=
  (h.writeInode hino Inode.zero).writeSuperblock (withFree_giveInode _)

end

variable (h : Durable sb₀ lba fs)

include h

variable (r : Inode)

/-- `inode_get_block` behind the indirect block. -/
theorem indirectGetBlock (idx : Nat) (create : Bool) :
    Durable sb₀ lba (fs.indirectGetBlock r idx create).2.2 := by
  unfold Mount.indirectGetBlock
  split
  · next heq => exact h.kmalloc heq
  · next fs₁ heq =>
    have hread := (h.kmalloc heq).readDataBlock r.indirect.toNat
    split
    · next heq' => rwa [heq'] at hread
    · next heq' =>
      rw [heq'] at hread
      dsimp only
      split
      · have halloc := hread.allocBlock
        split
        · exact halloc
        · exact halloc.writeDataBlock _ _
      · exact hread

/-- `inode_get_block`. -/
theorem inodeGetBlock (b : Nat) (create : Bool) :
    Durable sb₀ lba (fs.inodeGetBlock r b create).2.2 := by
  have halloc := h.allocBlock
  unfold Mount.inodeGetBlock
  dsimp only
  split
  · split
    · split <;> exact halloc
    · exact h
  split
  · exact h
  split
  · split
    · split
      · exact halloc
      · exact halloc.indirectGetBlock _ _ _
    · exact h
  · exact h.indirectGetBlock _ _ _

/-- A block of a file is read. -/
theorem fetchBlock (b : Nat) : Durable sb₀ lba (fs.fetchBlock r b).2 :=
  h.uses (fs.fetchBlock_uses r b)

/-! ## Directories -/

/-- The block loop of `add_dirent`. -/
theorem addDirentBlocks (name : CStr) (entryIno b n : Nat) :
    Durable sb₀ lba (Mount.addDirentBlocks r name entryIno b n fs).2 := by
  induction n generalizing b fs with
  | zero => exact h
  | succ n ih =>
    have hfetch := h.fetchBlock r b
    unfold addDirentBlocks
    split
    · next heq =>
      rw [heq] at hfetch
      exact ih hfetch _
    · next heq =>
      rw [heq] at hfetch
      split
      · exact hfetch.writeDataBlock _ _
      · exact ih hfetch _

/-- The directory grows by a block. -/
theorem addDirentGrow {d : Nat} (hd : ¬ Straddles d) (r : Inode) (name : CStr) (entryIno : Nat) :
    Durable sb₀ lba (fs.addDirentGrow d r name entryIno).2 := by
  have hget := h.inodeGetBlock r (blocksOf r.size.toNat) true
  unfold Mount.addDirentGrow
  dsimp only
  split
  · exact hget
  · exact (hget.writeDataBlock _ _).writeInode hd _

/-- `add_dirent`. -/
theorem addDirent {d : Nat} (hd : ¬ Straddles d) (name : CStr)
    (entryIno : Nat) : Durable sb₀ lba (fs.addDirent d name entryIno).2 := by
  unfold Mount.addDirent
  split
  · exact h
  · next r _ =>
    split
    · next heq => exact h.kmalloc heq
    · next heq =>
      have hblocks := (h.kmalloc heq).addDirentBlocks r name entryIno 0 (blocksOf r.size.toNat)
      split
      · next heq' => rwa [heq'] at hblocks
      · next heq' =>
        rw [heq'] at hblocks
        exact hblocks.addDirentGrow hd _ _ _

/-- The block loop of `remove_dirent`. -/
theorem removeDirentBlocks (name : CStr) (b n : Nat) :
    Durable sb₀ lba (Mount.removeDirentBlocks r name b n fs).2 := by
  induction n generalizing b fs with
  | zero => exact h
  | succ n ih =>
    have hfetch := h.fetchBlock r b
    unfold removeDirentBlocks
    split
    · next heq =>
      rw [heq] at hfetch
      exact ih hfetch _
    · next heq =>
      rw [heq] at hfetch
      split
      · exact hfetch.writeDataBlock _ _
      · exact ih hfetch _

/-- `remove_dirent`. -/
theorem removeDirent (d : Nat) (name : CStr) : Durable sb₀ lba (fs.removeDirent d name).2 := by
  unfold Mount.removeDirent
  split
  · exact h
  split
  · next heq => exact h.kmalloc heq
  · next heq => exact (h.kmalloc heq).removeDirentBlocks _ _ _ _

/-! ## The calls -/

/-- The first two entries of a directory. -/
theorem addDots (hino : ¬ Straddles ino) (parentIno : Nat)
    (mode : UInt32) : Durable sb₀ lba (fs.addDots ino parentIno mode).2 := by
  have hdot := h.addDirent hino dot ino
  unfold Mount.addDots
  split
  · split
    · next heq => rwa [heq] at hdot
    · next heq =>
      rw [heq] at hdot
      exact hdot.addDirent hino _ _
  · exact h

/-- `lufirafs_create` behind its checks. -/
theorem createInode {parentIno : Nat} (hparent : ¬ Straddles parentIno)
    (hino : ¬ Straddles ino) (name : CStr) (mode uid gid perm : UInt32) :
    Durable sb₀ lba (fs.createInode parentIno name mode uid gid perm ino).2 := by
  have hdots := (h.writeInode hino (newInode mode uid gid perm)).addDots hino parentIno mode
  unfold Mount.createInode
  split
  · next heq =>
    rw [heq] at hdots
    exact hdots.freeInodeSlot hino
  · next heq =>
    rw [heq] at hdots
    have hadd := hdots.addDirent hparent name ino
    split
    · next heq' =>
      rw [heq'] at hadd
      exact hadd.freeInodeSlot hino
    · next heq' => rwa [heq'] at hadd

/-- The blocks of a file are given back. -/
theorem releaseBlocks (b n : Nat) : Durable sb₀ lba (Mount.releaseBlocks r b n fs) := by
  induction n generalizing b fs with
  | zero => exact h
  | succ n ih =>
    have hget := h.inodeGetBlock r b false
    have hlt := inodeGetBlock_lt fs r b
    unfold releaseBlocks
    dsimp only
    apply ih
    split
    · exact hget
    · exact hget.freeDataBlock hlt

/-- `lufirafs_unlink` behind its checks. -/
theorem unlinkInode (hino : ¬ Straddles ino) (parentIno : Nat)
    (name : CStr) (r : Inode) : Durable sb₀ lba (fs.unlinkInode parentIno name ino r) := by
  have hloop := h.releaseBlocks r 0 (blocksOf r.size.toNat)
  dsimp only [Mount.unlinkInode, Mount.releaseInode]
  split
  · exact (hloop.freeInodeSlot hino).removeDirent _ _
  · exact ((hloop.freeDataBlock r.indirect.toNat_lt).freeInodeSlot hino).removeDirent _ _

/-- `lufirafs_unlink` of an inode within one block of the table. -/
theorem unlink (parentIno : Nat) (name : CStr)
    (hino : ∀ ino, (fs.lookupInDir parentIno name).1 = some ino → ¬ Straddles ino) :
    Durable sb₀ lba (fs.unlink parentIno name).2 := by
  have hlook := h.uses (fs.lookupInDir_uses parentIno name)
  unfold Mount.unlink
  split
  · exact h
  split
  · next heq => rwa [heq] at hlook
  · next ino fs₁ heq =>
    rw [heq] at hlook hino
    have hslot := hino ino rfl
    split
    · exact hlook
    split
    · exact hlook
    · next r _ =>
      split
      · have hcount := hlook.uses (fs₁.countExtra_uses ino (blocksOf r.size.toNat * 128 + 1) 0)
        dsimp only
        split
        · exact hcount
        · exact hcount.unlinkInode hslot _ _ _
      · exact hlook.unlinkInode hslot _ _ _

/-- `lufirafs_create`, where the free inode it finds is within one block of the table. -/
theorem create {parentIno : Nat} (hparent : ¬ Straddles parentIno)
    (name : CStr) (mode uid gid perm : UInt32)
    (hino : ∀ ino, fs.scanFreeInode 1 fs.inodeCount = some ino → ¬ Straddles ino) :
    Durable sb₀ lba (fs.create parentIno name mode uid gid perm).2 := by
  have hlook := h.uses (fs.lookupInDir_uses parentIno name)
  obtain ⟨e, henv, -⟩ := fs.lookupInDir_uses parentIno name
  unfold Mount.create
  split
  · exact h
  split
  · next heq => rwa [heq] at hlook
  · next fs₁ heq =>
    rw [heq] at hlook henv
    obtain rfl : fs₁ = fs.withEnv e := henv
    have halloc := hlook.allocInode
    dsimp only
    split
    · exact halloc
    · next hne =>
      refine halloc.createInode hparent ?_ _ _ _ _ _
      have hscan := scanFreeInode_withEnv fs e 1 fs.inodeCount
      cases hfound : fs.scanFreeInode 1 fs.inodeCount with
      | none =>
        rw [hfound] at hscan
        exact absurd (by simp [Mount.allocInode, hscan, withEnv_inodeCount]) hne
      | some ino =>
        rw [hfound] at hscan
        have hslot := hino ino hfound
        simpa [Mount.allocInode, hscan, withEnv_inodeCount] using hslot

/-- The loop of `lufirafs_write`. -/
theorem writeLoop (src : Bytes) (fuel pos remaining done : Nat)
    (r : Inode) : Durable sb₀ lba (Mount.writeLoop src fuel pos remaining done r fs).2.2.2 := by
  induction fuel generalizing pos remaining done r fs with
  | zero => exact h
  | succ fuel ih =>
    have hget := h.inodeGetBlock r (pos / 8192) true
    unfold writeLoop
    dsimp only
    split
    · exact h
    split
    · exact hget
    apply ih
    apply writeDataBlock
    split
    · exact hget.readDataBlock _
    · exact hget

/-- `lufirafs_write`. -/
theorem write (hino : ¬ Straddles ino) (offset : Nat)
    (src : Bytes) (count : Nat) : Durable sb₀ lba (fs.write ino offset src count).2 := by
  unfold Mount.write
  split
  · exact h
  · next r _ =>
    split
    · exact h
    split
    · next heq => exact h.kmalloc heq
    · next heq =>
      have hloop := (h.kmalloc heq).writeLoop src count offset count 0 r
      dsimp only
      split <;> exact hloop.writeInode hino _

/-- The loop of `lufirafs_truncate`. -/
theorem truncateLoop (b n : Nat) (r : Inode) (ind : Option Bytes)
    (dirty : Bool) : Durable sb₀ lba (Mount.truncateLoop b n r ind dirty fs).2.2.2 := by
  induction n generalizing b fs r ind dirty with
  | zero => exact h
  | succ n ih =>
    have hget := h.inodeGetBlock r b false
    have hfree := hget.freeDataBlock (inodeGetBlock_lt fs r b)
    unfold truncateLoop
    dsimp only
    split
    · exact ih hget _ _ _ _
    split
    · exact ih hfree _ _ _ _
    split <;> exact ih hfree _ _ _ _

/-- The indirect block is read where it is needed. -/
theorem loadIndirect (needed : Bool) (b : Nat) : Durable sb₀ lba (fs.loadIndirect needed b).2 := by
  unfold Mount.loadIndirect
  split
  · split
    · next heq => exact h.kmalloc heq
    · next heq => exact (h.kmalloc heq).readDataBlock _
  · exact h

/-- The indirect block is written back. -/
theorem storeIndirect (b : Nat) (ind : Option Bytes) (dirty : Bool) :
    Durable sb₀ lba (fs.storeIndirect b ind dirty) := by
  unfold Mount.storeIndirect
  split
  · split
    · exact h.writeDataBlock _ _
    · exact h
  · exact h

/-- A file gets shorter. -/
theorem shrink (newSize : Nat) : Durable sb₀ lba (fs.shrink r newSize).2 := by
  dsimp only [Mount.shrink]
  generalize decide (r.indirect ≠ 0 ∧ 12 < blocksOf r.size.toNat ∧
    blocksOf newSize < blocksOf r.size.toNat) = needed
  have hload := h.loadIndirect needed r.indirect.toNat
  generalize fs.loadIndirect needed r.indirect.toNat = loaded at hload ⊢
  generalize (if needed = true ∧ loaded.1 = none then max (blocksOf newSize) 12
    else blocksOf r.size.toNat) = loopEnd
  have hloop := hload.truncateLoop (blocksOf newSize) (loopEnd - blocksOf newSize) r loaded.1 false
  generalize Mount.truncateLoop (blocksOf newSize) (loopEnd - blocksOf newSize) r loaded.1 false
    loaded.2 = trimmed at hloop ⊢
  have hstore := hloop.storeIndirect trimmed.1.indirect.toNat trimmed.2.1 trimmed.2.2.1
  split
  · exact hstore.freeDataBlock (UInt32.toNat_lt _)
  · exact hstore

/-- `lufirafs_truncate`. -/
theorem truncate (hino : ¬ Straddles ino) (newSize : Nat) :
    Durable sb₀ lba (fs.truncate ino newSize).2 := by
  unfold Mount.truncate
  split
  · exact h
  apply writeInode _ hino
  split
  · exact h.shrink _ _
  · exact h

end Durable

end Mount

end LufiraFs
