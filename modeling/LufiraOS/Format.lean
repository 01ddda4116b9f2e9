import LufiraOS.Lib.Bytes
import Mathlib.Data.Fintype.Basic

/-!
# The on-disk format of LufiraFS

`kernel/fs/lufirafs/lufirafs_format.h`: the superblock, the inode record, the
directory entry and the layout of a region, shared by the kernel driver and the
host tool.  Record fields are 32-bit words and keep that type; computations on
them are done on natural numbers, with the reduction modulo `2^32` written out
where the C code can wrap.

The constants of the header appear as numerals:

* `8192`, the block size, holds `2048` block pointers or `128` directory entries;
* `76`, the inode record, `512` of them in the table;
* `64`, the directory entry: a 32-bit inode number and `60` bytes of name, of
  which at most `59` are characters;
* `12` direct blocks and one indirect block for each inode.
-/

namespace LufiraFs

open ByteStore

/-- `LUFIRAFS_MODE_FREE`. -/
def modeFree : UInt32 := 0

/-- `LUFIRAFS_MODE_FILE`. -/
def modeFile : UInt32 := 1

/-- `LUFIRAFS_MODE_DIR`. -/
def modeDir : UInt32 := 2

/-- `LUFIRAFS_MAGIC`. -/
def fsMagic : UInt32 := 0x31534C4F

/-- `LUFIRAFS_DEFAULT_FILE_PERM`, octal 644. -/
def defaultFilePerm : UInt32 := 420

/-- `LUFIRAFS_DEFAULT_DIR_PERM`, octal 755. -/
def defaultDirPerm : UInt32 := 493

/-- `LUFIRAFS_MAX_FILE_SIZE`: twelve direct blocks and 2048 indirect ones. -/
def maxFileSize : Nat := (12 + 2048) * 8192

/-- The number of blocks that `size` bytes take, computed as the C code does:
`(size + 8191) / 8192` on 32-bit words, so that the sum wraps for the topmost
sizes. -/
def blocksOf (size : Nat) : Nat := (size + 8191) % 4294967296 / 8192

/-- `lufirafs_superblock_t`. -/
structure Superblock where
  magic : UInt32
  version : UInt32
  blockSize : UInt32
  totalBlocks : UInt32
  bitmapStart : UInt32
  bitmapBlocks : UInt32
  inodeTableStart : UInt32
  inodeTableBlocks : UInt32
  inodeCount : UInt32
  dataStart : UInt32
  rootInode : UInt32
  freeBlocks : UInt32
  freeInodes : UInt32
  reserved : Fin 8140 → UInt8

variable (sb : Superblock)

/-- `if (sb.free_blocks > 0) sb.free_blocks--`. -/
def Superblock.takeBlock : Superblock :=
  if 0 < sb.freeBlocks.toNat then { sb with freeBlocks := sb.freeBlocks - 1 } else sb

/-- `sb.free_blocks++`. -/
def Superblock.giveBlock : Superblock :=
  { sb with freeBlocks := sb.freeBlocks + 1 }

/-- `if (sb.free_inodes > 0) sb.free_inodes--`. -/
def Superblock.takeInode : Superblock :=
  if 0 < sb.freeInodes.toNat then { sb with freeInodes := sb.freeInodes - 1 } else sb

/-- `sb.free_inodes++`. -/
def Superblock.giveInode : Superblock :=
  { sb with freeInodes := sb.freeInodes + 1 }

/-- The thirteen words in front of the reserved bytes. -/
def Superblock.word : Nat → UInt32
  | 0 => sb.magic
  | 1 => sb.version
  | 2 => sb.blockSize
  | 3 => sb.totalBlocks
  | 4 => sb.bitmapStart
  | 5 => sb.bitmapBlocks
  | 6 => sb.inodeTableStart
  | 7 => sb.inodeTableBlocks
  | 8 => sb.inodeCount
  | 9 => sb.dataStart
  | 10 => sb.rootInode
  | 11 => sb.freeBlocks
  | 12 => sb.freeInodes
  | _ => 0

/-- The superblock as the 8192 bytes of block 0. -/
def Superblock.bytes : Bytes := fun i =>
  if h : 52 ≤ i ∧ i < 8192 then sb.reserved ⟨i - 52, by omega⟩
  else wordBytes sb.word i

/-- The superblock stored at the start of a region. -/
def Superblock.ofBytes (m : Bytes) : Superblock where
  magic := word32 m 0
  version := word32 m 4
  blockSize := word32 m 8
  totalBlocks := word32 m 12
  bitmapStart := word32 m 16
  bitmapBlocks := word32 m 20
  inodeTableStart := word32 m 24
  inodeTableBlocks := word32 m 28
  inodeCount := word32 m 32
  dataStart := word32 m 36
  rootInode := word32 m 40
  freeBlocks := word32 m 44
  freeInodes := word32 m 48
  reserved := fun i => m (52 + i.val)

/-- `lufirafs_inode_t`. -/
@[ext] structure Inode where
  mode : UInt32
  size : UInt32
  linksCount : UInt32
  direct : Fin 12 → UInt32
  indirect : UInt32
  uid : UInt32
  gid : UInt32
  perm : UInt32
  deriving DecidableEq

/-- The nineteen words of an inode record. -/
def Inode.word (r : Inode) (k : Nat) : UInt32 :=
  if k = 0 then r.mode
  else if k = 1 then r.size
  else if k = 2 then r.linksCount
  else if h : k - 3 < 12 then r.direct ⟨k - 3, h⟩
  else if k = 15 then r.indirect
  else if k = 16 then r.uid
  else if k = 17 then r.gid
  else r.perm

/-- The 76 bytes of an inode record. -/
def Inode.bytes (r : Inode) : Bytes := wordBytes r.word

/-- The inode record stored at `off`. -/
def Inode.ofBytes (m : Bytes) (off : Nat) : Inode where
  mode := word32 m off
  size := word32 m (off + 4)
  linksCount := word32 m (off + 8)
  direct := fun k => word32 m (off + (12 + 4 * k.val))
  indirect := word32 m (off + 60)
  uid := word32 m (off + 64)
  gid := word32 m (off + 68)
  perm := word32 m (off + 72)

/-- The record that `memset (&inode, 0, sizeof (inode))` leaves. -/
def Inode.zero : Inode where
  mode := 0
  size := 0
  linksCount := 0
  direct := fun _ => 0
  indirect := 0
  uid := 0
  gid := 0
  perm := 0

/-- The record with another size. -/
def Inode.setSize (r : Inode) (size : UInt32) : Inode := { r with size := size }

/-- The record with direct pointer `k` replaced. -/
def Inode.setDirect (r : Inode) (k : Fin 12) (b : UInt32) : Inode :=
  { r with direct := Function.update r.direct k b }

/-- The record with the indirect pointer replaced. -/
def Inode.setIndirect (r : Inode) (b : UInt32) : Inode := { r with indirect := b }

/-! ## Directory entries -/

/-- `ents[i].inode`; zero marks an unused entry. -/
def direntIno (blk : Bytes) (i : Nat) : UInt32 := word32 blk (64 * i)

/-- `ents[i].name` as `strcmp` reads it: up to the first NUL, at the latest to
the end of the block buffer. -/
def direntName (blk : Bytes) (i : Nat) : CStr :=
  cstrAt blk (64 * i + 4) (8192 - (64 * i + 4))

/-- `copy_name` into the name of entry `i`: at most `59` characters and the
terminator, the rest of the field keeps its bytes. -/
def copyName (blk : Bytes) (i : Nat) (name : CStr) : Bytes :=
  copyIn blk (64 * i + 4) ((name.take 59).length + 1) (cstrBytes (name.take 59))

/-- Fill entry `i`, as the kernel's `add_dirent` does. -/
def putDirent (blk : Bytes) (i : Nat) (ino : UInt32) (name : CStr) : Bytes :=
  copyName (putWord blk (64 * i) ino) i name

/-- Empty entry `i`, as `remove_dirent` does. -/
def clearDirent (blk : Bytes) (i : Nat) : Bytes :=
  copyIn (putWord blk (64 * i) 0) (64 * i + 4) 1 zeros

/-- `"."`. -/
def dot : CStr := [⟨46, by decide⟩]

/-- `".."`. -/
def dotDot : CStr := [⟨46, by decide⟩, ⟨46, by decide⟩]

/-- `'/'`. -/
def slash : CChar := ⟨47, by decide⟩

/-! ## Layout -/

/-- `lufirafs_compute_layout`, on 32-bit words. -/
def computeLayout (totalBlocks : UInt32) (sb : Superblock) : Superblock :=
  let bitmapBlocks : UInt32 := (totalBlocks + 65536 - 1) / 65536
  let bitmapBlocks := if bitmapBlocks = 0 then 1 else bitmapBlocks
  let inodeTableBlocks : UInt32 := (512 * 76 + 8192 - 1) / 8192
  { sb with
    magic := fsMagic
    version := 3
    blockSize := 8192
    totalBlocks := totalBlocks
    bitmapStart := 1
    bitmapBlocks := bitmapBlocks
    inodeTableStart := 1 + bitmapBlocks
    inodeTableBlocks := inodeTableBlocks
    inodeCount := 512
    dataStart := 1 + bitmapBlocks + inodeTableBlocks
    rootInode := 1
    freeBlocks := 0
    freeInodes := 0 }

/-- The geometry of a formatted region, in natural numbers: what
`computeLayout` gives for a region of fewer than `2^32` bytes, that is of fewer
than `524288` blocks, that has room for at least one data block. -/
structure Laid (sb : Superblock) : Prop where
  magic : sb.magic = fsMagic
  blockSize : sb.blockSize = 8192
  bitmapStart : sb.bitmapStart.toNat = 1
  bitmapCovers : sb.totalBlocks.toNat ≤ sb.bitmapBlocks.toNat * 65536
  inodeTableStart : sb.inodeTableStart.toNat = 1 + sb.bitmapBlocks.toNat
  inodeCount : sb.inodeCount.toNat = 512
  dataStart : sb.dataStart.toNat = 6 + sb.bitmapBlocks.toNat
  bitmapPos : 0 < sb.bitmapBlocks.toNat
  rootInode : sb.rootInode.toNat = 1
  room : sb.dataStart.toNat < sb.totalBlocks.toNat
  total : sb.totalBlocks.toNat < 524288

/-- The layout of a region of fewer than `2^32` bytes in natural numbers. -/
theorem computeLayout_laid {total : UInt32} {sb : Superblock} (htotal : total.toNat < 524288)
    (hroom : (computeLayout total sb).dataStart.toNat < total.toNat) :
    Laid (computeLayout total sb) := by
  have hbits : ((total + 65536 - 1) / 65536).toNat = (total.toNat + 65535) / 65536 := by
    rw [UInt32.toNat_div, UInt32.toNat_sub, UInt32.toNat_add]
    have h1 : (65536 : UInt32).toNat = 65536 := rfl
    have h2 : (1 : UInt32).toNat = 1 := rfl
    rw [h1, h2]
    omega
  have hpos : ((total + 65536 - 1) / 65536) ≠ 0 := by
    intro h
    have h0 : (total.toNat + 65535) / 65536 = 0 := by
      rw [← hbits, h]
      rfl
    have hz : total.toNat = 0 := by omega
    rw [hz] at hroom
    omega
  have htable : ((512 * 76 + 8192 - 1 : UInt32) / 8192).toNat = 5 := by decide
  have hstart : (1 + (total + 65536 - 1) / 65536 : UInt32).toNat =
      1 + (total.toNat + 65535) / 65536 := by
    rw [UInt32.toNat_add, hbits]
    have h2 : (1 : UInt32).toNat = 1 := rfl
    rw [h2]
    omega
  have hdata : (computeLayout total sb).dataStart.toNat = 6 + (total.toNat + 65535) / 65536 := by
    simp only [computeLayout, if_neg hpos, UInt32.toNat_add, hbits, htable]
    have h2 : (1 : UInt32).toNat = 1 := rfl
    rw [h2]
    omega
  have hblocks : (computeLayout total sb).bitmapBlocks = (total + 65536 - 1) / 65536 := by
    simp [computeLayout, hpos]
  have htot : (computeLayout total sb).totalBlocks = total := rfl
  constructor
  · rfl
  · rfl
  · rfl
  · rw [hblocks, hbits, htot]
    omega
  · rw [hblocks, hbits]
    simpa only [computeLayout, if_neg hpos] using hstart
  · rfl
  · rw [hdata, hblocks, hbits]
  · rw [hblocks, hbits]
    omega
  · rfl
  · exact hroom
  · exact htotal

/-! ## Records are read back -/

/-- An inode record written at `off` is read back. -/
theorem Inode.ofBytes_copyIn (m : Bytes) (off : Nat) (r : Inode) :
    Inode.ofBytes (copyIn m off 76 r.bytes) off = r := by
  have hword : ∀ k, k < 19 → word32 (copyIn m off 76 r.bytes) (off + 4 * k) = r.word k := by
    intro k hk
    rw [word32_copyIn_inside (by omega) (by omega), Nat.add_sub_cancel_left,
      Inode.bytes, word32_wordBytes]
  apply Inode.ext
  · exact hword 0 (by omega)
  · exact hword 1 (by omega)
  · exact hword 2 (by omega)
  · funext k
    have h := hword (3 + k.val) (by omega)
    have hk : 4 * (3 + k.val) = 12 + 4 * k.val := by omega
    rw [hk] at h
    simp only [Inode.ofBytes, h]
    have h0 : ¬ 3 + k.val = 0 := by omega
    have h1 : ¬ 3 + k.val = 1 := by omega
    have h2 : ¬ 3 + k.val = 2 := by omega
    have h3 : 3 + k.val - 3 = k.val := by omega
    simp only [Inode.word, h0, h1, h2, h3, if_false, k.isLt, dite_true]
  · exact hword 15 (by omega)
  · exact hword 16 (by omega)
  · exact hword 17 (by omega)
  · exact hword 18 (by omega)

/-- An inode record depends on its own 76 bytes only. -/
theorem Inode.ofBytes_congr {m m' : Bytes} {off off' : Nat}
    (h : ∀ k, k < 76 → m (off + k) = m' (off' + k)) :
    Inode.ofBytes m off = Inode.ofBytes m' off' := by
  have hword : ∀ k, k + 4 ≤ 76 → word32 m (off + k) = word32 m' (off' + k) := by
    intro k hk
    apply word32_congr
    intro j hj
    have := h (k + j) (by omega)
    rwa [← Nat.add_assoc, ← Nat.add_assoc] at this
  apply Inode.ext
  · exact hword 0 (by omega)
  · exact hword 4 (by omega)
  · exact hword 8 (by omega)
  · funext k
    exact hword (12 + 4 * k.val) (by omega)
  · exact hword 60 (by omega)
  · exact hword 64 (by omega)
  · exact hword 68 (by omega)
  · exact hword 72 (by omega)

theorem Inode.ofBytes_zeros (off : Nat) : Inode.ofBytes zeros off = Inode.zero := by
  simp [Inode.ofBytes, Inode.zero]

/-- The superblock depends on block 0 only. -/
theorem Superblock.ofBytes_congr {m m' : Bytes} (h : ∀ a, a < 8192 → m a = m' a) :
    Superblock.ofBytes m = Superblock.ofBytes m' := by
  have hword : ∀ o, o + 4 ≤ 8192 → word32 m o = word32 m' o := fun o ho =>
    word32_congr fun k hk => h _ (by omega)
  have hres : (fun i : Fin 8140 => m (52 + i.val)) = fun i => m' (52 + i.val) := by
    funext i
    exact h _ (by omega)
  simp only [Superblock.ofBytes, hword 0 (by omega), hword 4 (by omega), hword 8 (by omega),
    hword 12 (by omega), hword 16 (by omega), hword 20 (by omega), hword 24 (by omega),
    hword 28 (by omega), hword 32 (by omega), hword 36 (by omega), hword 40 (by omega),
    hword 44 (by omega), hword 48 (by omega), hres]

/-- The superblock written to block 0 is read back. -/
theorem Superblock.ofBytes_copyIn (m : Bytes) (sb : Superblock) :
    Superblock.ofBytes (copyIn m 0 8192 sb.bytes) = sb := by
  have hword : ∀ k, k < 13 → word32 (copyIn m 0 8192 sb.bytes) (4 * k) = sb.word k := by
    intro k hk
    rw [word32_copyIn_inside (by omega) (by omega), Nat.sub_zero]
    rw [← word32_wordBytes sb.word k]
    apply word32_congr
    intro j hj
    have hout : ¬ (52 ≤ 4 * k + j ∧ 4 * k + j < 8192) := by omega
    simp only [Superblock.bytes, hout, dite_false]
  have hres : (Superblock.ofBytes (copyIn m 0 8192 sb.bytes)).reserved = sb.reserved := by
    funext i
    have hin : 52 ≤ 52 + i.val ∧ 52 + i.val < 8192 := by omega
    simp only [Superblock.ofBytes, copyIn_inside (Nat.zero_le _) (by omega : 52 + i.val < 0 + 8192),
      Nat.sub_zero, Superblock.bytes, hin, and_self, dite_true]
    congr 1
    apply Fin.ext
    simp
  have h0 := hword 0 (by omega)
  have h1 := hword 1 (by omega)
  have h2 := hword 2 (by omega)
  have h3 := hword 3 (by omega)
  have h4 := hword 4 (by omega)
  have h5 := hword 5 (by omega)
  have h6 := hword 6 (by omega)
  have h7 := hword 7 (by omega)
  have h8 := hword 8 (by omega)
  have h9 := hword 9 (by omega)
  have h10 := hword 10 (by omega)
  have h11 := hword 11 (by omega)
  have h12 := hword 12 (by omega)
  simp only [Nat.mul_zero, Superblock.word] at h0 h1 h2 h3 h4 h5 h6 h7 h8 h9 h10 h11 h12
  cases sb
  simp only [Superblock.ofBytes] at hres ⊢
  simp only [hres]
  rw [h0, h1, h2, h3, h4, h5, h6, h7, h8, h9, h10, h11, h12]

end LufiraFs
