import LufiraOS.Format

/-!
# The LufiraFS driver: metadata, blocks and inodes

The lower half of `kernel/fs/lufirafs/lufirafs.c`.  A `Mount` is the
`lufirafs_t` in memory together with the device behind it and the outcomes of
the `kmalloc` and disk calls that are still to come; every C function becomes a
function on mounts, and a function that calls `kmalloc` or the disk uses up one
outcome for each call.  A disk write that fails leaves the device as it was.

The metadata blocks, from `0` to `data_start`, live in `image` and are written
back by `lufirafs_sync`; the data blocks live on the device only.
-/

namespace LufiraFs

open ByteStore

/-- The outcomes of the coming `kmalloc` calls, disk reads and disk writes. -/
structure Env where
  heap : Nat → Bool
  rd : Nat → Bool
  wr : Nat → Bool

/-- The environment in which nothing fails. -/
def Env.allOk : Env := ⟨fun _ => true, fun _ => true, fun _ => true⟩

/-- `lufirafs_t`, the device and the environment. -/
structure Mount where
  image : Bytes
  sb : Superblock
  dirty : Nat → Bool
  lbaOffset : UInt32
  nextFreeBlock : Nat
  disk : Bytes
  env : Env

namespace Mount

/-! ## The environment -/

variable (fs : Mount)

/-- `kmalloc`; only whether it succeeds matters here. -/
def kmalloc : Bool × Mount :=
  (fs.env.heap 0, { fs with env := { fs.env with heap := fun n => fs.env.heap (n + 1) } })

/-- `disk_read_sectors`: the bytes read, if the read succeeds. -/
def diskReadSectors (lba count : Nat) : Option Bytes × Mount :=
  (if fs.env.rd 0 then some (window fs.disk (lba * 512) (count * 512)) else none,
    { fs with env := { fs.env with rd := fun n => fs.env.rd (n + 1) } })

/-- `disk_write_sectors`: whether the write succeeds. -/
def diskWriteSectors (lba count : Nat) (buf : Bytes) : Bool × Mount :=
  (fs.env.wr 0,
    { fs with
      disk := if fs.env.wr 0 then copyIn fs.disk (lba * 512) (count * 512) buf else fs.disk
      env := { fs.env with wr := fun n => fs.env.wr (n + 1) } })

/-! ## Metadata -/

/-- `sb.data_start`. -/
def dataStart : Nat := fs.sb.dataStart.toNat

/-- `sb.total_blocks`. -/
def totalBlocks : Nat := fs.sb.totalBlocks.toNat

/-- `sb.inode_count`. -/
def inodeCount : Nat := fs.sb.inodeCount.toNat

/-- `sb.root_inode`. -/
def rootInode : Nat := fs.sb.rootInode.toNat

/-- `mark_dirty`. -/
def markDirty (block : Nat) : Mount :=
  if fs.dataStart ≤ block then fs
  else { fs with dirty := Function.update fs.dirty block true }

/-- `write_superblock`. -/
def writeSuperblock : Mount :=
  { fs with image := copyIn fs.image 0 8192 fs.sb.bytes }.markDirty 0

/-- `block_bitmap_ptr`, as an offset into the image. -/
def bitmapBase : Nat := fs.sb.bitmapStart.toNat * 8192

/-- `block_bitmap_test`. -/
def blockBitmapTest (block : Nat) : Bool := bitAt fs.image fs.bitmapBase block

/-- `block_bitmap_set`. -/
def blockBitmapSet (block : Nat) (used : Bool) : Mount :=
  { fs with image := setBitAt fs.image fs.bitmapBase block used }.markDirty
    ((fs.sb.bitmapStart.toNat + block / 8 / 8192) % 4294967296)

/-! ## Data blocks -/

/-- The first sector of a block. -/
def lbaOf (block : Nat) : Nat :=
  (fs.lbaOffset.toNat + block * 16) % 4294967296

/-- `read_data_block`. -/
def readDataBlock (block : Nat) : Option Bytes × Mount :=
  if block < fs.dataStart ∨ fs.totalBlocks ≤ block then (none, fs)
  else fs.diskReadSectors (fs.lbaOf block) 16

/-- `write_data_block`. -/
def writeDataBlock (block : Nat) (buf : Bytes) : Bool × Mount :=
  if block < fs.dataStart ∨ fs.totalBlocks ≤ block then (false, fs)
  else fs.diskWriteSectors (fs.lbaOf block) 16 buf

/-- The scan of `alloc_block`: the first clear bit among the `n` bits from `b`
on. -/
def scanClear (fs : Mount) : (b n : Nat) → Option Nat
  | _, 0 => none
  | b, n + 1 => if fs.blockBitmapTest b then scanClear fs (b + 1) n else some b

/-- What `alloc_block` does with the clear block it has found: mark it, zero it
on the device, and undo the mark when there is no memory for the zero buffer. -/
def claimBlock (b : Nat) : Nat × Mount :=
  let fs := fs.blockBitmapSet b true
  match fs.kmalloc with
  | (false, fs) => (0, fs.blockBitmapSet b false)
  | (true, fs) =>
    let fs := (fs.writeDataBlock b zeros).2
    let fs := { fs with sb := fs.sb.takeBlock }.writeSuperblock
    (b, { fs with nextFreeBlock := b + 1 })

/-- `alloc_block`: from the cursor to the end, then from the start of the data
area to the cursor.  The result is `0` when there is no block. -/
def allocBlock : Nat × Mount :=
  match fs.scanClear fs.nextFreeBlock (fs.totalBlocks - fs.nextFreeBlock) with
  | some b => fs.claimBlock b
  | none =>
    match fs.scanClear fs.dataStart (fs.nextFreeBlock - fs.dataStart) with
    | some b => fs.claimBlock b
    | none => (0, fs)

/-- `free_data_block`. -/
def freeDataBlock (block : Nat) : Mount :=
  if block = 0 then fs
  else
    let fs := fs.blockBitmapSet block false
    { fs with sb := fs.sb.giveBlock }.writeSuperblock

/-! ## The inode table -/

/-- Where the record of `ino` is in the image. -/
def inodeOff (ino : Nat) : Nat :=
  (fs.sb.inodeTableStart.toNat * 8192 + (ino - 1) * 76) % 4294967296

/-- `lufirafs_read_inode`. -/
def readInode (ino : Nat) : Option Inode :=
  if ino = 0 ∨ fs.inodeCount < ino then none
  else some (Inode.ofBytes fs.image (fs.inodeOff ino))

/-- `lufirafs_write_inode`; an invalid number is refused. -/
def writeInode (ino : Nat) (r : Inode) : Mount :=
  if ino = 0 ∨ fs.inodeCount < ino then fs
  else
    { fs with image := copyIn fs.image (fs.inodeOff ino) 76 r.bytes }.markDirty
      (fs.inodeOff ino / 8192)

/-- The scan of `alloc_inode`. -/
def scanFreeInode (fs : Mount) : (ino n : Nat) → Option Nat
  | _, 0 => none
  | ino, n + 1 =>
    if (Inode.ofBytes fs.image (fs.inodeOff ino)).mode = modeFree then some ino
    else scanFreeInode fs (ino + 1) n

/-- `alloc_inode`; the result is `0` when the table is full. -/
def allocInode : Nat × Mount :=
  match fs.scanFreeInode 1 fs.inodeCount with
  | some ino => (ino, { fs with sb := fs.sb.takeInode }.writeSuperblock)
  | none => (0, fs)

/-- `free_inode_slot`. -/
def freeInodeSlot (ino : Nat) : Mount :=
  let fs := fs.writeInode ino Inode.zero
  { fs with sb := fs.sb.giveInode }.writeSuperblock

/-- The second half of `inode_get_block`: look up, or with `create` fill in,
entry `idx` of the indirect block of `r`. -/
def indirectGetBlock (r : Inode) (idx : Nat) (create : Bool) :
    Nat × Inode × Mount :=
  match fs.kmalloc with
  | (false, fs) => (0, r, fs)
  | (true, fs) =>
    match fs.readDataBlock r.indirect.toNat with
    | (none, fs) => (0, r, fs)
    | (some buf, fs) =>
      let result := (word32 buf (4 * idx)).toNat
      if result = 0 ∧ create then
        match fs.allocBlock with
        | (nb, fs) =>
          if nb = 0 then (0, r, fs)
          else (nb, r, (fs.writeDataBlock r.indirect.toNat
            (putWord buf (4 * idx) (UInt32.ofNat nb))).2)
      else (result, r, fs)

/-- `inode_get_block`: the number of the `blockIndex`-th block of the file, or
`0`.  With `create` a missing block, and a missing indirect block, is
allocated; the record is returned and written by the caller. -/
def inodeGetBlock (r : Inode) (blockIndex : Nat) (create : Bool) :
    Nat × Inode × Mount :=
  if h : blockIndex < 12 then
    if r.direct ⟨blockIndex, h⟩ = 0 ∧ create then
      match fs.allocBlock with
      | (nb, fs) =>
        if nb = 0 then (0, r, fs)
        else (nb, r.setDirect ⟨blockIndex, h⟩ (UInt32.ofNat nb), fs)
    else ((r.direct ⟨blockIndex, h⟩).toNat, r, fs)
  else if 2048 ≤ blockIndex - 12 then (0, r, fs)
  else if r.indirect = 0 then
    if create then
      match fs.allocBlock with
      | (ib, fs) =>
        if ib = 0 then (0, r, fs)
        else fs.indirectGetBlock (r.setIndirect (UInt32.ofNat ib)) (blockIndex - 12) create
    else (0, r, fs)
  else fs.indirectGetBlock r (blockIndex - 12) create

/-- `bn = inode_get_block (fs, &inode, b, 0)` followed by
`if (!bn || read_data_block (fs, bn, buf) != 0)`: the number and the contents of
the `b`-th block of the file, if the condition is false. -/
def fetchBlock (r : Inode) (b : Nat) : Option (Nat × Bytes) × Mount :=
  match fs.inodeGetBlock r b false with
  | (bn, _, fs) =>
    if bn = 0 then (none, fs)
    else
      match fs.readDataBlock bn with
      | (none, fs) => (none, fs)
      | (some blk, fs) => (some (bn, blk), fs)

end Mount

end LufiraFs
