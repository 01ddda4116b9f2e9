import LufiraOS.Lib.WriteBack
import LufiraOS.Lib.Run
import Mathlib

/-!
# The bytes of an ext2 image

The driver works on an image of the whole device in memory.  Every store is meant to be followed
by `mark_dirty` for its sectors, and `sync_mount_to_usb` writes the marked sectors to the device.
Here the calls are followed byte by byte: which addresses they read, store to and mark.  A number
of a block or an inode that names nothing leads to the trap block, which is not in the image.

Where the source stores several fields and then marks them, or marks two things at the end, the
stores and the marks that are meant for them are one `put`; a mark changes nothing that is read.
-/

namespace Ext2

/-- An address that the driver computes: in the image (or behind it), or in the trap block. -/
inductive Ptr where
  | image (off : Nat)
  | trap (off : Nat)
  deriving DecidableEq

/-- The address `k` bytes on. -/
def Ptr.add : Ptr → Nat → Ptr
  | .image off, k => .image (off + k)
  | .trap off, k => .trap (off + k)

/-- What `ext2_init` finds in an image that it accepts, with the address of the group descriptors
and the distance of the trap block from the image.  A mount takes 8 MiB at most. -/
structure Geometry where
  size : Nat
  blockSize : Nat
  inodeSize : Nat
  descSize : Nat
  groupsCount : Nat
  hasFiletype : Bool
  groups : Ptr
  trapAt : Nat
  small : size ≤ 8 * 1024 * 1024
  block : 1024 ∣ blockSize ∧ 0 < blockSize ∧ blockSize ≤ 8 * 1024 * 1024
  inode : 128 ≤ inodeSize ∧ inodeSize ≤ blockSize

/-- The image, the trap block, the device and the map of dirty sectors. -/
structure Image where
  bytes : ByteStore.Bytes
  trap : ByteStore.Bytes
  device : ByteStore.Bytes
  dirty : Nat → Bool

namespace Image

/-! ### Reading -/

def load (s : Image) : Ptr → UInt8
  | .image off => s.bytes off
  | .trap off => s.trap off

def rd16 (s : Image) (p : Ptr) : Nat := (s.load p).toNat + 256 * (s.load (p.add 1)).toNat

def rd32 (s : Image) (p : Ptr) : Nat := s.rd16 p + 2 ^ 16 * s.rd16 (p.add 2)

/-- The fields of the superblock. -/
def inodesCount (s : Image) : Nat := s.rd32 (.image 1024)
def blocksCount (s : Image) : Nat := s.rd32 (.image 1028)
def firstDataBlock (s : Image) : Nat := s.rd32 (.image 1044)
def blocksPerGroup (s : Image) : Nat := s.rd32 (.image 1056)
def inodesPerGroup (s : Image) : Nat := s.rd32 (.image 1064)

variable (g : Geometry) (s : Image)

/-- `blk_ptr`. -/
def blkPtr (b : Nat) : Ptr :=
  if s.blocksCount ≤ b then .trap 0 else .image (b * g.blockSize)

/-- `group_ptr`. -/
def groupPtr (n : Nat) : Ptr :=
  if g.groupsCount ≤ n then .trap 0 else g.groups.add (n * g.descSize)

/-- `inode_ptr`. -/
def inodePtr (ino : Nat) : Ptr :=
  if ino = 0 ∨ s.inodesCount < ino then .trap 0
  else
    let table := s.rd32 ((groupPtr g ((ino - 1) / s.inodesPerGroup)).add 8)
    let off := table * g.blockSize + (ino - 1) % s.inodesPerGroup * g.inodeSize
    if g.size < off + g.inodeSize then .trap 0 else .image off

/-- `ext2_is_dir`. -/
def isDir (s : Image) (inode : Ptr) : Bool := s.rd16 inode / 2 ^ 12 = 4

/-- `i_block[k]`. -/
def iBlock (s : Image) (inode : Ptr) (k : Nat) : Nat := s.rd32 (inode.add (40 + 4 * k))

/-- The inode is mapped by extents. -/
def hasExtents (s : Image) (inode : Ptr) : Bool := (s.rd32 (inode.add 32)).testBit 19

/-- `extent_lookup`, which goes down eight levels. -/
def extentLookup (g : Geometry) (s : Image) (index : Nat) : Nat → Ptr → Nat
  | 0, _ => 0
  | guard + 1, node =>
    if s.rd16 node ≠ 0xF30A then 0
    else if s.rd16 (node.add 6) = 0 then
      match (List.range (s.rd16 (node.add 2))).find? (fun i =>
          let e := node.add (12 + 12 * i)
          let eeLen := s.rd16 (e.add 4)
          let len := if 32768 < eeLen then eeLen - 32768 else eeLen
          len ≠ 0 && s.rd32 e ≤ index && index < (s.rd32 e + len) % 2 ^ 32) with
      | none => 0
      | some i =>
        let e := node.add (12 + 12 * i)
        if 32768 < s.rd16 (e.add 4) then 0
        else (s.rd32 (e.add 8) + (index - s.rd32 e)) % 2 ^ 32
    else
      let n := s.rd16 (node.add 2)
      match (List.range n).find? (fun i =>
          s.rd32 (node.add (12 + 12 * i)) ≤ index &&
            !(decide (i + 1 < n) && decide (s.rd32 (node.add (12 + 12 * (i + 1))) ≤ index))) with
      | none => 0
      | some i =>
        let e := node.add (12 + 12 * i)
        let leaf := s.rd32 (e.add 4) + 2 ^ 32 * s.rd16 (e.add 8)
        if leaf = 0 then 0 else extentLookup g s index guard (s.blkPtr g (leaf % 2 ^ 32))

/-- `block_for_index` without allocation. -/
def blockAt (inode : Ptr) (index : Nat) : Nat :=
  if s.hasExtents inode then s.extentLookup g index 9 (inode.add 40)
  else
    let ptrs := g.blockSize / 4
    if index < 12 then s.iBlock inode index
    else if index - 12 < ptrs then
      if s.iBlock inode 12 = 0 then 0
      else s.rd32 ((s.blkPtr g (s.iBlock inode 12)).add (4 * (index - 12)))
    else if index - 12 - ptrs < ptrs * ptrs then
      let i := index - 12 - ptrs
      if s.iBlock inode 13 = 0 then 0
      else
        let outer := s.rd32 ((s.blkPtr g (s.iBlock inode 13)).add (4 * (i / ptrs)))
        if outer = 0 then 0 else s.rd32 ((s.blkPtr g outer).add (4 * (i % ptrs)))
    else 0

/-! ### Directory entries -/

/-- The offsets of the entries of a block, each with that of the one before it; `turns` bounds the
loop, of which every turn goes 8 bytes on. -/
def entriesFrom (g : Geometry) (s : Image) (base : Ptr) : Nat → Option Nat → Nat →
    List (Option Nat × Nat)
  | 0, _, _ => []
  | turns + 1, prev, off =>
    if off < g.blockSize then
      let recLen := s.rd16 ((base.add off).add 4)
      if recLen < 8 then [] else (prev, off) :: entriesFrom g s base turns (some off) (off + recLen)
    else []

/-- The entries of a directory, block by block: the address of the block, the entry before, the
entry. -/
def dirents (dir : Ptr) : List (Ptr × Option Nat × Nat) :=
  let nblocks := (s.rd32 (dir.add 4) + g.blockSize - 1) % 2 ^ 32 / g.blockSize
  (List.range nblocks).flatMap fun bi =>
    let block := s.blockAt g dir bi
    if block = 0 then []
    else (s.entriesFrom g (s.blkPtr g block) g.blockSize none 0).map fun e => (s.blkPtr g block, e)

/-- The entry has this name. -/
def isNamed (s : Image) (de : Ptr) (name : List UInt8) : Bool :=
  s.rd32 de ≠ 0 && (s.load (de.add 6)).toNat = name.length &&
    (List.range name.length).all fun i => s.load (de.add (8 + i)) == name.getD i 0

/-- `find_in_dir`: the inode of the entry, 0 if there is none. -/
def findInDir (dirIno : Nat) (name : List UInt8) : Nat :=
  if dirIno = 0 ∨ s.inodesCount < dirIno ∨ s.isDir (s.inodePtr g dirIno) = false then 0
  else
    match (s.dirents g (s.inodePtr g dirIno)).find? (fun e => s.isNamed (e.1.add e.2.2) name) with
    | none => 0
    | some e => s.rd32 (e.1.add e.2.2)

/-- `dir_is_empty`: no entry but the dots. -/
def dirIsEmpty (dir : Ptr) : Bool :=
  (s.dirents g dir).all fun e =>
    let de := e.1.add e.2.2
    s.rd32 de = 0 || s.isNamed de [46] || s.isNamed de [46, 46]

/-! ### Storing -/

/-- A byte is stored. -/
def set (s : Image) (p : Ptr) (b : UInt8) : Image :=
  match p with
  | .image off => { s with bytes := Function.update s.bytes off b }
  | .trap off => { s with trap := Function.update s.trap off b }

/-- Bytes are stored from an address on. -/
def store (s : Image) (p : Ptr) : List UInt8 → Image
  | [] => s
  | b :: bs => store (s.set p b) (p.add 1) bs

/-- `mark_dirty`. -/
def markDirty (off len : Nat) : Image :=
  if len = 0 then s
  else { s with dirty := fun lba => s.dirty lba ||
      (decide (off / 512 ≤ lba) && decide (lba ≤ (off + len - 1) % 2 ^ 32 / 512) &&
        decide (lba / 8 < (g.size / 512 + 7) / 8)) }

/-- The distance of an address from the image. -/
def distance : Ptr → Nat
  | .image off => off
  | .trap off => g.trapAt + off

/-- The distance in 32 bits. -/
def offset (p : Ptr) : Nat := distance g p % 2 ^ 32

/-- Fields are stored, and a range is marked. -/
def put (fields : List (Ptr × List UInt8)) (off len : Nat) : Image :=
  markDirty g (fields.foldl (fun s f => s.store f.1 f.2) s) off len

/-- A number in `n` bytes. -/
def le : Nat → Nat → List UInt8
  | 0, _ => []
  | n + 1, v => UInt8.ofNat (v % 256) :: le n (v / 256)

/-- A field of 16 bits of a group descriptor. -/
def putDesc (n field value : Nat) : Image :=
  s.put g [((groupPtr g n).add field, le 2 value)] (offset g (groupPtr g n)) 32

/-- A field of 32 bits of the superblock. -/
def putSuper (field value : Nat) : Image :=
  s.put g [(.image (1024 + field), le 4 value)] 1024 1024

/-- The field of a descriptor and the total in the superblock go up or down by one. -/
def count (n field total : Nat) (up : Bool) : Image :=
  let step (v w : Nat) := if up then (v + 1) % 2 ^ w else (v + 2 ^ w - 1) % 2 ^ w
  let s := s.putDesc g n field (step (s.rd16 ((groupPtr g n).add field)) 16)
  s.putSuper g total (step (s.rd32 (.image (1024 + total))) 32)

/-! ### Bitmaps -/

/-- `bitmap_alloc`. -/
def bitmapAlloc (bitmapBlock countInGroup : Nat) : Option Nat × Image :=
  let bm := s.blkPtr g bitmapBlock
  match (List.range countInGroup).find? (fun i =>
      !(s.load (bm.add (i / 8))).toNat.testBit (i % 8)) with
  | none => (none, s)
  | some i =>
    (some i, s.put g [(bm.add (i / 8), [s.load (bm.add (i / 8)) ||| UInt8.ofNat (2 ^ (i % 8))])]
      (offset g (bm.add (i / 8))) 1)

/-- `bitmap_free`. -/
def bitmapFree (bitmapBlock i : Nat) : Image :=
  let bm := s.blkPtr g bitmapBlock
  s.put g [(bm.add (i / 8), [s.load (bm.add (i / 8)) &&& ~~~ UInt8.ofNat (2 ^ (i % 8))])]
    (offset g (bm.add (i / 8))) 1

/-- `alloc_block` over the groups that are left; 0 says that there is none. -/
def allocBlockIn (g : Geometry) : List Nat → Image → Nat × Image
  | [], s => (0, s)
  | n :: rest, s =>
    if s.rd16 ((groupPtr g n).add 12) = 0 then allocBlockIn g rest s
    else
      match s.bitmapAlloc g (s.rd32 (groupPtr g n)) s.blocksPerGroup with
      | (none, s) => allocBlockIn g rest s
      | (some i, s) =>
        let block := (s.firstDataBlock + n * s.blocksPerGroup + i) % 2 ^ 32
        let s := s.put g [(s.blkPtr g block, List.replicate g.blockSize 0)]
          (block * g.blockSize % 2 ^ 32) g.blockSize
        (block, s.count g n 12 12 false)

/-- `alloc_block`. -/
def allocBlock : Nat × Image := allocBlockIn g (List.range g.groupsCount) s

/-- `free_block`. -/
def freeBlock (block : Nat) : Image :=
  if block = 0 ∨ block < s.firstDataBlock ∨ s.blocksCount ≤ block then s
  else
    let n := (block - s.firstDataBlock) / s.blocksPerGroup
    let i := (block - s.firstDataBlock) % s.blocksPerGroup
    if g.groupsCount ≤ n then s
    else (s.bitmapFree g (s.rd32 (groupPtr g n)) i).count g n 12 12 true

/-- The inode that `alloc_inode` takes, with its group, once its bit is set. -/
def pickInode (g : Geometry) : List Nat → Image → Option (Nat × Nat) × Image
  | [], s => (none, s)
  | n :: rest, s =>
    if s.rd16 ((groupPtr g n).add 14) = 0 then pickInode g rest s
    else
      match s.bitmapAlloc g (s.rd32 ((groupPtr g n).add 4)) s.inodesPerGroup with
      | (none, s) => pickInode g rest s
      | (some i, s) => (some (n, (n * s.inodesPerGroup + i + 1) % 2 ^ 32), s)

/-- The inode is cleared.  The range to be marked is computed from its number again. -/
def clearInode (ino : Nat) : Image :=
  let cleared := s.store (s.inodePtr g ino) (List.replicate g.inodeSize 0)
  cleared.markDirty g (offset g (cleared.inodePtr g ino)) g.inodeSize

/-- `alloc_inode`. -/
def allocInode (dir : Bool) : Nat × Image :=
  match pickInode g (List.range g.groupsCount) s with
  | (none, s) => (0, s)
  | (some (n, ino), s) =>
    let s := (s.clearInode g ino).count g n 14 16 false
    (ino, if dir then s.putDesc g n 16 ((s.rd16 ((groupPtr g n).add 16) + 1) % 2 ^ 16) else s)

/-- `free_inode`. -/
def freeInode (ino : Nat) (dir : Bool) : Image :=
  if ino = 0 ∨ s.inodesCount < ino then s
  else
    let n := (ino - 1) / s.inodesPerGroup
    if g.groupsCount ≤ n then s
    else
      let s := (s.bitmapFree g (s.rd32 ((groupPtr g n).add 4)) ((ino - 1) % s.inodesPerGroup)).count
        g n 14 16 true
      let dirs := s.rd16 ((groupPtr g n).add 16)
      if dir && decide (0 < dirs) then s.putDesc g n 16 (dirs - 1) else s

/-! ### The blocks of a file -/

/-- The value of `i_blocks` after `account_block`. -/
def accounted (inode : Ptr) : List UInt8 :=
  le 4 ((s.rd32 (inode.add 28) + g.blockSize / 512) % 2 ^ 32)

/-- A missing block of `i_block` is allocated: the number is stored without a mark of its own, and
`account_block` marks `i_blocks`. -/
def growInode (inode : Ptr) (k : Nat) : Nat × Image :=
  if s.iBlock inode k ≠ 0 then (s.iBlock inode k, s)
  else
    let r := s.allocBlock g
    let field := (inode.add (40 + 4 * k), le 4 r.1)
    if r.1 = 0 then (0, r.2.store field.1 field.2)
    else (r.1, r.2.put g [field, (inode.add 28, r.2.accounted g inode)] (offset g (inode.add 28)) 4)

/-- A missing block of a table is allocated. -/
def growTable (inode table : Ptr) (i : Nat) : Nat × Image :=
  let entry := table.add (4 * i)
  if s.rd32 entry ≠ 0 then (s.rd32 entry, s)
  else
    let r := s.allocBlock g
    let s := r.2.put g [(entry, le 4 r.1)] (offset g entry) 4
    if r.1 = 0 then (0, s)
    else (r.1, s.put g [(inode.add 28, s.accounted g inode)] (offset g (inode.add 28)) 4)

/-- `block_for_index` with allocation. -/
def blockForIndex (inode : Ptr) (index : Nat) : Nat × Image :=
  if s.hasExtents inode then (s.extentLookup g index 9 (inode.add 40), s)
  else
    let ptrs := g.blockSize / 4
    if index < 12 then s.growInode g inode index
    else if index - 12 < ptrs then
      let r := s.growInode g inode 12
      if r.1 = 0 then (0, r.2) else r.2.growTable g inode (r.2.blkPtr g r.1) (index - 12)
    else if index - 12 - ptrs < ptrs * ptrs then
      let i := index - 12 - ptrs
      let r := s.growInode g inode 13
      if r.1 = 0 then (0, r.2)
      else
        let o := r.2.growTable g inode (r.2.blkPtr g r.1) (i / ptrs)
        if o.1 = 0 then (0, o.2) else o.2.growTable g inode (o.2.blkPtr g o.1) (i % ptrs)
    else (0, s)

/-- `free_extent_tree`, for trees of a bounded depth. -/
def freeExtentTree (g : Geometry) : Nat → Image → Ptr → Bool → Image
  | 0, s, _, _ => s
  | depth + 1, s, node, fromDisk =>
    if s.rd16 node ≠ 0xF30A then s
    else
      let below :=
        if s.rd16 (node.add 6) = 0 then
          (List.range (s.rd16 (node.add 2))).foldl (fun s i =>
            let e := node.add (12 + 12 * i)
            let eeLen := s.rd16 (e.add 4)
            let len := if 32768 < eeLen then eeLen - 32768 else eeLen
            let start := s.rd32 (e.add 8)
            (List.range len).foldl (fun s b => s.freeBlock g ((start + b) % 2 ^ 32)) s) s
        else
          (List.range (s.rd16 (node.add 2))).foldl (fun s i =>
            let e := node.add (12 + 12 * i)
            let leaf := s.rd32 (e.add 4) + 2 ^ 32 * s.rd16 (e.add 8)
            if leaf = 0 then s else freeExtentTree g depth s (s.blkPtr g (leaf % 2 ^ 32)) true) s
      if fromDisk then below.freeBlock g (distance g node / g.blockSize % 2 ^ 32) else below

/-- The blocks that a table names. -/
def freeTable (table : Ptr) : Image :=
  (List.range (g.blockSize / 4)).foldl (fun s i =>
    if s.rd32 (table.add (4 * i)) = 0 then s else s.freeBlock g (s.rd32 (table.add (4 * i)))) s

/-- `free_all_blocks`. -/
def freeAllBlocks (depth : Nat) (s : Image) (inode : Ptr) : Image :=
  if s.hasExtents inode then freeExtentTree g depth s (inode.add 40) false
  else
    let s := (List.range 12).foldl (fun s k =>
      if s.iBlock inode k = 0 then s else s.freeBlock g (s.iBlock inode k)) s
    let s :=
      if s.iBlock inode 12 = 0 then s
      else
        let s := s.freeTable g (s.blkPtr g (s.iBlock inode 12))
        s.freeBlock g (s.iBlock inode 12)
    if s.iBlock inode 13 = 0 then s
    else
      let outer := s.blkPtr g (s.iBlock inode 13)
      let s := (List.range (g.blockSize / 4)).foldl (fun s i =>
        let b := s.rd32 (outer.add (4 * i))
        if b = 0 then s
        else
          let s := s.freeTable g (s.blkPtr g b)
          s.freeBlock g (s.rd32 (outer.add (4 * i)))) s
      s.freeBlock g (s.iBlock inode 13)

/-! ### The calls -/

/-- The loop of `ext2_write_file`, for a number of turns; the number of bytes written, and whether
the loop ended for want of a block. -/
def writeLoop (g : Geometry) (inode : Ptr) (offset : Nat) : Nat → List UInt8 → Nat → Image →
    Nat × Bool × Image
  | 0, _, done, s => (done, false, s)
  | turns + 1, data, done, s =>
    if data = [] then (done, false, s)
    else
      let fileOff := (offset + done) % 2 ^ 32
      let inBlock := fileOff % g.blockSize
      let chunk := min (g.blockSize - inBlock) data.length
      let r := s.blockForIndex g inode (fileOff / g.blockSize)
      if r.1 = 0 then (done, true, r.2)
      else writeLoop g inode offset turns (data.drop chunk) (done + chunk)
        (r.2.put g [((r.2.blkPtr g r.1).add inBlock, data.take chunk)]
          ((r.1 * g.blockSize + inBlock) % 2 ^ 32) chunk)

/-- `ext2_write_file`. -/
def writeFile (ino offset : Nat) (data : List UInt8) : Image :=
  let inode := s.inodePtr g ino
  match writeLoop g inode offset data.length data 0 s with
  | (_, true, s) => s
  | (done, false, s) =>
    let last := (offset + done) % 2 ^ 32
    if s.rd32 (inode.add 4) < last then
      s.put g [(inode.add 4, le 4 last)] (Image.offset g (inode.add 4)) 4
    else s

/-- `dirent_min_len`. -/
def direntMinLen (len : Nat) : Nat := (8 + len + 3) / 4 * 4

/-- The bytes of an entry without its `rec_len`. -/
def direntFields (de : Ptr) (ino : Nat) (name : List UInt8) (type : UInt8) :
    List (Ptr × List UInt8) :=
  [(de, le 4 ino), (de.add 6, [UInt8.ofNat name.length, if g.hasFiletype then type else 0]),
    (de.add 8, name)]

/-- The bytes of an entry that are in use. -/
def usedLen (s : Image) (de : Ptr) : Nat :=
  if s.rd32 de = 0 then 0 else direntMinLen (s.load (de.add 6)).toNat

/-- `insert_dirent`; whether it returned 0. -/
def insertDirent (dir : Ptr) (ino : Nat) (name : List UInt8) (type : UInt8) :
    Bool × Image :=
  let need := direntMinLen name.length
  match (s.dirents g dir).find? (fun e =>
      let de := e.1.add e.2.2
      need + s.usedLen de ≤ s.rd16 (de.add 4)) with
  | some e =>
    let de := e.1.add e.2.2
    let recLen := s.rd16 (de.add 4)
    let used := s.usedLen de
    if s.rd32 de = 0 then (true, s.put g (direntFields g de ino name type) (offset g de) recLen)
    else
      let nde := de.add used
      (true, s.put g ((de.add 4, le 2 used) :: (nde.add 4, le 2 (recLen - used)) ::
        direntFields g nde ino name type) (offset g de) recLen)
  | none =>
    let nblocks := (s.rd32 (dir.add 4) + g.blockSize - 1) % 2 ^ 32 / g.blockSize
    let r := s.blockForIndex g dir nblocks
    if r.1 = 0 then (false, r.2)
    else
      let s := r.2.put g [(dir.add 4, le 4 ((r.2.rd32 (dir.add 4) + g.blockSize) % 2 ^ 32))]
        (offset g (dir.add 4)) 4
      let de := s.blkPtr g r.1
      (true, s.put g ((de.add 4, le 2 (g.blockSize % 2 ^ 16)) :: direntFields g de ino name type)
        (r.1 * g.blockSize % 2 ^ 32) g.blockSize)

/-- The mode and the links of a new inode. -/
def initInode (inode : Ptr) (mode links : Nat) : Image :=
  s.put g [(inode, le 2 mode), (inode.add 26, le 2 links)] (offset g inode) g.inodeSize

/-- `ext2_create`. -/
def create (parentIno : Nat) (name : List UInt8) : Image :=
  if name.length = 0 ∨ 255 < name.length ∨ s.findInDir g parentIno name ≠ 0 ∨
      s.isDir (s.inodePtr g parentIno) = false then s
  else
    let parent := s.inodePtr g parentIno
    let a := s.allocInode g false
    if a.1 = 0 then a.2
    else
      let s := a.2.initInode g (a.2.inodePtr g a.1) 0o100644 1
      let r := s.insertDirent g parent a.1 name 1
      if r.1 then r.2 else r.2.freeInode g a.1 false

/-- `ext2_mkdir`. -/
def mkdir (parentIno : Nat) (name : List UInt8) : Image :=
  if name.length = 0 ∨ 255 < name.length ∨ s.findInDir g parentIno name ≠ 0 ∨
      s.isDir (s.inodePtr g parentIno) = false then s
  else
    let parent := s.inodePtr g parentIno
    let a := s.allocInode g true
    if a.1 = 0 then a.2
    else
      let inode := a.2.inodePtr g a.1
      let s := a.2.initInode g inode 0o40755 2
      let b := s.blockForIndex g inode 0
      if b.1 = 0 then b.2.freeInode g a.1 true
      else
        let s := b.2.put g [(inode.add 4, le 4 g.blockSize)] (offset g (inode.add 4)) 4
        let dot := s.blkPtr g b.1
        let s := s.put g ((dot.add 4, le 2 12) :: direntFields g dot a.1 [46] 2)
          (b.1 * g.blockSize % 2 ^ 32) g.blockSize
        let dotdot := (s.blkPtr g b.1).add 12
        let s := s.put g ((dotdot.add 4, le 2 ((g.blockSize - 12) % 2 ^ 16)) ::
          direntFields g dotdot parentIno [46, 46] 2) (b.1 * g.blockSize % 2 ^ 32) g.blockSize
        let r := s.insertDirent g parent a.1 name 2
        if r.1 then
          r.2.put g [(parent.add 26, le 2 ((r.2.rd16 (parent.add 26) + 1) % 2 ^ 16))]
            (offset g (parent.add 26)) 2
        else (r.2.freeBlock g b.1).freeInode g a.1 true

/-- `ext2_truncate`. -/
def truncate (depth : Nat) (s : Image) (ino : Nat) : Image :=
  let inode := s.inodePtr g ino
  let s := s.freeAllBlocks g depth inode
  let flags := s.rd32 (inode.add 32)
  s.put g [(inode.add 40, List.replicate 60 0),
    (inode.add 32, le 4 (if flags.testBit 19 then flags - 2 ^ 19 else flags)),
    (inode.add 4, le 4 0), (inode.add 28, le 4 0)] (offset g inode) g.inodeSize

/-- The entry that `ext2_unlink` finds. -/
def findDirent (parent : Ptr) (name : List UInt8) :
    Option (Ptr × Option Nat × Nat) :=
  (s.dirents g parent).find? fun e => s.isNamed (e.1.add e.2.2) name

/-- The entry is taken out: the one before it is made longer, or its inode becomes 0. -/
def removeDirent (e : Ptr × Option Nat × Nat) : Image :=
  let de := e.1.add e.2.2
  match e.2.1 with
  | some prevOff =>
    let prev := e.1.add prevOff
    let recLen := (s.rd16 (prev.add 4) + s.rd16 (de.add 4)) % 2 ^ 16
    s.put g [(prev.add 4, le 2 recLen)] (offset g prev) recLen
  | none => s.put g [(de, le 4 0)] (offset g de) (s.rd16 (de.add 4))

/-- `ext2_unlink`: what it returns, and the image. -/
def unlink (depth : Nat) (s : Image) (parentIno : Nat) (name : List UInt8) : Int × Image :=
  let parent := s.inodePtr g parentIno
  if s.isDir parent = false then (-1, s)
  else
    match s.findDirent g parent name with
    | none => (-1, s)
    | some e =>
      let de := e.1.add e.2.2
      let target := s.rd32 de
      let isDir := s.load (de.add 7) = 2
      let s := s.removeDirent g e
      let inode := s.inodePtr g target
      if isDir then
        if s.dirIsEmpty g inode = false then (-1, s)
        else
          let s := s.put g [(parent.add 26, le 2 ((s.rd16 (parent.add 26) + 2 ^ 16 - 1) % 2 ^ 16))]
            (offset g (parent.add 26)) 2
          (0, (s.freeAllBlocks g depth inode).freeInode g target true)
      else
        let links := s.rd16 (inode.add 26)
        let links' := links - 1
        -- the field is stored, but marked only where links are left
        let s := if 0 < links then s.store (inode.add 26) (le 2 links') else s
        (0, if links' = 0 then (s.freeAllBlocks g depth inode).freeInode g target false
          else s.markDirty g (offset g (inode.add 26)) 2)

/-- `sync_mount_to_usb`, with all writes succeeding. -/
def sync : Image :=
  { s with
    device := fun i =>
      if i / 512 < g.size / 512 ∧ s.dirty (i / 512) = true then s.bytes i else s.device i
    dirty := fun _ => false }

end Image

end Ext2
