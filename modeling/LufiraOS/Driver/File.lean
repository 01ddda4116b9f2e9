import LufiraOS.Driver.Dir

/-!
# The LufiraFS driver: files, mounting and write-back

Creation and removal, reading, writing and truncating, and the transfer of the
metadata between memory and device, from `kernel/fs/lufirafs/lufirafs.c`.
Offsets and counts are 32-bit; the data to be written is a byte store of which
the first `count` bytes are used.
-/

namespace LufiraFs

open ByteStore

/-- The conversion of a 32-bit unsigned value to `int`. -/
def toInt (n : Nat) : Int :=
  if n % 4294967296 < 2147483648 then (n % 4294967296 : Nat)
  else (n % 4294967296 : Nat) - 4294967296

namespace Mount

/-! ## Creating and removing -/

/-- The record of a new inode. -/
def newInode (mode uid gid perm : UInt32) : Inode :=
  { Inode.zero with
    mode := mode
    linksCount := if mode = modeDir then 2 else 1
    uid := uid
    gid := gid
    perm := perm }

variable (fs : Mount)

/-- The entries `"."` and `".."` of a new directory; other files get none. -/
def addDots (ino parentIno : Nat) (mode : UInt32) : Bool × Mount :=
  if mode = modeDir then
    match fs.addDirent ino dot ino with
    | (false, fs) => (false, fs)
    | (true, fs) => fs.addDirent ino dotDot parentIno
  else (true, fs)

/-- The part of `lufirafs_create` behind `alloc_inode`: write the record, add
the entries, and give the slot back when one of them cannot be added. -/
def createInode (parentIno : Nat) (name : CStr) (mode uid gid perm : UInt32)
    (ino : Nat) : Except Int Nat × Mount :=
  match (fs.writeInode ino (newInode mode uid gid perm)).addDots ino parentIno mode with
  | (false, fs) => (.error (-3), fs.freeInodeSlot ino)
  | (true, fs) =>
    match fs.addDirent parentIno name ino with
    | (false, fs) => (.error (-3), fs.freeInodeSlot ino)
    | (true, fs) => (.ok ino, fs)

/-- `lufirafs_create`: the new inode number, or the error `-1` (exists), `-2` (no
inode), `-3` (no directory entry). -/
def create (parentIno : Nat) (name : CStr) (mode uid gid perm : UInt32) :
    Except Int Nat × Mount :=
  if name = [] then (.error (-1), fs)
  else
    match fs.lookupInDir parentIno name with
    | (some _, fs) => (.error (-1), fs)
    | (none, fs) =>
      match fs.allocInode with
      | (ino, fs) =>
        if ino = 0 then (.error (-2), fs)
        else fs.createInode parentIno name mode uid gid perm ino

/-- The emptiness scan of `lufirafs_unlink`: the number of entries other than
`"."` and `".."` that `lufirafs_readdir` delivers from `index` on. -/
def countExtra (dirIno : Nat) : (fuel index : Nat) → Mount → Nat × Mount
  | 0, _, fs => (0, fs)
  | fuel + 1, index, fs =>
    match fs.readdir dirIno index with
    | (none, fs) => (0, fs)
    | (some (_, name, next), fs) =>
      match countExtra dirIno fuel next fs with
      | (extra, fs) => (if name ≠ dot ∧ name ≠ dotDot then extra + 1 else extra, fs)

/-- The block loop of `lufirafs_unlink`. -/
def releaseBlocks (r : Inode) : (b n : Nat) → Mount → Mount
  | _, 0, fs => fs
  | b, n + 1, fs =>
    match fs.inodeGetBlock r b false with
    | (bn, _, fs) => releaseBlocks r (b + 1) n (if bn = 0 then fs else fs.freeDataBlock bn)

/-- Release the blocks and the slot of `ino`, as `lufirafs_unlink` does behind its
checks. -/
def releaseInode (ino : Nat) (r : Inode) : Mount :=
  let fs := releaseBlocks r 0 (blocksOf r.size.toNat) fs
  let fs := if r.indirect = 0 then fs else fs.freeDataBlock r.indirect.toNat
  fs.freeInodeSlot ino

/-- The part of `lufirafs_unlink` behind the checks: release the inode, then
remove the entry. -/
def unlinkInode (parentIno : Nat) (name : CStr) (ino : Nat) (r : Inode) : Mount :=
  ((fs.releaseInode ino r).removeDirent parentIno name).2

/-- `lufirafs_unlink`: `0`, or `-1` (not found), `-2` (directory not empty),
`-3` (root). -/
def unlink (parentIno : Nat) (name : CStr) : Int × Mount :=
  if name = [] then (-1, fs)
  else
    match fs.lookupInDir parentIno name with
    | (none, fs) => (-1, fs)
    | (some ino, fs) =>
      if ino = fs.rootInode then (-3, fs)
      else
        match fs.readInode ino with
        | none => (-1, fs)
        | some r =>
          if r.mode = modeDir then
            match countExtra ino (blocksOf r.size.toNat * 128 + 1) 0 fs with
            | (extra, fs) =>
              if 0 < extra then (-2, fs) else (0, fs.unlinkInode parentIno name ino r)
          else (0, fs.unlinkInode parentIno name ino r)

/-! ## Contents -/

/-- The loop of `lufirafs_read`; every round reads at least one byte, so
`remaining` is enough fuel. -/
def readLoop (r : Inode) : (fuel pos remaining : Nat) → Mount → List UInt8 × Mount
  | 0, _, _, fs => ([], fs)
  | fuel + 1, pos, remaining, fs =>
    if remaining = 0 then ([], fs)
    else
      let chunk := min (8192 - pos % 8192) remaining
      match fs.fetchBlock r (pos / 8192) with
      | (blk, fs) =>
        let bytes := (List.range chunk).map fun i =>
          match blk with
          | none => 0
          | some (_, blk) => blk (pos % 8192 + i)
        match readLoop r fuel ((pos + chunk) % 4294967296) (remaining - chunk) fs with
        | (rest, fs) => (bytes ++ rest, fs)

/-- `lufirafs_read`: the result and the bytes stored in the buffer. -/
def read (ino offset count : Nat) : Int × List UInt8 × Mount :=
  match fs.readInode ino with
  | none => (-1, [], fs)
  | some r =>
    if r.size.toNat ≤ offset then (0, [], fs)
    else
      let count := if r.size.toNat < (offset + count) % 4294967296
        then r.size.toNat - offset else count
      match fs.kmalloc with
      | (false, fs) => (-1, [], fs)
      | (true, fs) =>
        match readLoop r count offset count fs with
        | (bytes, fs) => (toInt count, bytes, fs)

/-- The loop of `lufirafs_write`: the record, the bytes still to be written when
it stops, and the position reached. -/
def writeLoop (src : Bytes) : (fuel pos remaining done : Nat) → Inode → Mount →
    Nat × Nat × Inode × Mount
  | 0, pos, remaining, _, r, fs => (remaining, pos, r, fs)
  | fuel + 1, pos, remaining, done, r, fs =>
    if remaining = 0 then (0, pos, r, fs)
    else
      let off := pos % 8192
      let chunk := min (8192 - off) remaining
      match fs.inodeGetBlock r (pos / 8192) true with
      | (bn, r, fs) =>
        if bn = 0 then (remaining, pos, r, fs)
        else
          -- a block that is not overwritten as a whole is read first
          match (if off ≠ 0 ∨ chunk ≠ 8192 then fs.readDataBlock bn else (none, fs)) with
          | (old, fs) =>
            let buf := copyIn (old.getD zeros) off chunk fun i => src (done + i)
            let fs := (fs.writeDataBlock bn buf).2
            writeLoop src fuel (pos + chunk) (remaining - chunk) (done + chunk) r fs

/-- `lufirafs_write`. -/
def write (ino offset : Nat) (src : Bytes) (count : Nat) : Int × Mount :=
  match fs.readInode ino with
  | none => (-1, fs)
  | some r =>
    if maxFileSize < offset + count then (-1, fs)
    else
      match fs.kmalloc with
      | (false, fs) => (-1, fs)
      | (true, fs) =>
        match writeLoop src count offset count 0 r fs with
        | (remaining, pos, r, fs) =>
          if remaining = 0 then
            let r := if r.size.toNat < pos then r.setSize (UInt32.ofNat pos) else r
            (toInt count, fs.writeInode ino r)
          else
            let written := count - remaining
            let r := if r.size.toNat < offset + written
              then r.setSize (UInt32.ofNat (offset + written)) else r
            (if 0 < written then toInt written else -1, fs.writeInode ino r)

/-- The loop of `lufirafs_truncate` over `n` blocks from `b` on.  `ind` is the
copy of the indirect block in which freed entries are cleared; the flag says
whether it has been changed. -/
def truncateLoop : (b n : Nat) → Inode → Option Bytes → Bool → Mount →
    Inode × Option Bytes × Bool × Mount
  | _, 0, r, ind, dirty, fs => (r, ind, dirty, fs)
  | b, n + 1, r, ind, dirty, fs =>
    match fs.inodeGetBlock r b false with
    | (bn, _, fs) =>
      if bn = 0 then truncateLoop (b + 1) n r ind dirty fs
      else
        let fs := fs.freeDataBlock bn
        if h : b < 12 then
          truncateLoop (b + 1) n (r.setDirect ⟨b, h⟩ 0) ind dirty fs
        else
          match ind with
          | none => truncateLoop (b + 1) n r none dirty fs
          | some buf =>
            truncateLoop (b + 1) n r (some (putWord buf (4 * (b - 12)) 0)) true fs

/-- The copy of the indirect block that `lufirafs_truncate` works on: read only
when it is needed, and missing when there is no memory or the read fails. -/
def loadIndirect (needed : Bool) (indirect : Nat) : Option Bytes × Mount :=
  if needed then
    match fs.kmalloc with
    | (false, fs) => (none, fs)
    | (true, fs) => fs.readDataBlock indirect
  else (none, fs)

/-- Write a changed copy of the indirect block back. -/
def storeIndirect (indirect : Nat) (ind : Option Bytes) (dirty : Bool) : Mount :=
  match ind with
  | some buf => if dirty then (fs.writeDataBlock indirect buf).2 else fs
  | none => fs

/-- The shrinking branch of `lufirafs_truncate`. -/
def shrink (r : Inode) (newSize : Nat) : Inode × Mount :=
  let oldN := blocksOf r.size.toNat
  let newN := blocksOf newSize
  let needIndirect : Bool := r.indirect ≠ 0 ∧ 12 < oldN ∧ newN < oldN
  match fs.loadIndirect needIndirect r.indirect.toNat with
  | (ind, fs) =>
    let loopEnd := if needIndirect ∧ ind = none then max newN 12 else oldN
    match truncateLoop newN (loopEnd - newN) r ind false fs with
    | (r, ind, dirty, fs) =>
      let fs := fs.storeIndirect r.indirect.toNat ind dirty
      if newN = 0 ∧ r.indirect ≠ 0 then
        (r.setIndirect 0, fs.freeDataBlock r.indirect.toNat)
      else (r, fs)

/-- `lufirafs_truncate`. -/
def truncate (ino newSize : Nat) : Int × Mount :=
  match fs.readInode ino with
  | none => (-1, fs)
  | some r =>
    match (if newSize < r.size.toNat then fs.shrink r newSize else (r, fs)) with
    | (r, fs) => (0, fs.writeInode ino (r.setSize (UInt32.ofNat newSize)))

/-! ## Mounting and write-back -/

/-- The loop of `lufirafs_sync` over `n` blocks from `b` on. -/
def syncLoop : (b n : Nat) → Mount → Mount
  | _, 0, fs => fs
  | b, n + 1, fs =>
    if fs.dirty b then
      match fs.diskWriteSectors (fs.lbaOf b) 16 (window fs.image (b * 8192) 8192) with
      | (ok, fs) =>
        syncLoop (b + 1) n
          (if ok then { fs with dirty := Function.update fs.dirty b false } else fs)
    else syncLoop (b + 1) n fs

/-- `lufirafs_sync`. -/
def sync : Mount := syncLoop 0 fs.dataStart fs

/-- The loop of `lufirafs_init` that reads the metadata, at most 255 sectors at a
time; `false` when a read fails. -/
def loadMeta (total : Nat) : (fuel done : Nat) → Mount → Bool × Mount
  | 0, _, fs => (true, fs)
  | fuel + 1, done, fs =>
    if total ≤ done then (true, fs)
    else
      let chunk := min 255 (total - done)
      match fs.diskReadSectors ((fs.lbaOffset.toNat + done) % 4294967296) chunk with
      | (none, fs) => (false, fs)
      | (some buf, fs) =>
        loadMeta total fuel (done + chunk)
          { fs with image := copyIn fs.image (done * 512) (chunk * 512) buf }

end Mount

/-- `lufirafs_init` on a device. -/
def initMount (disk : Bytes) (lbaOffset : UInt32) (env : Env) : Option Mount :=
  let fs : Mount :=
    { image := zeros, sb := Superblock.ofBytes zeros, dirty := fun _ => false,
      lbaOffset := lbaOffset, nextFreeBlock := 0, disk := disk, env := env }
  match fs.diskReadSectors lbaOffset.toNat 16 with
  | (none, _) => none
  | (some buf, fs) =>
    let sb := Superblock.ofBytes buf
    if sb.magic ≠ fsMagic then none
    else if sb.blockSize ≠ 8192 then none
    else
      match { fs with sb := sb }.kmalloc with
      | (false, _) => none
      | (true, fs) =>
        let sectors := sb.dataStart.toNat * 16 % 4294967296
        match fs.loadMeta sectors sectors 0 with
        | (false, _) => none
        | (true, fs) =>
          match fs.kmalloc with
          | (false, _) => none
          | (true, fs) => some { fs with nextFreeBlock := fs.dataStart }

end LufiraFs
