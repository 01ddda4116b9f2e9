import LufiraOS.Driver.Dir

/-!
# The host tool

`tools/mkfs_lufirafs.c`: formatting a region and filling it with directories and
files.  The tool holds the whole region in memory, works on a copy of the
superblock, and leaves the process when something goes wrong; what a command
leaves behind is the region it writes back to the disk image.
-/

namespace LufiraFs

open ByteStore

namespace Mkfs

/-- The reasons for which the tool gives up. -/
inductive Failure where
  | outOfDataBlocks
  | outOfInodes
  | fileTooLarge
  | notAbsolute (path : CStr)
  | pathTooLong
  | regionTooSmall
  | notFound (path : CStr)

/-- `g_image` and `g_sb`. -/
structure Region where
  image : Bytes
  sb : Superblock

namespace Region

variable (g : Region)

/-- `g_sb.data_start`. -/
def dataStart : Nat := g.sb.dataStart.toNat

/-- `g_sb.total_blocks`. -/
def totalBlocks : Nat := g.sb.totalBlocks.toNat

/-- The contents of the block at `block_ptr`. -/
def block (b : Nat) : Bytes := window g.image (b * 8192) 8192

/-- Replace the contents of the block at `block_ptr`. -/
def setBlock (b : Nat) (buf : Bytes) : Region :=
  { g with image := copyIn g.image (b * 8192) 8192 buf }

/-- `write_superblock`. -/
def writeSuperblock : Region :=
  { g with image := copyIn g.image 0 8192 g.sb.bytes }

/-- `bitmap_test`. -/
def bitmapTest (b : Nat) : Bool := bitAt g.image (g.sb.bitmapStart.toNat * 8192) b

/-- `bitmap_set`. -/
def bitmapSet (b : Nat) (used : Bool) : Region :=
  { g with image := setBitAt g.image (g.sb.bitmapStart.toNat * 8192) b used }

/-- The scan of `alloc_block` over `n` blocks from `b` on. -/
def scanClear (g : Region) : (b n : Nat) → Option Nat
  | _, 0 => none
  | b, n + 1 => if g.bitmapTest b then scanClear g (b + 1) n else some b

/-- `alloc_block`. -/
def allocBlock : Except Failure (Nat × Region) :=
  match g.scanClear g.dataStart (g.totalBlocks - g.dataStart) with
  | none => .error .outOfDataBlocks
  | some b =>
    let g := (g.bitmapSet b true).setBlock b zeros
    .ok (b, { g with sb := g.sb.takeBlock })

/-- The place of a record in the inode table; inode numbers are positive. -/
def inodeOff (ino : Nat) : Nat :=
  (g.sb.inodeTableStart.toNat * 8192 + (ino - 1) * 76) % 4294967296

/-- `read_inode`. -/
def readInode (ino : Nat) : Inode := Inode.ofBytes g.image (g.inodeOff ino)

/-- `write_inode`. -/
def writeInode (ino : Nat) (r : Inode) : Region :=
  { g with image := copyIn g.image (g.inodeOff ino) 76 r.bytes }

/-- The scan of `alloc_inode` over `n` slots from `ino` on. -/
def scanFreeInode (g : Region) : (ino n : Nat) → Option Nat
  | _, 0 => none
  | ino, n + 1 =>
    if (g.readInode ino).mode = modeFree then some ino else scanFreeInode g (ino + 1) n

/-- `alloc_inode`. -/
def allocInode : Except Failure (Nat × Region) :=
  match g.scanFreeInode 1 g.sb.inodeCount.toNat with
  | none => .error .outOfInodes
  | some ino => .ok (ino, { g with sb := g.sb.takeInode })

/-! ## Blocks of a file -/

/-- The part of `inode_get_block` that works on the indirect block. -/
def entryGetBlock (r : Inode) (idx : Nat) (create : Bool) :
    Except Failure (Nat × Inode × Region) :=
  let bn := (word32 (g.block r.indirect.toNat) (4 * idx)).toNat
  if bn = 0 ∧ create then
    match g.allocBlock with
    | .error e => .error e
    | .ok (nb, g) =>
      .ok (nb, r, g.setBlock r.indirect.toNat
        (putWord (g.block r.indirect.toNat) (4 * idx) (UInt32.ofNat nb)))
  else .ok (bn, r, g)

/-- `inode_get_block`: the block number, the record and the region. -/
def inodeGetBlock (r : Inode) (b : Nat) (create : Bool) :
    Except Failure (Nat × Inode × Region) :=
  if h : b < 12 then
    if r.direct ⟨b, h⟩ = 0 ∧ create then
      match g.allocBlock with
      | .error e => .error e
      | .ok (nb, g) => .ok (nb, r.setDirect ⟨b, h⟩ (UInt32.ofNat nb), g)
    else .ok ((r.direct ⟨b, h⟩).toNat, r, g)
  else if 2048 ≤ b - 12 then .error .fileTooLarge
  else if r.indirect = 0 then
    if create then
      match g.allocBlock with
      | .error e => .error e
      | .ok (ib, g) => g.entryGetBlock (r.setIndirect (UInt32.ofNat ib)) (b - 12) true
    else .ok (0, r, g)
  else g.entryGetBlock r (b - 12) create

/-! ## Directories -/

/-- Fill entry `i` of a block: `strncpy` pads the name with zero bytes. -/
def putEntry (blk : Bytes) (i : Nat) (ino : UInt32) (name : CStr) : Bytes :=
  copyIn (putWord blk (64 * i) ino) (64 * i + 4) 60 (cstrBytes (name.take 59))

/-- The block loop of `add_dirent`; block numbers are used as they come. -/
def addDirentBlocks (g : Region) (r : Inode) (name : CStr) (entryIno : Nat) :
    (b n : Nat) → Except Failure (Option Region)
  | _, 0 => .ok none
  | b, n + 1 =>
    match g.inodeGetBlock r b false with
    | .error e => .error e
    | .ok (bn, _, _) =>
      match findUnused (g.block bn) 0 128 with
      | some i => .ok (some (g.setBlock bn (putEntry (g.block bn) i (UInt32.ofNat entryIno) name)))
      | none => addDirentBlocks g r name entryIno (b + 1) n

/-- `add_dirent`. -/
def addDirent (dirIno : Nat) (name : CStr) (entryIno : Nat) :
    Except Failure Region :=
  let r := g.readInode dirIno
  match g.addDirentBlocks r name entryIno 0 (blocksOf r.size.toNat) with
  | .error e => .error e
  | .ok (some g) => .ok g
  | .ok none =>
    match g.inodeGetBlock r (blocksOf r.size.toNat) true with
    | .error e => .error e
    | .ok (bn, r, g) =>
      let g := g.setBlock bn (putEntry (g.block bn) 0 (UInt32.ofNat entryIno) name)
      .ok (g.writeInode dirIno (r.setSize (UInt32.ofNat ((blocksOf r.size.toNat + 1) * 8192))))

/-- The block loop of `lookup_in_dir`. -/
def lookupBlocks (g : Region) (r : Inode) (name : CStr) :
    (b n : Nat) → Except Failure (Option Nat)
  | _, 0 => .ok none
  | b, n + 1 =>
    match g.inodeGetBlock r b false with
    | .error e => .error e
    | .ok (bn, _, _) =>
      if bn = 0 then lookupBlocks g r name (b + 1) n
      else
        match findEntry (g.block bn) name 0 128 with
        | some i => .ok (some (direntIno (g.block bn) i).toNat)
        | none => lookupBlocks g r name (b + 1) n

/-- `lookup_in_dir`. -/
def lookupInDir (dirIno : Nat) (name : CStr) : Except Failure (Option Nat) :=
  let r := g.readInode dirIno
  if r.mode ≠ modeDir then .ok none
  else g.lookupBlocks r name 0 (blocksOf r.size.toNat)

/-- A new directory `name` in `cur`, as `ensure_dir_path` makes it. -/
def makeDir (cur : Nat) (name : CStr) : Except Failure (Nat × Region) := do
  let (ino, g) ← g.allocInode
  let g := g.writeInode ino
    { Inode.zero with mode := modeDir, linksCount := 2, perm := defaultDirPerm }
  let g ← g.addDirent ino dot ino
  let g ← g.addDirent ino dotDot cur
  let g ← g.addDirent cur name ino
  return (ino, g)

/-- One round of `ensure_dir_path`: what `cur` has under `name`, or a new directory. -/
def enterDir (cur : Nat) (name : CStr) : Except Failure (Nat × Region) :=
  match g.lookupInDir cur name with
  | .error e => .error e
  | .ok (some next) => .ok (next, g)
  | .ok none => g.makeDir cur name

/-- The loop of `ensure_dir_path` over the components of the path. -/
def ensureDirs : List CStr → Nat → Region → Except Failure (Nat × Region)
  | [], cur, g => .ok (cur, g)
  | name :: rest, cur, g =>
    match g.enterDir cur name with
    | .error e => .error e
    | .ok (next, g) => ensureDirs rest next g

/-- `ensure_dir_path`. -/
def ensureDirPath (path : CStr) : Except Failure (Nat × Region) :=
  if path.head? = some slash then ensureDirs (components path.tail) g.sb.rootInode.toNat g
  else .error (.notAbsolute path)

/-- `split_path`: the parent directory and the name of the last component. -/
def splitPath (path : CStr) : Except Failure (Nat × CStr × Region) :=
  if slash ∉ path then .error (.notAbsolute path)
  else
    let name := (lastComponent path).take 59
    let dlen := path.length - (lastComponent path).length - 1
    if dlen = 0 then .ok (g.sb.rootInode.toNat, name, g)
    else if 512 ≤ dlen then .error .pathTooLong
    else
      match g.ensureDirPath (path.take dlen) with
      | .error e => .error e
      | .ok (parent, g) => .ok (parent, name, g)

/-! ## Commands -/

/-- Mark the `n` blocks from `b` on as used. -/
def markUsed : (b n : Nat) → Region → Region
  | _, 0, g => g
  | b, n + 1, g => markUsed (b + 1) n (g.bitmapSet b true)

/-- `cmd_format` up to the entries of the root directory: metadata blocks marked
used, counters set, and the record of the root written. -/
def blank (totalBlocks : UInt32) : Region :=
  let sb := computeLayout totalBlocks (Superblock.ofBytes zeros)
  let g : Region := markUsed 0 sb.dataStart.toNat ⟨zeros, sb⟩
  let g := { g with
    sb := { g.sb with freeBlocks := totalBlocks - sb.dataStart, freeInodes := sb.inodeCount } }
  let g := g.writeSuperblock
  let g := g.writeInode g.sb.rootInode.toNat
    { Inode.zero with mode := modeDir, linksCount := 2, perm := defaultDirPerm }
  let g := { g with sb := { g.sb with freeInodes := g.sb.freeInodes - 1 } }
  g.writeSuperblock

/-- `cmd_format`. -/
def cmdFormat (size : UInt32) : Except Failure Region :=
  let totalBlocks := size / 8192
  if totalBlocks ≤ (computeLayout totalBlocks (Superblock.ofBytes zeros)).dataStart then
    .error .regionTooSmall
  else
    let g := blank totalBlocks
    let root := g.sb.rootInode.toNat
    match g.addDirent root dot root with
    | .error e => .error e
    | .ok g => g.addDirent root dotDot root

/-- The loop of `cmd_put`; every round writes at least one byte, so `remaining` is
enough fuel. -/
def putLoop (data : Bytes) : (fuel pos remaining : Nat) → Inode → Region →
    Except Failure (Inode × Region)
  | 0, _, _, r, g => .ok (r, g)
  | fuel + 1, pos, remaining, r, g =>
    if remaining = 0 then .ok (r, g)
    else
      let off := pos % 8192
      let chunk := min (8192 - off) remaining
      match g.inodeGetBlock r (pos / 8192) true with
      | .error e => .error e
      | .ok (bn, r, g) =>
        putLoop data fuel (pos + chunk) (remaining - chunk) r
          (g.setBlock bn (copyIn (g.block bn) off chunk fun i => data (pos + i)))

/-- The inode that `cmd_put` writes to: the one that is there or a new file. -/
def putTarget (parent : Nat) (name : CStr) (perm : UInt32) :
    Except Failure (Nat × Region) := do
  match ← g.lookupInDir parent name with
  | some ino => return (ino, g)
  | none =>
    let (ino, g) ← g.allocInode
    let g := g.writeInode ino
      { Inode.zero with mode := modeFile, linksCount := 1, perm := perm }
    let g ← g.addDirent parent name ino
    return (ino, g)

/-- `cmd_put` of the first `len` bytes of `data`. -/
def cmdPut (data : Bytes) (len : UInt32) (path : CStr) (perm : UInt32) :
    Except Failure Region := do
  let (parent, name, g) ← g.splitPath path
  let (ino, g) ← g.putTarget parent name perm
  let (r, g) ← putLoop data len.toNat 0 len.toNat (g.readInode ino) g
  return (g.writeInode ino (r.setSize len)).writeSuperblock

/-- The loop of `cmd_cat`: what the `n` blocks from `b` on print. -/
def catLoop (g : Region) (r : Inode) : (b n remaining : Nat) → Except Failure (List UInt8)
  | _, 0, _ => .ok []
  | b, n + 1, remaining =>
    match g.inodeGetBlock r b false with
    | .error e => .error e
    | .ok (bn, _, _) =>
      let chunk := if remaining < 8192 then remaining else 8192
      let bytes := (List.range chunk).map fun i => if bn = 0 then 0 else g.block bn i
      match catLoop g r (b + 1) n (remaining - chunk) with
      | .error e => .error e
      | .ok rest => .ok (bytes ++ rest)

/-- `cmd_cat`: the bytes printed. -/
def cmdCat (path : CStr) : Except Failure (List UInt8) := do
  let (parent, name, g) ← g.splitPath path
  match ← g.lookupInDir parent name with
  | none => throw (.notFound path)
  | some ino =>
    let r := g.readInode ino
    g.catLoop r 0 (blocksOf r.size.toNat) r.size.toNat

/-- `load_region`. -/
def load (image : Bytes) : Region := ⟨image, Superblock.ofBytes image⟩

end Region

/-! ## The program -/

/-- `mkfs_lufirafs format`: the region it leaves on the disk image. -/
def format (size : UInt32) : Except Failure Bytes := do
  let g ← Region.cmdFormat size
  return g.image

/-- `mkfs_lufirafs mkdir`. -/
def mkdir (image : Bytes) (path : CStr) : Except Failure Bytes := do
  let (_, g) ← (Region.load image).ensureDirPath path
  return g.writeSuperblock.image

/-- `mkfs_lufirafs put`. -/
def put (image data : Bytes) (len : UInt32) (path : CStr) (perm : UInt32) :
    Except Failure Bytes := do
  let g ← (Region.load image).cmdPut data len path perm
  return g.image

/-- `mkfs_lufirafs cat`. -/
def cat (image : Bytes) (path : CStr) : Except Failure (List UInt8) :=
  (Region.load image).cmdCat path

end Mkfs

end LufiraFs
