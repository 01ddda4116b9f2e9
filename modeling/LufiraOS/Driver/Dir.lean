import LufiraOS.Driver.Core

/-!
# The LufiraFS driver: directories and paths

Directory entries and path resolution of `kernel/fs/lufirafs/lufirafs.c`.
Path resolution alternates between cutting off the next component and looking
it up; cutting does not look at the disk, so the components of a path are a list
and the lookups run over it.
-/

namespace LufiraFs

open ByteStore

/-! ## Entries of one block -/

/-- The first used entry with the given name among the `n` entries from `i` on. -/
def findEntry (blk : Bytes) (name : CStr) : (i n : Nat) → Option Nat
  | _, 0 => none
  | i, n + 1 =>
    if direntIno blk i ≠ 0 ∧ direntName blk i = name then some i
    else findEntry blk name (i + 1) n

/-- The first unused entry among the `n` entries from `i` on. -/
def findUnused (blk : Bytes) : (i n : Nat) → Option Nat
  | _, 0 => none
  | i, n + 1 => if direntIno blk i = 0 then some i else findUnused blk (i + 1) n

/-! ## Paths -/

/-- The component at the front of `p`: up to the next slash, at most 59
characters. -/
def component (p : CStr) : CStr := (p.takeWhile (· ≠ slash)).take 59

/-- What follows the component at the front of `p` and the slashes behind it. -/
def afterComponent (p : CStr) : CStr :=
  (p.drop (component p).length).dropWhile (· = slash)

/-- The non-empty components of a path, cut as `lufirafs_lookup` cuts them.
Every round removes a character, so the length of the path is enough fuel. -/
def componentsAux : (fuel : Nat) → CStr → List CStr
  | 0, _ => []
  | fuel + 1, p =>
    if p = [] then []
    else if component p = [] then componentsAux fuel (afterComponent p)
    else component p :: componentsAux fuel (afterComponent p)

/-- The components of a path. -/
def components (p : CStr) : List CStr := componentsAux p.length p

/-- `path` without its trailing slashes; at least one character stays. -/
def trimSlashes (path : CStr) : CStr :=
  let t := (path.reverse.dropWhile (· = slash)).reverse
  if t = [] then path.take 1 else t

/-- The characters behind the last slash of `p`. -/
def lastComponent (p : CStr) : CStr := (p.reverse.takeWhile (· ≠ slash)).reverse

namespace Mount

/-- The block loop of `lookup_in_dir` over `n` blocks from `b` on. -/
def lookupBlocks (r : Inode) (name : CStr) : (b n : Nat) → Mount → Option Nat × Mount
  | _, 0, fs => (none, fs)
  | b, n + 1, fs =>
    match fs.fetchBlock r b with
    | (none, fs) => lookupBlocks r name (b + 1) n fs
    | (some (_, blk), fs) =>
      match findEntry blk name 0 128 with
      | some i => (some (direntIno blk i).toNat, fs)
      | none => lookupBlocks r name (b + 1) n fs

variable (fs : Mount)

/-- `lookup_in_dir`. -/
def lookupInDir (dirIno : Nat) (name : CStr) : Option Nat × Mount :=
  match fs.readInode dirIno with
  | none => (none, fs)
  | some r =>
    if r.mode ≠ modeDir then (none, fs)
    else
      match fs.kmalloc with
      | (false, fs) => (none, fs)
      | (true, fs) => lookupBlocks r name 0 (blocksOf r.size.toNat) fs

/-- The block loop of `add_dirent`: fill the first unused entry.  The flag says
whether one was found. -/
def addDirentBlocks (r : Inode) (name : CStr) (entryIno : Nat) :
    (b n : Nat) → Mount → Bool × Mount
  | _, 0, fs => (false, fs)
  | b, n + 1, fs =>
    match fs.fetchBlock r b with
    | (none, fs) => addDirentBlocks r name entryIno (b + 1) n fs
    | (some (bn, blk), fs) =>
      match findUnused blk 0 128 with
      | some i => (true, (fs.writeDataBlock bn (putDirent blk i (UInt32.ofNat entryIno) name)).2)
      | none => addDirentBlocks r name entryIno (b + 1) n fs

/-- The tail of `add_dirent`: no entry is unused, so the directory grows by a
block that holds the new entry alone. -/
def addDirentGrow (dirIno : Nat) (r : Inode) (name : CStr) (entryIno : Nat) :
    Bool × Mount :=
  match fs.inodeGetBlock r (blocksOf r.size.toNat) true with
  | (bn, r, fs) =>
    if bn = 0 then (false, fs)
    else
      let fs := (fs.writeDataBlock bn (putDirent zeros 0 (UInt32.ofNat entryIno) name)).2
      (true, fs.writeInode dirIno
        (r.setSize (UInt32.ofNat ((blocksOf r.size.toNat + 1) * 8192))))

/-- `add_dirent`; the flag is `true` for result `0` and `false` for `-1`. -/
def addDirent (dirIno : Nat) (name : CStr) (entryIno : Nat) : Bool × Mount :=
  match fs.readInode dirIno with
  | none => (false, fs)
  | some r =>
    match fs.kmalloc with
    | (false, fs) => (false, fs)
    | (true, fs) =>
      match addDirentBlocks r name entryIno 0 (blocksOf r.size.toNat) fs with
      | (true, fs) => (true, fs)
      | (false, fs) => fs.addDirentGrow dirIno r name entryIno

/-- The block loop of `remove_dirent`. -/
def removeDirentBlocks (r : Inode) (name : CStr) : (b n : Nat) → Mount → Bool × Mount
  | _, 0, fs => (false, fs)
  | b, n + 1, fs =>
    match fs.fetchBlock r b with
    | (none, fs) => removeDirentBlocks r name (b + 1) n fs
    | (some (bn, blk), fs) =>
      match findEntry blk name 0 128 with
      | some i => (true, (fs.writeDataBlock bn (clearDirent blk i)).2)
      | none => removeDirentBlocks r name (b + 1) n fs

/-- `remove_dirent`. -/
def removeDirent (dirIno : Nat) (name : CStr) : Bool × Mount :=
  match fs.readInode dirIno with
  | none => (false, fs)
  | some r =>
    match fs.kmalloc with
    | (false, fs) => (false, fs)
    | (true, fs) => removeDirentBlocks r name 0 (blocksOf r.size.toNat) fs

/-- The loop of `lufirafs_readdir`: the next used entry among the `n` entries
from `index` on, its name, and the cursor behind it. -/
def readdirLoop (r : Inode) : (index n : Nat) → Mount → Option (UInt32 × CStr × Nat) × Mount
  | _, 0, fs => (none, fs)
  | index, n + 1, fs =>
    match fs.fetchBlock r (index / 128) with
    | (none, fs) => readdirLoop r (index + 1) n fs
    | (some (_, blk), fs) =>
      if direntIno blk (index % 128) = 0 then readdirLoop r (index + 1) n fs
      else (some (direntIno blk (index % 128),
        cstrAt blk (64 * (index % 128) + 4) 60, index + 1), fs)

/-- `lufirafs_readdir` on the cursor `(dirIno, index)`. -/
def readdir (dirIno index : Nat) : Option (UInt32 × CStr × Nat) × Mount :=
  match fs.readInode dirIno with
  | none => (none, fs)
  | some r =>
    match fs.kmalloc with
    | (false, fs) => (none, fs)
    | (true, fs) => readdirLoop r index (blocksOf r.size.toNat * 128 - index) fs

/-- Walk down the components of a path. -/
def lookupComponents : List CStr → Nat → Mount → Option Nat × Mount
  | [], cur, fs => (some cur, fs)
  | name :: rest, cur, fs =>
    match fs.lookupInDir cur name with
    | (none, fs) => (none, fs)
    | (some next, fs) => lookupComponents rest next fs

/-- `lufirafs_lookup`. -/
def lookup (startInode : Nat) (path : CStr) : Option Nat × Mount :=
  if path.head? = some slash then
    lookupComponents (components path.tail) fs.rootInode fs
  else lookupComponents (components path) startInode fs

/-- `lufirafs_resolve_parent`: the parent directory and the last component. -/
def resolveParent (startInode : Nat) (path : CStr) :
    Option (Nat × CStr) × Mount :=
  if path = [] then (none, fs)
  else
    let p := trimSlashes path
    let name := lastComponent p
    if name.length = p.length then
      if 59 < p.length then (none, fs) else (some (startInode, p), fs)
    else if name.length = 0 ∨ 59 < name.length then (none, fs)
    else
      let lastSlash := p.length - name.length - 1
      if lastSlash = 0 then (some (fs.rootInode, name), fs)
      else if 256 ≤ lastSlash then (none, fs)
      else
        match fs.lookup startInode (p.take lastSlash) with
        | (none, fs) => (none, fs)
        | (some parent, fs) => (some (parent, name), fs)

end Mount

end LufiraFs
