import LufiraOS.Vfs.Core

/-!
# Reading, writing and seeking through descriptors

`vfs_read`, `vfs_write`, `vfs_seek` and `vfs_readdir` of `kernel/fs/vfs/vfs.c`
with the operations of LufiraFS files from `kernel/fs/lufirafs/lufirafs_vfs.c`.
What the console and the files of the other file systems answer is the argument
`dev`; a call that blocks in a pipe has no result yet.
-/

namespace Vfs

open LufiraFs ByteStore

namespace Sys

variable (s : Sys)

/-- `lufirafs_file_read` on the file `f` in `slot`. -/
def lufirafsFileRead (slot : Nat) (f : File) (count : Nat) : Int × List UInt8 × Sys :=
  match f.inode with
  | none => (-1, [], s)
  | some inode =>
    match inode.privateData with
    | .lufira priv =>
      if priv.isDir then (-1, [], s)
      else
        match s.fs.read priv.ino f.offset (count % 4294967296) with
        | (n, bytes, fs) =>
          let s := { s with fs := fs }
          if 0 < n then
            (n, bytes, s.setFile slot
              (some { f with offset := (f.offset + n.toNat) % 4294967296 }))
          else (n, bytes, s)
    | _ => (-1, [], s)

/-- Where `lufirafs_file_write` writes. -/
def writeOffset (f : File) (inode : VInode) : Nat :=
  if hasFlag f.flags oAppend then inode.size else f.offset

/-- `lufirafs_file_write` on the file `f` in `slot`. -/
def lufirafsFileWrite (slot : Nat) (f : File) (src : Bytes) (count : Nat) : Int × Sys :=
  match f.inode with
  | none => (-1, s)
  | some inode =>
    match inode.privateData with
    | .lufira priv =>
      if priv.isDir then (-1, s)
      else
        match s.fs.write priv.ino (writeOffset f inode) src (count % 4294967296) with
        | (n, fs) =>
          if 0 < n then
            let size := match fs.readInode priv.ino with
              | none => inode.size
              | some r => r.size.toNat
            (n, { s with fs := fs.sync }.setFile slot (some { f with
              offset := (writeOffset f inode + n.toNat) % 4294967296
              inode := some { inode with size := size } }))
          else (n, { s with fs := fs })
    | _ => (-1, s)

/-- The 32 low bits of a 64-bit offset. -/
def low32 (offset : Int) : Nat := (offset % 4294967296).toNat

/-- `lufirafs_file_seek` on the file `f` in `slot`. -/
def lufirafsFileSeek (slot : Nat) (f : File) (offset : Int) (whence : Nat) : Int × Sys :=
  match f.inode with
  | none => (-1, s)
  | some inode =>
    let target : Option Nat :=
      match whence with
      | 0 => some (low32 offset)
      | 1 => some ((f.offset + low32 offset) % 4294967296)
      | 2 => some ((inode.size + low32 offset) % 4294967296)
      | _ => none
    match target with
    | none => (-1, s)
    | some t =>
      let pos := if inode.size < t then inode.size else t
      (toInt pos, s.setFile slot (some { f with offset := pos }))

/-- `lufirafs_inode_readdir`: the result, the entry, and the cursor behind it. -/
def inodeReaddir (priv : Private) : Int × Option (UInt32 × CStr) × Nat × Sys :=
  if priv.isDir then
    match s.fs.readdir priv.ino priv.index with
    | (some (ino, name, next), fs) => (1, some (ino, name), next, { s with fs := fs })
    | (none, fs) =>
      let last := match s.fs.readInode priv.ino with
        | none => priv.index
        | some r => max priv.index (blocksOf r.size.toNat * 128)
      (0, none, if s.fs.env.heap 0 then last else priv.index, { s with fs := fs })
  else (-1, none, priv.index, s)

/-- `vfs_readdir`. -/
def vfsReaddir (pid fd : Nat) (dev : Int) : Int × Option (UInt32 × CStr) × Sys :=
  match if fd < maxFdPerProcess then s.tables pid fd else none with
  | none => (-1, none, s)
  | some slot =>
    match s.files slot with
    | none => (-1, none, s.crash)
    | some f =>
      match f.inode with
      | none => (-1, none, s)
      | some inode =>
        if inode.type ≠ .directory then (-1, none, s)
        else
          match inode.privateData with
          | .lufira priv =>
            match s.inodeReaddir priv with
            | (res, entry, index, s) =>
              (res, entry, s.setFile slot (some { f with
                inode := some { inode with privateData := .lufira { priv with index := index } }
                offset := if 0 < res then f.offset + 1 else f.offset }))
          | .other => (dev, none, s)
          | _ => (-1, none, s)

/-- The `read` operation of the file `f` in `slot`; `none` when it blocks. -/
def readOp (pid slot : Nat) (f : File) (count : Nat) (dev : Int) :
    Option Int × List UInt8 × Sys :=
  match f.ops with
  | some .lufiraFile =>
    match s.lufirafsFileRead slot f count with
    | (n, bytes, s) => (some n, bytes, s)
  | some .lufiraDir =>
    match s.vfsReaddir pid f.fd dev with
    | (n, _, s) => (some n, [], s)
  | some .pipeRead =>
    match f.inode.map VInode.privateData with
    | some (.pipe p) =>
      match s.pipes p with
      | none => (some (-1), [], s.crash)
      | some pipe =>
        match pipeReadLoop pid count [] ⟨pipe, s.state⟩ with
        | (exit, bytes, sh) =>
          (if exit = .returned then some (pipeReadResult bytes.length) else none, bytes,
            { s.setPipe p (some sh.pipe) with state := sh.state })
    | _ => (some (-1), [], s)
  | some .console | some .other => (some dev, [], s)
  | some .pipeWrite | none => (some (-1), [], s)

/-- `vfs_read`. -/
def vfsRead (pid fd count : Nat) (dev : Int) : Option Int × List UInt8 × Sys :=
  match if fd < maxFdPerProcess then s.tables pid fd else none with
  | none => (some (-1), [], s)
  | some slot =>
    match s.files slot with
    | none => (some (-1), [], s.crash)
    | some f => s.readOp pid slot f count dev

/-- The `write` operation of the file `f` in `slot`; `none` when it blocks. -/
def writeOp (pid slot : Nat) (f : File) (src : Bytes) (count : Nat) (dev : Int) :
    Option Int × Sys :=
  match f.ops with
  | some .lufiraFile =>
    match s.lufirafsFileWrite slot f src count with
    | (n, s) => (some n, s)
  | some .pipeWrite =>
    match f.inode.map VInode.privateData with
    | some (.pipe p) =>
      match s.pipes p with
      | none => (some (-1), s.crash)
      | some pipe =>
        match pipeWriteLoop pid ((List.range count).map src) 0 ⟨pipe, s.state⟩ with
        | (exit, _, total, sh) =>
          (if exit = .returned then some (pipeWriteResult count total) else none,
            { s.setPipe p (some sh.pipe) with state := sh.state })
    | _ => (some (-1), s)
  | some .console | some .other => (some dev, s)
  | some .lufiraDir | some .pipeRead | none => (some (-1), s)

/-- `vfs_write` of the first `count` bytes of `src`. -/
def vfsWrite (pid fd : Nat) (src : Bytes) (count : Nat) (dev : Int) :
    Option Int × Sys :=
  match if fd < maxFdPerProcess then s.tables pid fd else none with
  | none => (some (-1), s)
  | some slot =>
    match s.files slot with
    | none => (some (-1), s.crash)
    | some f => s.writeOp pid slot f src count dev

/-- `vfs_seek`. -/
def vfsSeek (pid fd : Nat) (offset : Int) (whence : Nat) (dev : Int) : Int × Sys :=
  match if fd < maxFdPerProcess then s.tables pid fd else none with
  | none => (-1, s)
  | some slot =>
    match s.files slot with
    | none => (-1, s.crash)
    | some f =>
      match f.ops with
      | some .lufiraFile => s.lufirafsFileSeek slot f offset whence
      | some .other => (dev, s)
      | _ => (-1, s)

end Sys

end Vfs
