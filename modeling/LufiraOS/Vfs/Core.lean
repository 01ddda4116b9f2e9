import LufiraOS.Driver.Paths
import LufiraOS.Vfs.Pipe

/-!
# Open files

The descriptor layer of the kernel: `kernel/fs/vfs/vfs.c` and the part of
`kernel/fs/lufirafs/lufirafs_vfs.c` that opens and uses LufiraFS files.  A
`Sys` holds the mounted file system, the system-wide `file_table`, the pipes,
and the descriptor table of every process; a `file_t *` is the index of its slot
in `file_table`, and a `pipe_t *` a number that is never used again.  The
functions that work on `current_fd_table` take the number of the process instead.

Using an object that has been freed sets `fault`.  A file of one of the other
file systems (FAT, RAMFS, EXT2, EXFAT) is opaque: what such a backend answers is
an argument of the function that asks it.
-/

namespace Vfs

open LufiraFs ByteStore

/-! ## The data -/

/-- `file_type_t`. -/
inductive FileType
  | regular
  | directory
  | chardev
  | blockdev
  | pipe
  | symlink
  deriving DecidableEq, Repr

/-- The `file_ops_t` tables. -/
inductive Ops
  | console
  | pipeRead
  | pipeWrite
  | lufiraFile
  | lufiraDir
  | other
  deriving DecidableEq, Repr

/-- `lufirafs_private_t`; of the directory cursor only its index. -/
structure Private where
  ino : Nat
  isDir : Bool
  index : Nat
  deriving DecidableEq, Repr

/-- What `private_data` of an inode points to. -/
inductive PrivateData
  | null
  | pipe (p : Nat)
  | lufira (priv : Private)
  | other
  deriving DecidableEq, Repr

/-- `inode_t`. -/
structure VInode where
  type : FileType
  size : Nat
  refCount : Nat
  privateData : PrivateData
  deriving DecidableEq, Repr

/-- `file_t`. -/
structure File where
  fd : Nat
  inode : Option VInode
  offset : Nat
  flags : Nat
  ops : Option Ops
  deriving DecidableEq, Repr

/-- A `file_t` just allocated: all zero. -/
def File.blank : File := ⟨0, none, 0, 0, none⟩

/-- The identity of a process. -/
structure Cred where
  uid : UInt32
  gid : UInt32
  cwd : Nat

/-- `MAX_FD_PER_PROCESS`. -/
def maxFdPerProcess : Nat := 16

/-- `MAX_FILES_SYSTEM`. -/
def maxFilesSystem : Nat := 256

/-- The kernel as far as open files are concerned.  `live` marks the processes
whose resources have not been freed. -/
structure Sys where
  fs : Mount
  files : Nat → Option File
  pipes : Nat → Option Pipe
  nextPipe : Nat
  tables : Nat → Nat → Option Nat
  live : Nat → Bool
  cred : Nat → Cred
  state : Nat → ProcState
  nextPid : Nat
  fault : Bool

/-- `O_WRONLY`. -/
def oWronly : Nat := 1

/-- `O_CREAT`. -/
def oCreat : Nat := 4

/-- `O_TRUNC`. -/
def oTrunc : Nat := 8

/-- `O_APPEND`. -/
def oAppend : Nat := 16

/-- `flags & bit`. -/
def hasFlag (flags bit : Nat) : Bool := flags &&& bit ≠ 0

namespace Sys

/-! ## Tables and memory -/

variable (s : Sys)

/-- Set a slot of `file_table`. -/
def setFile (slot : Nat) (f : Option File) : Sys :=
  { s with files := Function.update s.files slot f }

/-- Set a descriptor of a process. -/
def setFd (pid fd : Nat) (slot : Option Nat) : Sys :=
  { s with tables := Function.update s.tables pid (Function.update (s.tables pid) fd slot) }

/-- Set a pipe. -/
def setPipe (p : Nat) (pipe : Option Pipe) : Sys :=
  { s with pipes := Function.update s.pipes p pipe }

/-- A freed object is used. -/
def crash : Sys := { s with fault := true }

/-- `kmalloc`. -/
def kmalloc : Bool × Sys :=
  match s.fs.kmalloc with
  | (ok, fs) => (ok, { s with fs := fs })

/-- `alloc_fd`. -/
def allocFd (pid : Nat) : Option Nat :=
  (List.range maxFdPerProcess).find? fun fd => (s.tables pid fd).isNone

/-- The loop of `alloc_file` over `n` slots from `i` on. -/
def allocFileFrom : (i n : Nat) → Sys → Option Nat × Sys
  | _, 0, s => (none, s)
  | i, n + 1, s =>
    if (s.files i).isNone then
      match s.kmalloc with
      | (true, s) => (some i, s.setFile i (some File.blank))
      | (false, s) => allocFileFrom (i + 1) n s
    else allocFileFrom (i + 1) n s

/-- `alloc_file`. -/
def allocFile : Option Nat × Sys := allocFileFrom 0 maxFilesSystem s

/-- `vfs_create_inode`. -/
def createInode (type : FileType) (privateData : PrivateData) : Option VInode × Sys :=
  match s.kmalloc with
  | (false, s) => (none, s)
  | (true, s) => (some ⟨type, 0, 1, privateData⟩, s)

/-- Put a new open file into its slot and into the descriptor table. -/
def install (pid fd slot : Nat) (f : File) : Sys :=
  (s.setFile slot (some f)).setFd pid fd (some slot)

/-! ## Opening -/

/-- `vfs_open_console`. -/
def openConsole (pid flags : Nat) : Int × Sys :=
  match s.allocFd pid with
  | none => (-1, s)
  | some fd =>
    match s.allocFile with
    | (none, s) => (-1, s)
    | (some slot, s) =>
      match s.createInode .chardev .null with
      | (inode, s) => (fd, s.install pid fd slot ⟨fd, inode, 0, flags, some .console⟩)

/-- `build_inode`. -/
def buildInode (ino : Nat) : Option VInode × Sys :=
  match s.fs.readInode ino with
  | none => (none, s)
  | some r =>
    match s.kmalloc with
    | (false, s) => (none, s)
    | (true, s) =>
      let isDir : Bool := r.mode = modeDir
      match s.createInode (if isDir then .directory else .regular)
        (.lufira ⟨ino, isDir, 0⟩) with
      | (none, s) => (none, s)
      | (some inode, s) => (some { inode with size := r.size.toNat }, s)

/-- The last part of `vfs_lufirafs_open_at`: the open file for `inode`, which
stands for the file `ino`, truncated when the flags ask for it. -/
def openInode (pid fd slot ino flags : Nat) (inode : VInode) : Sys :=
  let isDir : Bool := inode.type = .directory
  let ops : Ops := if isDir then .lufiraDir else .lufiraFile
  if hasFlag flags oTrunc && !isDir then
    { s with fs := (s.fs.truncate ino 0).2 }.install pid fd slot
      ⟨fd, some { inode with size := 0 }, 0, flags, some ops⟩
  else
    s.install pid fd slot
      ⟨fd, some inode, if hasFlag flags oAppend then inode.size else 0, flags, some ops⟩

/-- `"/dev"`, which LufiraFS leaves to the devices. -/
def devDir : CStr := [slash, ⟨100, by decide⟩, ⟨101, by decide⟩, ⟨118, by decide⟩]

/-- `vfs_lufirafs_open_at`. -/
def lufirafsOpenAt (pid base : Nat) (path : CStr) (flags : Nat) : Int × Sys :=
  if path = [] ∨ path.take 4 = devDir then (-1, s)
  else
    match s.fs.lookup base path with
    | (none, fs) => (-1, { s with fs := fs })
    | (some ino, fs) =>
      let s := { s with fs := fs }
      match s.allocFd pid with
      | none => (-1, s)
      | some fd =>
        match s.buildInode ino with
        | (none, s) => (-1, s)
        | (some inode, s) =>
          match s.allocFile with
          | (none, s) => (-1, s)
          | (some slot, s) => (fd, s.openInode pid fd slot ino flags inode)

/-- What the backends in front of LufiraFS make of a path: none of them has it
mounted, the one that has it fails, or it opens it. -/
inductive Foreign
  | notMounted
  | failed
  | opened (type : FileType) (hasOps : Bool)

/-- The open of another file system, behind its own lookup. -/
def openOther (pid flags : Nat) (type : FileType) (hasOps : Bool) : Int × Sys :=
  match s.allocFd pid with
  | none => (-1, s)
  | some fd =>
    match s.createInode type .other with
    | (none, s) => (-1, s)
    | (some inode, s) =>
      match s.allocFile with
      | (none, s) => (-1, s)
      | (some slot, s) =>
        (fd, s.install pid fd slot
          ⟨fd, some inode, 0, flags, if hasOps then some .other else none⟩)

/-- `"console"`. -/
def consoleName : CStr :=
  [⟨99, by decide⟩, ⟨111, by decide⟩, ⟨110, by decide⟩, ⟨115, by decide⟩, ⟨111, by decide⟩,
    ⟨108, by decide⟩, ⟨101, by decide⟩]

/-- `"/dev/console"`. -/
def devConsole : CStr := devDir ++ slash :: consoleName

/-- The part of `vfs_open` and `vfs_open_at` behind the other file systems: the path is followed
from the inode `base`. -/
def openLocal (pid : Nat) (base : Mount → Nat) (path : CStr) (flags : Nat) : Int × Sys :=
  match s.lufirafsOpenAt pid (base s.fs) path flags with
  | (fd, s) =>
    if 0 ≤ fd then (fd, s)
    else if hasFlag flags oCreat then
      match s.fs.createAt (base s.fs) path (s.cred pid).uid (s.cred pid).gid with
      | (res, fs) =>
        let s := { s with fs := fs }
        if res ≠ 0 then (-1, s) else s.lufirafsOpenAt pid (base s.fs) path flags
    else if path = devConsole ∨ path = consoleName then s.openConsole pid flags
    else (-1, s)

/-- The steps that `vfs_open` and `vfs_open_at` share. -/
def openFrom (pid : Nat) (base : Mount → Nat) (path : CStr) (flags : Nat) (foreign : Foreign) :
    Int × Sys :=
  if path = [] then (-1, s)
  else
    match foreign with
    | .failed => (-1, s)
    | .opened type hasOps => s.openOther pid flags type hasOps
    | .notMounted => s.openLocal pid base path flags

/-- `vfs_open`. -/
def vfsOpen (pid : Nat) (path : CStr) (flags : Nat) (foreign : Foreign) : Int × Sys :=
  s.openFrom pid Mount.rootInode path flags foreign

/-- `vfs_open_at` asks the other file systems only for a path from the root. -/
def asked (path : CStr) (foreign : Foreign) : Foreign :=
  if path.head? = some slash then foreign else .notMounted

/-- `vfs_open_at`. -/
def vfsOpenAt (pid base : Nat) (path : CStr) (flags : Nat) (foreign : Foreign) : Int × Sys :=
  s.openFrom pid (fun _ => base) path flags (asked path foreign)

/-! ## Closing and duplicating -/

/-- The `close` operation of an open file, on the system and on the file. -/
def closeOp (f : File) : File × Sys :=
  match f.ops, f.inode with
  | some .pipeRead, some inode =>
    match inode.privateData with
    | .pipe p =>
      match s.pipes p with
      | none => (f, s.crash)
      | some pipe =>
        (f, { s.setPipe p (pipeCloseRead pipe s.state).1 with
          state := (pipeCloseRead pipe s.state).2 })
    | _ => (f, s)
  | some .pipeWrite, some inode =>
    match inode.privateData with
    | .pipe p =>
      match s.pipes p with
      | none => (f, s.crash)
      | some pipe =>
        (f, { s.setPipe p (pipeCloseWrite pipe s.state).1 with
          state := (pipeCloseWrite pipe s.state).2 })
    | _ => (f, s)
  -- `lufirafs_file_close` and `lufirafs_dir_close` free the private data
  | some .lufiraFile, some inode =>
    ({ f with inode := some { inode with privateData := .null } }, s)
  | some .lufiraDir, some inode => ({ f with inode := some { inode with privateData := .null } }, s)
  | _, _ => (f, s)

/-- Give up one reference to a file: what is left in its slot. -/
def dropRef (f : File) : Option File :=
  match f.inode with
  | none => none
  | some inode =>
    if inode.refCount - 1 = 0 then none
    else some { f with inode := some { inode with refCount := inode.refCount - 1 } }

/-- `vfs_close`. -/
def vfsClose (pid fd : Nat) : Int × Sys :=
  if maxFdPerProcess ≤ fd then (-1, s)
  else
    match s.tables pid fd with
    | none => (-1, s)
    | some slot =>
      match s.files slot with
      | none => (0, s.crash.setFd pid fd none)
      | some f =>
        match s.closeOp f with
        | (f, s) => (0, (s.setFile slot (dropRef f)).setFd pid fd none)

/-- The file with one more reference. -/
def addRef (f : File) (inode : VInode) : File :=
  { f with inode := some { inode with refCount := inode.refCount + 1 } }

/-- The pipe `p` with one more end of the kind that `f` is. -/
def addEnd (f : File) (p : Nat) : Sys :=
  match s.pipes p with
  | none => s.crash
  | some pipe =>
    if f.ops = some .pipeRead then
      s.setPipe p (some { pipe with readers := pipe.readers + 1 })
    else if f.ops = some .pipeWrite then
      s.setPipe p (some { pipe with writers := pipe.writers + 1 })
    else s

/-- `vfs_dup_fd`. -/
def vfsDupFd (slot : Nat) : Sys :=
  match s.files slot with
  | none => s.crash
  | some f =>
    match f.inode with
    | none => s
    | some inode =>
      let s := s.setFile slot (some (addRef f inode))
      match inode.privateData with
      | .pipe p => if inode.type = .pipe then s.addEnd f p else s
      | _ => s

/-- `vfs_dup2`. -/
def vfsDup2 (pid oldfd newfd : Nat) : Int × Sys :=
  if maxFdPerProcess ≤ oldfd ∨ maxFdPerProcess ≤ newfd then (-1, s)
  else
    match s.tables pid oldfd with
    | none => (-1, s)
    | some slot =>
      if oldfd = newfd then (newfd, s)
      else
        let s := if (s.tables pid newfd).isSome then (s.vfsClose pid newfd).2 else s
        (newfd, (s.vfsDupFd slot).setFd pid newfd (some slot))

/-- One end of the pipe `p`, in the descriptor `fd`. -/
def pipeEnd (pid fd slot p flags : Nat) (ops : Ops) : Sys :=
  match s.createInode .pipe (.pipe p) with
  | (inode, s) => s.install pid fd slot ⟨fd, inode, 0, flags, some ops⟩

/-- The part of `vfs_pipe` that opens the write end; when it fails the read end
is closed again. -/
def pipeWriteEnd (pid readFd p : Nat) : Int × Sys :=
  match s.allocFd pid with
  | none => (-1, (s.vfsClose pid readFd).2)
  | some writeFd =>
    match s.allocFile with
    | (none, s) => (-1, (s.vfsClose pid readFd).2)
    | (some slot, s) => (0, s.pipeEnd pid writeFd slot p oWronly .pipeWrite)

/-- `vfs_pipe`, which finds the bytes `buffer` in the memory it gets for the pipe. -/
def vfsPipe (pid : Nat) (buffer : Nat → UInt8) : Int × Sys :=
  match s.kmalloc with
  | (false, s) => (-1, s)
  | (true, s) =>
    match s.kmalloc with
    | (false, s) => (-1, s)
    | (true, s) =>
      match s.allocFd pid with
      | none => (-1, s)
      | some readFd =>
        match s.allocFile with
        | (none, s) => (-1, s)
        | (some slot, s) =>
          let p := s.nextPipe
          let s := { s.setPipe p (some (Pipe.fresh buffer)) with nextPipe := p + 1 }
          (s.pipeEnd pid readFd slot p 0 .pipeRead).pipeWriteEnd pid readFd p

end Sys

end Vfs
