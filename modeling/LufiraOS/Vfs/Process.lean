import LufiraOS.Lib.Run
import LufiraOS.Vfs.Core

/-!
# Processes and their descriptor tables

How descriptor tables come and go: `vfs_init_fd_table` of `kernel/fs/vfs/vfs.c`,
and the parts of `process_create`, `process_fork` and `free_process_resources`
of `kernel/system/process/process.c` that concern open files.  The process limit
and the allocation of page tables and stacks are outside this model; how they end
is an argument of the functions.
-/

namespace Vfs

open LufiraFs ByteStore

namespace Sys

/-- One of the three console files of `vfs_init_fd_table`. -/
def consoleFile (s : Sys) (fd flags : Nat) : Option Nat × Sys :=
  match s.allocFile with
  | (none, s) => (none, s)
  | (some slot, s) =>
    match s.createInode .chardev .null with
    | (inode, s) => (some slot, s.setFile slot (some ⟨fd, inode, 0, flags, some .console⟩))

/-- `vfs_init_fd_table` on the table of `pid`. -/
def initFdTable (s : Sys) (pid : Nat) : Sys :=
  let s := { s with tables := Function.update s.tables pid fun _ => none }
  match s.consoleFile 0 0 with
  | (stdinF, s) =>
    match s.consoleFile 1 oWronly with
    | (stdoutF, s) =>
      match s.consoleFile 2 oWronly with
      | (stderrF, s) => ((s.setFd pid 0 stdinF).setFd pid 1 stdoutF).setFd pid 2 stderrF

/-- Close the open descriptors of `pid` among the `n` from `fd` on. -/
def closeFrom (pid : Nat) : (fd n : Nat) → Sys → Sys
  | _, 0, s => s
  | fd, n + 1, s =>
    closeFrom pid (fd + 1) n (if (s.tables pid fd).isSome then (s.vfsClose pid fd).2 else s)

/-- The loop over all descriptors of a process, in `free_process_resources` and
in `process_fork`. -/
def closeAll (s : Sys) (pid : Nat) : Sys := closeFrom pid 0 maxFdPerProcess s

/-- `free_process_resources`, before the process is freed itself. -/
def freeProcessResources (s : Sys) (pid : Nat) : Sys :=
  let s := s.closeAll pid
  { s with live := Function.update s.live pid false }

/-- How `process_create` ends: there are too many processes, a page table or a
stack cannot be allocated, or the process is made. -/
inductive Creation
  | refused
  | noPages
  | made
  deriving DecidableEq, Repr

/-- `process_create` by `parent`: the new process, if it is made.  A process that
is given up is freed with its descriptor table. -/
def processCreate (s : Sys) (parent : Nat) (outcome : Creation) : Option Nat × Sys :=
  match outcome with
  | .refused => (none, s)
  | .noPages =>
    let pid := s.nextPid
    let s := { s with nextPid := pid + 1 }.initFdTable pid
    (none, { s with tables := Function.update s.tables pid fun _ => none })
  | .made =>
    let pid := s.nextPid
    (some pid, { s with
      nextPid := pid + 1
      live := Function.update s.live pid true
      cred := Function.update s.cred pid { s.cred parent with cwd := 1 } }.initFdTable pid)

/-- Register a reference for each open descriptor of `pid` among the `n` from `fd`
on, as `process_fork` does for the child. -/
def dupFrom (pid : Nat) : (fd n : Nat) → Sys → Sys
  | _, 0, s => s
  | fd, n + 1, s =>
    dupFrom pid (fd + 1) n
      (match s.tables pid fd with
      | none => s
      | some slot => s.vfsDupFd slot)

/-- The part of `process_fork` behind `clone_address_space_deep`. -/
def inheritFds (s : Sys) (parent child : Nat) : Sys :=
  let s := s.closeAll child
  dupFrom child 0 maxFdPerProcess
    { s with tables := Function.update s.tables child (s.tables parent) }

/-- `process_fork`; `cloned` says whether the address space could be copied. -/
def processFork (s : Sys) (parent : Nat) (outcome : Creation) (cloned : Bool) : Int × Sys :=
  match s.processCreate parent outcome with
  | (none, s) => (-1, s)
  | (some child, s) =>
    if cloned then
      let s := s.inheritFds parent child
      (child, { s with cred := Function.update s.cred child (s.cred parent) })
    else (-1, s.freeProcessResources child)

/-- The kernel after `vfs_init`: the idle process `0` with its console files. -/
def boot (fs : Mount) (cred : Nat → Cred) : Sys :=
  initFdTable
    { fs := fs, files := fun _ => none, pipes := fun _ => none, nextPipe := 0
      tables := fun _ _ => none, live := fun pid => pid = 0, cred := cred
      state := fun _ => .running, nextPid := 1, fault := false } 0

end Sys

/-- What happens to the open files of the system. -/
inductive FdOp
  | openFile (pid : Nat) (path : CStr) (flags : Nat) (foreign : Sys.Foreign)
  | openAt (pid base : Nat) (path : CStr) (flags : Nat) (foreign : Sys.Foreign)
  | pipe (pid : Nat) (buffer : Nat → UInt8)
  | dup2 (pid oldfd newfd : Nat)
  | close (pid fd : Nat)
  | fork (pid : Nat) (outcome : Sys.Creation) (cloned : Bool)
  | teardown (pid : Nat)

/-- The process that acts. -/
def FdOp.pid : FdOp → Nat
  | .openFile pid _ _ _ => pid
  | .openAt pid _ _ _ _ => pid
  | .pipe pid _ => pid
  | .dup2 pid _ _ => pid
  | .close pid _ => pid
  | .fork pid _ _ => pid
  | .teardown pid => pid

/-- One operation; a process whose resources are freed does nothing any more. -/
def Sys.execFd (s : Sys) (op : FdOp) : Sys :=
  if s.live op.pid then
    match op with
    | .openFile pid path flags foreign => (s.vfsOpen pid path flags foreign).2
    | .openAt pid base path flags foreign => (s.vfsOpenAt pid base path flags foreign).2
    | .pipe pid buffer => (s.vfsPipe pid buffer).2
    | .dup2 pid oldfd newfd => (s.vfsDup2 pid oldfd newfd).2
    | .close pid fd => (s.vfsClose pid fd).2
    | .fork pid outcome cloned => (s.processFork pid outcome cloned).2
    | .teardown pid => s.freeProcessResources pid
  else s

end Vfs
