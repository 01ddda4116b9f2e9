import LufiraOS.Driver.Lives
import LufiraOS.Vfs.Access
import LufiraOS.Vfs.Opening

/-!
# Calls that open no LufiraFS file

Of all operations on descriptors only `vfs_open` makes an open file that stands
for a regular file of LufiraFS.  The others leave the file system as it is, up to
the memory they take, and at most forget such files.
-/

namespace Vfs

open LufiraFs ByteStore

/-- The regular LufiraFS file that an open file stands for. -/
def File.held (f : File) : Option Nat :=
  match f.inode.map VInode.privateData with
  | some (.lufira priv) => if priv.isDir then none else some priv.ino
  | _ => none

namespace Sys

/-- The regular LufiraFS file that the open file in `slot` stands for. -/
def held (s : Sys) (slot : Nat) : Option Nat := (s.files slot).bind File.held

/-- Nothing but memory has been taken from the file system, and no open file
stands for another LufiraFS file than before. -/
structure Calm (s s' : Sys) : Prop where
  fs : ∃ e, s'.fs = s.fs.withEnv e ∧ s.fs.env.Leads e
  held : ∀ slot i, s'.held slot = some i → s.held slot = some i

variable {s s' s'' : Sys} {pid fd slot : Nat}
  {type : FileType} {privateData : PrivateData} {f : File}

namespace Calm

/-- Two steps that keep files and file system. -/
theorem trans (h : Calm s s') (h' : Calm s' s'') : Calm s s'' := by
  exact ⟨Mount.Uses.trans h.fs h'.fs, fun slot i hi => h.held slot i (h'.held slot i hi)⟩

/-- A change of anything but the file system and the open files. -/
theorem of_eq (hfs : s'.fs = s.fs) (hfiles : s'.files = s.files) : Calm s s' := by
  refine ⟨⟨s.fs.env, hfs, .refl _⟩, fun slot i hi => ?_⟩
  unfold Sys.held at hi ⊢
  rw [← hfiles]
  exact hi

/-- Nothing is done. -/
theorem refl (s : Sys) : Calm s s := of_eq rfl rfl

/-- Only memory or the device was used. -/
theorem ofUses {fs : Mount} (h : Mount.Uses s.fs fs) :
    Calm s { s with fs := fs } := ⟨h, fun _ _ => id⟩

/-- A change of one open file that stands for no other file afterwards. -/
theorem setFile {f : Option File} (h : ∀ i, f.bind File.held = some i → s.held slot = some i) :
    Calm s (s.setFile slot f) := by
  refine ⟨⟨s.fs.env, rfl, .refl _⟩, fun slot' i hi => ?_⟩
  by_cases heq : slot' = slot
  · subst heq
    simp only [Sys.held, Sys.setFile, Function.update_self] at hi
    exact h i hi
  · simpa only [Sys.held, Sys.setFile, Function.update_of_ne heq] using hi

/-- A new open file that stands for no LufiraFS file. -/
theorem install {f : File} (h : f.held = none) : Calm s (s.install pid fd slot f) := by
  have hset : Calm s (s.setFile slot (some f)) := setFile fun i hi => by simp [h] at hi
  exact hset.trans (of_eq rfl rfl)

end Calm

/-! ## Memory -/

/-- `kmalloc`. -/
theorem kmalloc_calm {ok : Bool} (h : s.kmalloc = (ok, s')) : Calm s s' := by
  rw [show s' = s.kmalloc.2 by rw [h]]
  exact .ofUses s.fs.kmalloc_uses

/-- `alloc_file` puts a blank file into a free slot. -/
theorem allocFile_calm {slot : Option Nat} (h : s.allocFile = (slot, s')) : Calm s s' := by
  obtain ⟨fs, huses, halloc | ⟨slot', -, halloc⟩⟩ := allocFile_cases s
  · cases halloc.symm.trans h
    exact .ofUses huses
  · cases halloc.symm.trans h
    exact (Calm.ofUses huses).trans (.setFile fun i hi => by simp [File.held, File.blank] at hi)

/-- `vfs_create_inode`. -/
theorem createInode_calm {inode : Option VInode}
    (h : s.createInode type privateData = (inode, s')) : Calm s s' := by
  unfold createInode at h
  split at h
  · next s₁ heq =>
    cases h
    exact kmalloc_calm heq
  · next s₁ heq =>
    cases h
    exact kmalloc_calm heq

/-- The inode made holds what it was given. -/
theorem createInode_private {inode : VInode}
    (h : (s.createInode type privateData).1 = some inode) : inode.privateData = privateData := by
  unfold createInode at h
  split at h
  · cases h
  · cases h
    rfl

/-- An open file whose inode was made without LufiraFS data. -/
theorem held_of_createInode (hno : ∀ priv, privateData ≠ .lufira priv)
    (hf : f.inode = (s.createInode type privateData).1) : f.held = none := by
  unfold File.held
  rw [hf]
  cases hinode : (s.createInode type privateData).1 with
  | none => rfl
  | some inode =>
    have hpriv := createInode_private hinode
    simp only [Option.map_some, hpriv]
    split
    · next priv heq => exact absurd (Option.some.inj heq) (hno priv)
    · rfl

/-! ## Devices, pipes and other file systems -/

/-- A new inode without LufiraFS data and an open file for it. -/
theorem createInode_install_calm (type : FileType)
    (hno : ∀ priv, privateData ≠ .lufira priv) (offset flags : Nat) (ops : Option Ops) :
    Calm s ((s.createInode type privateData).2.install pid fd slot
      ⟨fd, (s.createInode type privateData).1, offset, flags, ops⟩) :=
  (createInode_calm rfl).trans (.install (held_of_createInode hno rfl))

/-- `vfs_open_console`: the console is no file of LufiraFS. -/
theorem openConsole_calm (pid flags : Nat) : Calm s (s.openConsole pid flags).2 := by
  unfold openConsole
  split
  · exact .refl s
  split
  · next s₁ heq => exact allocFile_calm heq
  · next slot s₁ heq =>
    exact (allocFile_calm heq).trans (createInode_install_calm .chardev (by simp) _ _ _)

/-- A file of another file system is opened. -/
theorem openOther_calm (pid flags : Nat) (type : FileType) (hasOps : Bool) :
    Calm s (s.openOther pid flags type hasOps).2 := by
  unfold openOther
  split
  · exact .refl s
  split
  · next s₁ heq => exact createInode_calm heq
  · next inode s₁ heq =>
    have hnone : ∀ f : File, f.inode = some inode → f.held = none := by
      intro f hf
      have hfrom : f.inode = (s.createInode type .other).1 := by rw [heq, hf]
      exact held_of_createInode (by simp) hfrom
    split
    · next s₂ heq' => exact (createInode_calm heq).trans (allocFile_calm heq')
    · next slot s₂ heq' =>
      exact ((createInode_calm heq).trans (allocFile_calm heq')).trans (.install (hnone _ rfl))

/-- An end of a pipe is opened. -/
theorem pipeEnd_calm (pid fd slot p flags : Nat) (ops : Ops) :
    Calm s (s.pipeEnd pid fd slot p flags ops) :=
  createInode_install_calm .pipe (by simp) _ _ _

/-! ## Closing and duplicating -/

/-- What `close` does to the object behind a file. -/
theorem closeOp_calm (f : File) : Calm s (s.closeOp f).2 := by
  unfold closeOp
  split
  · split
    · split <;> exact .of_eq rfl rfl
    · exact .refl s
  · split
    · split <;> exact .of_eq rfl rfl
    · exact .refl s
  all_goals exact .refl s

/-- After the `close` operation the file stands for what it stood for, or for
nothing. -/
theorem closeOp_held {i : Nat} (h : (s.closeOp f).1.held = some i) : f.held = some i := by
  unfold closeOp at h
  split at h
  · grind
  · grind
  · simp [File.held] at h
  · simp [File.held] at h
  · exact h

/-- A file with one reference less stands for the same inode, or for none. -/
theorem dropRef_held {i : Nat} (h : (dropRef f).bind File.held = some i) : f.held = some i := by
  unfold dropRef at h
  split at h
  · cases h
  · next inode hinode =>
    split at h
    · cases h
    · simpa [File.held, hinode] using h

/-- `vfs_close`. -/
theorem vfsClose_calm (pid fd : Nat) : Calm s (s.vfsClose pid fd).2 := by
  unfold vfsClose
  split
  · exact .refl s
  split
  · exact .refl s
  split
  · exact .of_eq rfl rfl
  · next slot _ htable f hf =>
    have hop := closeOp_calm (s := s) f
    have hfile : Calm (s.closeOp f).2 ((s.closeOp f).2.setFile slot (dropRef (s.closeOp f).1)) := by
      refine .setFile fun i hi => ?_
      have hsame : (s.closeOp f).2.files = s.files := by
        unfold closeOp
        grind [Sys.setPipe, Sys.crash]
      unfold Sys.held
      rw [hsame, hf]
      exact closeOp_held (dropRef_held hi)
    exact (hop.trans hfile).trans (.of_eq rfl rfl)

/-- An end of a pipe is counted. -/
theorem addEnd_calm (f : File) (p : Nat) : Calm s (s.addEnd f p) := by
  unfold addEnd
  split
  · exact .of_eq rfl rfl
  split
  · exact .of_eq rfl rfl
  split
  · exact .of_eq rfl rfl
  · exact .refl s

/-- `vfs_dup_fd`. -/
theorem vfsDupFd_calm (slot : Nat) : Calm s (s.vfsDupFd slot) := by
  unfold vfsDupFd
  split
  · exact .of_eq rfl rfl
  · next f hf =>
    split
    · exact .refl s
    · next inode hinode =>
      have hset : Calm s (s.setFile slot (some (addRef f inode))) := by
        refine .setFile fun i hi => ?_
        simpa [Sys.held, hf, File.held, addRef, hinode] using hi
      split
      · split
        · exact hset.trans (addEnd_calm _ _)
        · exact hset
      · exact hset

/-- `vfs_dup2`. -/
theorem vfsDup2_calm (pid oldfd newfd : Nat) : Calm s (s.vfsDup2 pid oldfd newfd).2 := by
  unfold vfsDup2
  split
  · exact .refl s
  split
  · exact .refl s
  · next slot _ =>
    split
    · exact .refl s
    have hclose : Calm s (if (s.tables pid newfd).isSome then (s.vfsClose pid newfd).2 else s) := by
      split
      · exact vfsClose_calm pid newfd
      · exact .refl s
    exact (hclose.trans (vfsDupFd_calm slot)).trans (.of_eq rfl rfl)

/-- The second half of `vfs_pipe`. -/
theorem pipeWriteEnd_calm (pid readFd p : Nat) : Calm s (s.pipeWriteEnd pid readFd p).2 := by
  unfold pipeWriteEnd
  split
  · exact vfsClose_calm pid readFd
  split
  · next s₁ heq => exact (allocFile_calm heq).trans (vfsClose_calm pid readFd)
  · next slot s₁ heq => exact (allocFile_calm heq).trans (pipeEnd_calm _ _ _ _ _ _)

/-- `vfs_pipe`. -/
theorem vfsPipe_calm (pid : Nat) (buffer : Nat → UInt8) : Calm s (s.vfsPipe pid buffer).2 := by
  unfold vfsPipe
  split
  · next s₁ heq => exact kmalloc_calm heq
  · next s₁ heq =>
    split
    · next s₂ heq' => exact (kmalloc_calm heq).trans (kmalloc_calm heq')
    · next s₂ heq' =>
      have hmem := (kmalloc_calm heq).trans (kmalloc_calm heq')
      split
      · exact hmem
      split
      · next s₃ heq'' => exact hmem.trans (allocFile_calm heq'')
      · next slot s₃ heq'' =>
        have hnew : Calm s₃ { s₃.setPipe s₃.nextPipe (some (Pipe.fresh buffer)) with
            nextPipe := s₃.nextPipe + 1 } := .of_eq rfl rfl
        exact ((hmem.trans (allocFile_calm heq'')).trans
          (hnew.trans (pipeEnd_calm _ _ _ _ _ _))).trans (pipeWriteEnd_calm _ _ _)

/-! ## Processes -/

/-- A standard descriptor of a new process. -/
theorem consoleFile_calm (s : Sys) (fd flags : Nat) : Calm s (s.consoleFile fd flags).2 := by
  unfold consoleFile
  split
  · next s₁ heq => exact allocFile_calm heq
  · next slot s₁ heq =>
    refine ((allocFile_calm heq).trans (createInode_calm rfl)).trans (.setFile fun i hi => ?_)
    have hnone : File.held ⟨fd, (s₁.createInode .chardev .null).1, 0, flags, some .console⟩ =
        none :=
      held_of_createInode (by simp) rfl
    simp [hnone] at hi

/-- The descriptors of a new process. -/
theorem initFdTable_calm (s : Sys) (pid : Nat) : Calm s (s.initFdTable pid) := by
  unfold initFdTable
  generalize hs₀ : ({ s with tables := Function.update s.tables pid fun _ => none } : Sys) = s₀
  have h₀ : Calm s s₀ := by
    rw [← hs₀]
    exact .of_eq rfl rfl
  exact (((h₀.trans (consoleFile_calm s₀ 0 0)).trans (consoleFile_calm _ 1 oWronly)).trans
    (consoleFile_calm _ 2 oWronly)).trans (.of_eq rfl rfl)

/-- The loop that closes the descriptors. -/
theorem closeFrom_calm (pid fd n : Nat) (s : Sys) : Calm s (closeFrom pid fd n s) := by
  induction n generalizing fd s with
  | zero => exact .refl s
  | succ n ih =>
    unfold closeFrom
    split
    · exact (vfsClose_calm pid fd).trans (ih (fd + 1) _)
    · exact ih (fd + 1) s

/-- A process gives up its descriptors. -/
theorem freeProcessResources_calm (pid : Nat) : Calm s (s.freeProcessResources pid) :=
  (closeFrom_calm pid 0 _ s).trans (.of_eq rfl rfl)

/-- `process_create`, as far as files go. -/
theorem processCreate_calm (parent : Nat) (outcome : Creation) :
    Calm s (s.processCreate parent outcome).2 := by
  cases outcome with
  | refused => exact .refl s
  | noPages =>
    have hnew : Calm s { s with nextPid := s.nextPid + 1 } := .of_eq rfl rfl
    exact (hnew.trans (initFdTable_calm _ s.nextPid)).trans (.of_eq rfl rfl)
  | made =>
    have hnew : Calm s { s with
        nextPid := s.nextPid + 1
        live := Function.update s.live s.nextPid true
        cred := Function.update s.cred s.nextPid { s.cred parent with cwd := 1 } } :=
      Calm.of_eq rfl rfl
    exact hnew.trans (initFdTable_calm _ s.nextPid)

/-- The loop that counts the descriptors of a child. -/
theorem dupFrom_calm (pid fd n : Nat) (s : Sys) : Calm s (dupFrom pid fd n s) := by
  induction n generalizing fd s with
  | zero => exact .refl s
  | succ n ih =>
    unfold dupFrom
    split
    · exact ih (fd + 1) s
    · next slot _ => exact (vfsDupFd_calm slot).trans (ih (fd + 1) _)

/-- A child gets the descriptors of its parent. -/
theorem inheritFds_calm (parent child : Nat) : Calm s (s.inheritFds parent child) := by
  unfold inheritFds
  have hclose : Calm s (s.closeAll child) := closeFrom_calm child 0 _ s
  generalize s.closeAll child = s₁ at hclose
  have htable : Calm s₁ { s₁ with
      tables := Function.update s₁.tables child (s₁.tables parent) } := .of_eq rfl rfl
  exact (hclose.trans htable).trans (dupFrom_calm child 0 _ _)

/-- `process_fork`, as far as files go. -/
theorem processFork_calm (parent : Nat) (outcome : Creation) (cloned : Bool) :
    Calm s (s.processFork parent outcome cloned).2 := by
  have hcreate := processCreate_calm (s := s) parent outcome
  unfold processFork
  split
  · next s₁ heq =>
    rw [heq] at hcreate
    exact hcreate
  · next child s₁ heq =>
    rw [heq] at hcreate
    split
    · exact (hcreate.trans (inheritFds_calm parent child)).trans (.of_eq rfl rfl)
    · exact hcreate.trans (freeProcessResources_calm child)

/-! ## Reading -/

/-- A read moves the offset of the file only. -/
theorem lufirafsFileRead_calm (hf : s.files slot = some f) (count : Nat) :
    Calm s (s.lufirafsFileRead slot f count).2.2 := by
  unfold lufirafsFileRead
  split
  · exact Calm.refl s
  · next inode hinode =>
    split
    · next priv hpriv =>
      split
      · exact Calm.refl s
      have hread := Calm.ofUses (s.fs.read_uses priv.ino f.offset (count % 4294967296))
      dsimp only
      split
      · refine hread.trans (Calm.setFile fun i hi => ?_)
        simpa [Sys.held, hf, File.held, hinode, hpriv] using hi
      · exact hread
    · exact Calm.refl s

/-- `vfs_readdir`. -/
theorem vfsReaddir_calm (pid fd : Nat) (dev : Int) :
    Calm s (s.vfsReaddir pid fd dev).2.2 := by
  unfold vfsReaddir
  split
  · exact Calm.refl s
  split
  · exact Calm.of_eq rfl rfl
  · next slot _ f hf =>
    split
    · exact Calm.refl s
    · next inode hinode =>
      split
      · exact Calm.refl s
      split
      · next priv hpriv =>
        obtain ⟨fs, hfs, huses⟩ : ∃ fs, (s.inodeReaddir priv).2.2.2 = { s with fs := fs } ∧
            Mount.Uses s.fs fs := by
          have huses := s.fs.readdir_uses priv.ino priv.index
          unfold inodeReaddir
          split
          · split
            · next heq => exact ⟨_, rfl, huses.ofEq heq⟩
            · next heq => exact ⟨_, rfl, huses.ofEq heq⟩
          · exact ⟨s.fs, rfl, .refl _⟩
        dsimp only
        rw [hfs]
        refine (Calm.ofUses huses).trans (Calm.setFile fun i hi => ?_)
        simpa [Sys.held, hf, File.held, hinode, hpriv] using hi
      · exact Calm.refl s
      · exact Calm.refl s

/-- `vfs_read`. -/
theorem vfsRead_calm (pid fd count : Nat) (dev : Int) :
    Calm s (s.vfsRead pid fd count dev).2.2 := by
  unfold vfsRead
  split
  · exact .refl s
  split
  · exact .of_eq rfl rfl
  · next slot _ f hf =>
    unfold readOp
    split
    · exact lufirafsFileRead_calm hf count
    · exact vfsReaddir_calm pid f.fd dev
    · split
      · split <;> exact .of_eq rfl rfl
      · exact .refl s
    all_goals exact .refl s

/-- `vfs_seek`. -/
theorem vfsSeek_calm (pid fd : Nat) (offset : Int) (whence : Nat) (dev : Int) :
    Calm s (s.vfsSeek pid fd offset whence dev).2 := by
  unfold vfsSeek
  split
  · exact .refl s
  split
  · exact .of_eq rfl rfl
  · next slot _ f hf =>
    split
    · unfold lufirafsFileSeek
      split
      · exact .refl s
      · next inode hinode =>
        dsimp only
        split
        · exact .refl s
        · refine .setFile fun i hi => ?_
          simpa [Sys.held, hf, File.held, hinode] using hi
    · exact .refl s
    · exact .refl s

end Sys

end Vfs
