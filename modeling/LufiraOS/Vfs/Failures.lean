import LufiraOS.Driver.Reading
import LufiraOS.Driver.Resolution
import LufiraOS.Vfs.Calm
import LufiraOS.Vfs.Lifecycle

/-!
# What failed calls leave

`lufirafs_create` does not ask whether the parent it is given is a directory: `add_dirent` writes
the new entry into the blocks of a regular file as well, so creating under a file fails for certain
only when there is no inode left.

`vfs_pipe` counts a reader and a writer of the new pipe before it opens either end.  When the write
end cannot be opened, closing the read end leaves the writer counted, and the pipe stays allocated.
-/

namespace LufiraFs

open ByteStore

/-- Every inode of the table is in use. -/
def Vol.NoFreeInode (V : Vol) : Prop := ∀ i, V.IsIno i → (V.inode i).mode ≠ modeFree

/-- The first block of file `f`, read as a directory, has an unused entry. -/
def Vol.HasUnused (V : Vol) (f : Nat) : Prop :=
  0 < blocksOf (V.inode f).size.toNat ∧ ∃ bn blk k, V.fetch (V.inode f) 0 = some (bn, blk) ∧
    findUnused blk 0 128 = some k

namespace Mount

variable {fs : Mount} {base f : Nat} {path name : CStr}

/-- A regular file holds no names. -/
theorem lookupInDir_file (hf : fs.vol.IsIno f) (hmode : (fs.vol.inode f).mode ≠ modeDir) :
    fs.lookupInDir f name = (none, fs) := by
  rw [lookupInDir, readInode_some hf]
  exact if_pos hmode

/-- `add_dirent` asks no file whether it is a directory. -/
theorem addDirent_unused (h : fs.Ready) (henv : fs.env = Env.allOk) (hf : fs.vol.IsIno f)
    (hroom : fs.vol.HasUnused f) (name : CStr) (ino : Nat) :
    (fs.addDirent f name ino).1 = true := by
  obtain ⟨hsize, bn, blk, k, hfetch, hunused⟩ := hroom
  obtain ⟨n, hn⟩ : ∃ n, blocksOf (fs.vol.inode f).size.toNat = n + 1 :=
    ⟨blocksOf (fs.vol.inode f).size.toNat - 1, by omega⟩
  have hmalloc : fs.kmalloc = (true, fs) := HeapOk.kmalloc fun n => by rw [henv]; rfl
  unfold addDirent
  rw [readInode_some hf]
  dsimp only
  rw [hmalloc, hn]
  dsimp only
  rw [addDirentBlocks, fetchBlock_allOk h henv, hfetch]
  dsimp only
  rw [hunused]

/-- The step of `lufirafs_create` behind its checks, with a regular file as the parent. -/
theorem create_under_file (hf : fs.vol.IsIno f) (hmode : (fs.vol.inode f).mode = modeFile)
    (hname : name ≠ []) (mode uid gid perm : UInt32) :
    fs.create f name mode uid gid perm = if fs.allocInode.1 = 0 then (.error (-2), fs.allocInode.2)
      else fs.allocInode.2.createInode f name mode uid gid perm fs.allocInode.1 := by
  unfold create
  rw [if_neg hname, lookupInDir_file hf (by rw [hmode]; decide)]

/-- Without a free inode nothing is created. -/
theorem create_full (h : fs.Ready) (hfull : fs.vol.NoFreeInode) (hf : fs.vol.IsIno f)
    (hmode : (fs.vol.inode f).mode = modeFile) (hname : name ≠ []) (mode uid gid perm : UInt32) :
    fs.create f name mode uid gid perm = (.error (-2), fs) := by
  rw [create_under_file hf hmode hname]
  rcases allocInode_cases h with ⟨halloc, -⟩ | ⟨i, fs₁, -, hi, hfree, -⟩
  · rw [halloc]
    rfl
  · exact absurd hfree (hfull i hi)

/-- With a free inode the file is created in an unused entry of its parent. -/
theorem create_unused (h : fs.Ready) (henv : fs.env = Env.allOk) (hfree : ¬ fs.vol.NoFreeInode)
    (hf : fs.vol.IsIno f) (hmode : (fs.vol.inode f).mode = modeFile) (hname : name ≠ [])
    (hroom : fs.vol.HasUnused f) (uid gid perm : UInt32) :
    ∃ ino, (fs.create f name modeFile uid gid perm).1 = .ok ino := by
  rw [create_under_file hf hmode hname]
  rcases allocInode_cases h with ⟨-, hfull⟩ | ⟨i, fs₁, halloc, hi, hnew, hbec⟩
  · exact absurd hfull hfree
  rw [halloc, if_neg (by have := hi.1; dsimp only; omega), createInode]
  have hwrite := writeInode_becomes hbec.ready (i := i) (by rwa [hbec.vol])
    (newInode modeFile uid gid perm)
  rw [hbec.vol] at hwrite
  generalize fs₁.writeInode i (newInode modeFile uid gid perm) = fs₂ at hwrite ⊢
  have hne : f ≠ i := by
    rintro rfl
    rw [hmode] at hnew
    exact absurd hnew (by decide)
  have hinode : (fs.vol.setInode i (newInode modeFile uid gid perm)).inode f = fs.vol.inode f :=
    Function.update_of_ne hne _ _
  have henv' : fs₂.env = Env.allOk := (henv ▸ hbec.used.trans hwrite.used).allOk
  have hf' : fs₂.vol.IsIno f := by
    rw [hwrite.vol]
    exact hf
  have hadd := addDirent_unused hwrite.ready henv' hf' (by
    rw [hwrite.vol, Vol.HasUnused, hinode]
    exact hroom) name i
  have hdots : fs₂.addDots i f modeFile = (true, fs₂) := if_neg (by decide)
  rw [hdots]
  dsimp only
  generalize fs₂.addDirent f name i = res at hadd
  obtain ⟨ok, fs₃⟩ := res
  cases (hadd : ok = true)
  exact ⟨i, rfl⟩

/-- A parent that is found with memory and a device that works leaves the file system. -/
theorem resolveParent_allOk (h : fs.Ready) (henv : fs.env = Env.allOk) {found : Nat × CStr}
    (hparent : (fs.resolveParent base path).1 = some found) :
    fs.resolveParent base path = (some found, fs) := by
  obtain ⟨res, e, heq, hleads, -⟩ := resolveParent_eq h base path
  rw [withEnv_of_allOk henv hleads] at heq
  rw [heq] at hparent ⊢
  rw [show res = _ from hparent]

end Mount

end LufiraFs

namespace Vfs

open LufiraFs ByteStore Holding

namespace Sys

variable {s : Sys} {pid fd p : Nat}

/-! ### A failed pipe -/

/-- A failed `vfs_pipe` leaves the tables and what is allocated: the files with their inodes, and
the pipes with their buffers. -/
def PipeRestores (s : Sys) (pid : Nat) (buffer : Nat → UInt8) : Prop :=
  (s.vfsPipe pid buffer).1 = -1 →
    (s.vfsPipe pid buffer).2.tables = s.tables ∧ (s.vfsPipe pid buffer).2.files = s.files ∧
      (s.vfsPipe pid buffer).2.pipes = s.pipes

/-- The first part of `vfs_pipe`: the pipe and its read end, with the descriptor of the read end. -/
def readEnd (s : Sys) (pid : Nat) (buffer : Nat → UInt8) : Option Nat × Sys :=
  match s.kmalloc with
  | (false, s) => (none, s)
  | (true, s) =>
    match s.kmalloc with
    | (false, s) => (none, s)
    | (true, s) =>
      match s.allocFd pid with
      | none => (none, s)
      | some readFd =>
        match s.allocFile with
        | (none, s) => (none, s)
        | (some slot, s) =>
          let p := s.nextPipe
          let s := { s.setPipe p (some (Pipe.fresh buffer)) with nextPipe := p + 1 }
          (some readFd, s.pipeEnd pid readFd slot p 0 .pipeRead)

/-- A descriptor and a file are left. -/
def CanOpen (s : Sys) (pid : Nat) : Prop := s.allocFd pid ≠ none ∧ s.allocFile.1 ≠ none

theorem pipeEnd_spec {s s' : Sys} {pid fd slot p flags : Nat} {ops : Ops}
    (h : s.pipeEnd pid fd slot p flags ops = s') :
    s'.tables pid fd = some slot ∧ (∃ f, s'.files slot = some f ∧ f.ops = some ops) ∧
      s'.pipes = s.pipes := by
  subst h
  unfold pipeEnd
  obtain ⟨fs, -, ⟨-, hcreate⟩ | hcreate⟩ := createInode_cases (s := s) .pipe (.pipe p)
  all_goals
    rw [hcreate]
    exact ⟨by simp [install, setFd], ⟨_, Function.update_self .., rfl⟩, rfl⟩

/-- `readEnd` opens a read end of a new pipe with a reader and a writer, or changes nothing but the
file system. -/
theorem readEnd_cases (s : Sys) (pid : Nat) (buffer : Nat → UInt8) :
    (∃ fs, s.readEnd pid buffer = (none, { s with fs := fs }) ∧
      s.vfsPipe pid buffer = (-1, { s with fs := fs })) ∨
    ∃ fd s' slot f, s.readEnd pid buffer = (some fd, s') ∧
      s.vfsPipe pid buffer = s'.pipeWriteEnd pid fd s.nextPipe ∧ s'.tables pid fd = some slot ∧
      s'.files slot = some f ∧ f.ops = some .pipeRead ∧
      s'.pipes s.nextPipe = some (Pipe.fresh buffer) := by
  unfold readEnd vfsPipe
  rcases hk : s.fs.kmalloc with ⟨ok, fs₁⟩
  simp only [kmalloc, hk]
  cases ok with
  | false => exact .inl ⟨fs₁, rfl, rfl⟩
  | true =>
    rcases hk' : fs₁.kmalloc with ⟨ok', fs₂⟩
    simp only [hk']
    cases ok' with
    | false => exact .inl ⟨fs₂, rfl, rfl⟩
    | true =>
      dsimp only
      cases hfd : allocFd { s with fs := fs₂ } pid with
      | none => exact .inl ⟨fs₂, rfl, rfl⟩
      | some fd =>
        obtain ⟨fs₃, -, halloc | ⟨slot, -, halloc⟩⟩ := allocFile_cases { s with fs := fs₂ }
        · rw [halloc]
          exact .inl ⟨fs₃, rfl, rfl⟩
        rw [halloc]
        dsimp only
        generalize hend : pipeEnd _ pid fd slot _ 0 .pipeRead = s'
        obtain ⟨htable, ⟨f, hfile, hops⟩, hpipes⟩ := pipeEnd_spec hend
        refine .inr ⟨fd, s', slot, f, rfl, rfl, htable, hfile, hops, ?_⟩
        rw [hpipes]
        simp [setPipe, setFile]

/-- Closing a read end does not free a pipe that has a writer. -/
theorem vfsClose_keeps_pipe {slot : Nat} {f : File} {pipe : Pipe}
    (htable : s.tables pid fd = some slot)
    (hfile : s.files slot = some f) (hops : f.ops = some .pipeRead) (hpipe : s.pipes p = some pipe)
    (hwriters : pipe.writers ≠ 0) : (s.vfsClose pid fd).2.pipes p ≠ none := by
  have hkeep : (s.closeOp f).2.pipes p ≠ none := by
    unfold closeOp
    rw [hops]
    cases f.inode with
    | none => simp [hpipe]
    | some inode =>
      cases hdata : inode.privateData with
      | pipe q =>
        simp only [hdata]
        by_cases hq : p = q
        · subst hq
          simp [hpipe, setPipe, pipeCloseRead, pipeFreeIfOrphaned, Shared.wakeWriter, hwriters]
        · cases s.pipes q <;> simp [setPipe, crash, hq, hpipe]
      | _ => simp [hdata, hpipe]
  unfold vfsClose
  split
  · simp [hpipe]
  · simp only [htable, hfile]
    exact hkeep

/-- A failed `vfs_pipe` leaves everything as it was when the read end could not be opened, or the
write end could be. -/
theorem pipeRestores_iff_readEnd (hfresh : s.pipes s.nextPipe = none) (pid : Nat)
    (buffer : Nat → UInt8) :
    s.PipeRestores pid buffer ↔
      ((s.readEnd pid buffer).1 = none ∨ (s.readEnd pid buffer).2.CanOpen pid) := by
  unfold PipeRestores CanOpen
  obtain ⟨fs, hread, hpipe⟩ | ⟨fd, s', slot, f, hread, hpipe, htable, hfile, hops, hnew⟩ :=
    readEnd_cases s pid buffer
  · rw [hread, hpipe]
    exact ⟨fun _ => .inl rfl, fun _ _ => ⟨rfl, rfl, rfl⟩⟩
  rw [hread, hpipe]
  unfold pipeWriteEnd
  cases hfd : s'.allocFd pid with
  | none =>
    refine ⟨fun h => ?_, fun h => by simp at h⟩
    have hlost := vfsClose_keeps_pipe htable hfile hops hnew (by simp [Pipe.fresh])
    exact absurd (by rw [(h rfl).2.2, hfresh]) hlost
  | some writeFd =>
    obtain ⟨fs, -, halloc | ⟨slot', -, halloc⟩⟩ := allocFile_cases s'
    · rw [halloc]
      refine ⟨fun h => ?_, fun h => by simp at h⟩
      have hlost := vfsClose_keeps_pipe (s := { s' with fs := fs }) htable hfile hops hnew
        (by simp [Pipe.fresh])
      exact absurd (by rw [(h rfl).2.2, hfresh]) hlost
    · rw [halloc]
      exact ⟨fun _ => .inr ⟨by simp, by simp⟩, fun _ (h : (0 : Int) = -1) => absurd h (by decide)⟩

/-! #### What is left before the call -/

/-- The descriptors of a process that are free. -/
def freeFds (s : Sys) (pid : Nat) : Nat :=
  (List.range maxFdPerProcess).countP fun fd => (s.tables pid fd).isNone

/-- The slots of `file_table` that are free. -/
def freeFiles (s : Sys) : Nat := (List.range maxFilesSystem).countP fun i => (s.files i).isNone

/-- `n` calls of `kmalloc` have been made. -/
def later (s : Sys) (n : Nat) : Sys :=
  { s with fs := { s.fs with env := { s.fs.env with heap := fun i => s.fs.env.heap (i + n) } } }

theorem allocFd_iff : s.allocFd pid ≠ none ↔ 0 < s.freeFds pid := by
  rw [freeFds, List.countP_pos_iff, allocFd, ne_eq, List.find?_eq_none]
  simp

/-- **`alloc_file`** tries a `kmalloc` for each free slot, up to the first that succeeds. -/
theorem allocFileFrom_spec (i n : Nat) (s : Sys) :
    let k := (List.range' i n).countP fun i => (s.files i).isNone
    ((∀ j < k, s.fs.env.heap j = false) ∧ allocFileFrom i n s = (none, s.later k)) ∨
      ∃ j < k, s.fs.env.heap j = true ∧ (∀ j' < j, s.fs.env.heap j' = false) ∧
        ∃ slot, slot < i + n ∧ s.files slot = none ∧
          allocFileFrom i n s = (some slot, (s.later (j + 1)).setFile slot (some File.blank)) := by
  induction n generalizing i s with
  | zero => exact .inl ⟨by simp, rfl⟩
  | succ n ih =>
    dsimp only
    rw [List.range'_succ, List.countP_cons, allocFileFrom]
    by_cases hfree : (s.files i).isNone = true
    · rw [if_pos hfree, if_pos hfree]
      cases hheap : s.fs.env.heap 0 with
      | true =>
        have hk : s.kmalloc = (true, s.later 1) := by
          simp only [kmalloc, Mount.kmalloc, hheap, later]
        refine .inr ⟨0, Nat.succ_pos _, hheap, by simp, i, by omega, by simpa using hfree, ?_⟩
        rw [hk]
      | false =>
        have hk : s.kmalloc = (false, s.later 1) := by
          simp only [kmalloc, Mount.kmalloc, hheap, later]
        rw [hk]
        dsimp only
        rcases ih (i + 1) (s.later 1) with ⟨hall, heq⟩ |
          ⟨j, hj, htrue, hfirst, slot, hslot, hnone, heq⟩
        · refine .inl ⟨fun j hj => ?_, heq⟩
          cases j with
          | zero => exact hheap
          | succ j => exact hall j (Nat.lt_of_succ_lt_succ hj)
        · refine .inr ⟨j + 1, Nat.succ_lt_succ hj, htrue, fun j' hj' => ?_, slot, by omega, hnone,
            heq⟩
          cases j' with
          | zero => exact hheap
          | succ j' => exact hfirst j' (Nat.lt_of_succ_lt_succ hj')
    · rw [if_neg hfree, if_neg hfree]
      rcases ih (i + 1) s with ⟨hall, heq⟩ | ⟨j, hj, htrue, hfirst, slot, hslot, hnone, heq⟩
      · exact .inl ⟨hall, heq⟩
      · exact .inr ⟨j, hj, htrue, hfirst, slot, by omega, hnone, heq⟩

theorem allocFile_iff : s.allocFile.1 ≠ none ↔ ∃ j < s.freeFiles, s.fs.env.heap j = true := by
  rw [freeFiles, List.range_eq_range', allocFile]
  rcases allocFileFrom_spec 0 maxFilesSystem s with ⟨hall, heq⟩ | ⟨j, hj, htrue, -, slot, -, -, heq⟩
  · rw [heq]
    refine iff_of_false (fun h => h rfl) fun ⟨j, hj, htrue⟩ => ?_
    rw [hall j hj] at htrue
    cases htrue
  · rw [heq]
    exact iff_of_true nofun ⟨j, hj, htrue⟩

/-- One place less is free. -/
theorem countP_update {α : Type} {T : Nat → Option α} {k N : Nat} (hk : k < N) (hT : T k = none)
    (x : α) :
    (List.range N).countP (fun i => (Function.update T k (some x) i).isNone) + 1 =
      (List.range N).countP fun i => (T i).isNone := by
  induction N with
  | zero => exact absurd hk (Nat.not_lt_zero k)
  | succ N ih =>
    rw [List.range_succ, List.countP_append, List.countP_append, List.countP_singleton,
      List.countP_singleton]
    rcases Nat.lt_or_eq_of_le (Nat.le_of_lt_succ hk) with hlt | rfl
    · rw [Function.update_of_ne (Nat.ne_of_gt hlt), ← ih hlt]
      omega
    · have hsame : (List.range k).countP (fun i => (Function.update T k (some x) i).isNone) =
          (List.range k).countP fun i => (T i).isNone := by
        refine List.countP_congr fun i hi => ?_
        rw [Function.update_of_ne (Nat.ne_of_lt (List.mem_range.1 hi))]
      rw [hsame, Function.update_self, hT]
      rfl

/-- **The condition on the state before `vfs_pipe`**: no memory for the pipe or its buffer, no
descriptor, or no memory for a file in any free slot; or else a second descriptor, and behind the
first `kmalloc` for a file that succeeds and the one for its inode a further one that succeeds for
one of the other slots. -/
def PipeRoom (s : Sys) (pid : Nat) : Prop :=
  let heap := s.fs.env.heap
  heap 0 = false ∨ heap 1 = false ∨ s.freeFds pid = 0 ∨ (∀ j < s.freeFiles, heap (j + 2) = false) ∨
    2 ≤ s.freeFds pid ∧ ∃ j < s.freeFiles, heap (j + 2) = true ∧ (∀ i < j, heap (i + 2) = false) ∧
      ∃ i < s.freeFiles - 1, heap (i + j + 4) = true

/-- What the read end leaves. -/
theorem canOpen_pipeEnd {fd slot p j : Nat} (hfd : s.allocFd pid = some fd)
    (hslot : slot < maxFilesSystem)
    (hnone : s.files slot = none) (pipes : Nat → Option Pipe) (next : Nat) :
    (pipeEnd { (s.later j).setFile slot (some File.blank) with
        pipes := pipes, nextPipe := next } pid fd slot p 0 .pipeRead).CanOpen pid ↔
      2 ≤ s.freeFds pid ∧ ∃ i < s.freeFiles - 1, s.fs.env.heap (i + 1 + j) = true := by
  obtain ⟨hlt, hfree⟩ := allocFd_eq_some hfd
  generalize hend : pipeEnd _ pid fd slot p 0 .pipeRead = s'
  have hs' : s'.tables pid = Function.update (s.tables pid) fd (some slot) ∧
      (∃ f, s'.files = Function.update s.files slot (some f)) ∧
      s'.fs.env.heap = fun i => s.fs.env.heap (i + 1 + j) := by
    subst hend
    unfold pipeEnd createInode
    rcases hk : kmalloc _ with ⟨ok, s₁⟩
    obtain ⟨-, rfl⟩ := Prod.mk.inj hk
    cases ok <;> exact ⟨by simp [install, setFd, setFile, later],
      ⟨_, by simp [install, setFd, setFile, later]; rfl⟩, rfl⟩
  obtain ⟨htables, ⟨f, hfiles⟩, hheap⟩ := hs'
  have hfds : s'.freeFds pid + 1 = s.freeFds pid := by
    rw [freeFds, htables]
    exact countP_update hlt hfree slot
  have hslots : s'.freeFiles + 1 = s.freeFiles := by
    rw [freeFiles, hfiles]
    exact countP_update hslot hnone f
  rw [CanOpen, allocFd_iff, allocFile_iff, hheap, ← hslots, ← hfds, Nat.add_sub_cancel]
  exact and_congr_left' (by omega)

theorem readEnd_room (s : Sys) (pid : Nat) (buffer : Nat → UInt8) :
    ((s.readEnd pid buffer).1 = none ∨ (s.readEnd pid buffer).2.CanOpen pid) ↔ s.PipeRoom pid := by
  have hkmalloc : ∀ s : Sys, s.kmalloc = (s.fs.env.heap 0, s.later 1) := fun _ => rfl
  unfold readEnd PipeRoom
  rw [hkmalloc]
  cases hfirst : s.fs.env.heap 0 with
  | false => exact iff_of_true (.inl rfl) (.inl hfirst)
  | true =>
    dsimp only
    rw [hkmalloc, show (s.later 1).fs.env.heap 0 = s.fs.env.heap 1 from rfl]
    cases hsecond : s.fs.env.heap 1 with
    | false => exact iff_of_true (.inl rfl) (.inr (.inl rfl))
    | true =>
      dsimp only
      rw [show (s.later 1).later 1 = s.later 2 from rfl, show
        (s.later 2).allocFd pid = s.allocFd pid from rfl]
      cases hfd : s.allocFd pid with
      | none =>
        have hzero : s.freeFds pid = 0 := Nat.eq_zero_of_not_pos fun h => allocFd_iff.2 h hfd
        exact iff_of_true (.inl rfl) (.inr (.inr (.inl hzero)))
      | some fd =>
        have hpos : s.freeFds pid ≠ 0 := Nat.ne_of_gt (allocFd_iff.1 (by rw [hfd]; simp))
        dsimp only
        have hspec := allocFileFrom_spec 0 maxFilesSystem (s.later 2)
        rw [← List.range_eq_range'] at hspec
        rcases hspec with ⟨hall, heq⟩ | ⟨j, hj, htrue, hleast, slot, hslot, hnone, heq⟩
        · rw [allocFile, heq]
          exact iff_of_true (.inl rfl) (.inr (.inr (.inr (.inl hall))))
        · rw [allocFile, heq]
          dsimp only
          rw [show (s.later 2).later (j + 1) = s.later (j + 3) from rfl]
          refine (or_iff_right nofun).trans ((canOpen_pipeEnd hfd (by omega) hnone _ _).trans ?_)
          constructor
          · rintro ⟨htwo, i, hi, hheap⟩
            refine .inr (.inr (.inr (.inr ⟨htwo, j, hj, htrue, hleast, i, hi, ?_⟩)))
            rwa [show i + j + 4 = i + 1 + (j + 3) by omega]
          · rintro (h | h | h | h | ⟨htwo, j', hj', htrue', hleast', i, hi, hheap⟩)
            · exact absurd (hfirst.symm.trans h) (by decide)
            · exact absurd h (by decide)
            · exact absurd h hpos
            · exact absurd ((h j hj).symm.trans htrue) (by decide)
            · obtain rfl : j' = j := by
                rcases Nat.lt_trichotomy j' j with hlt | heq' | hgt
                · exact absurd ((hleast j' hlt).symm.trans htrue') (by decide)
                · exact heq'
                · exact absurd ((hleast' j hgt).symm.trans htrue) (by decide)
              refine ⟨htwo, i, hi, ?_⟩
              rwa [show i + 1 + (j' + 3) = i + j' + 4 by omega]

/-- **When a failed `vfs_pipe` leaves everything as it was.** -/
theorem pipeRestores_iff (hfresh : s.pipes s.nextPipe = none) (pid : Nat) (buffer : Nat → UInt8) :
    s.PipeRestores pid buffer ↔ s.PipeRoom pid :=
  (pipeRestores_iff_readEnd hfresh pid buffer).trans (readEnd_room s pid buffer)

/-- The kernel with standard input duplicated into the `n` descriptors from `3` on. -/
def duplicated (n : Nat) : Sys :=
  Run.run execFd smallSys ((List.range n).map fun i => .dup2 0 0 (i + 3))

/-- With no descriptor left nothing is lost. -/
theorem pipeRestores_iff_full : (duplicated 13).PipeRestores 0 fun _ => 0 :=
  (pipeRestores_iff (by decide +kernel) 0 _).2 (.inr (.inr (.inl (by decide +kernel))))

/-- With one descriptor left the pipe is lost. -/
theorem pipe_lost_with_one_descriptor : ¬ (duplicated 12).PipeRestores 0 fun _ => 0 := by
  intro h
  have hpipes := congrFun (h (by decide +kernel)).2.2 0
  have hleft : (((duplicated 12).vfsPipe 0 fun _ => 0).2.pipes 0).isSome = true := by decide +kernel
  rw [hpipes] at hleft
  exact absurd hleft (by decide +kernel)

/-! ### Creating under a file -/

section

variable {base f : Nat} {path name : CStr}

/-- The calls that create under a path fail and leave the volume. -/
structure RefusesUnder (s : Sys) (pid base : Nat) (path : CStr) : Prop where
  create : ∀ uid gid, (s.fs.createAt base path uid gid).1 ≠ 0 ∧
    (s.fs.createAt base path uid gid).2.vol = s.fs.vol
  mkdir : ∀ uid gid, (s.fs.mkdirAt base path uid gid).1 ≠ 0 ∧
    (s.fs.mkdirAt base path uid gid).2.vol = s.fs.vol
  open_ : base = s.fs.rootInode → ∀ flags, hasFlag flags oCreat = true →
    (s.vfsOpen pid path flags .notMounted).1 = -1 ∧
      (s.vfsOpen pid path flags .notMounted).2.fs.vol = s.fs.vol

/-- **Creating under a regular file** is refused without a free inode, and only then where the file
has an unused entry in its first block. -/
theorem refusesUnder_file (h : s.fs.Ready) (henv : s.fs.env = Env.allOk)
    (hparent : (s.fs.resolveParent base path).1 = some (f, name)) (hf : s.fs.vol.IsIno f)
    (hmode : (s.fs.vol.inode f).mode = modeFile) (pid : Nat) :
    (s.fs.vol.NoFreeInode → s.RefusesUnder pid base path) ∧
    (s.fs.vol.HasUnused f → s.RefusesUnder pid base path → s.fs.vol.NoFreeInode) := by
  have hpar := Mount.resolveParent_allOk h henv hparent
  have hpath : path ≠ [] := by
    rintro rfl
    cases hparent
  have hname : name ≠ [] := (Mount.resolveParent_components hpar).1
  constructor
  · intro hfull
    have hmake : ∀ mode uid gid perm, s.fs.makeAt base path mode uid gid perm = (-2, s.fs) := by
      intro mode uid gid perm
      rw [Mount.makeAt, hpar]
      dsimp only
      rw [Mount.create_full h hfull hf hmode hname]
    have hcreate : ∀ uid gid, s.fs.createAt base path uid gid = (-2, s.fs) := by
      intro uid gid
      rw [Mount.createAt, if_neg hpath, hmake]
    refine ⟨fun uid gid => ?_, fun uid gid => ?_, fun hbase flags hflag => ?_⟩
    · rw [hcreate]
      exact ⟨by simp, rfl⟩
    · rw [Mount.mkdirAt, if_neg hpath]
      split
      · exact ⟨by simp, rfl⟩
      · rw [hmake]
        exact ⟨by simp, rfl⟩
    have hlook : s.fs.lookup base path = (none, s.fs) := by
      rw [Mount.lookup_eq_parent hpar, Mount.lookupInDir_file hf (by rw [hmode]; decide)]
    have hopen : s.lufirafsOpenAt pid s.fs.rootInode path flags = (-1, s) := by
      unfold lufirafsOpenAt
      split
      · rfl
      · rw [← hbase, hlook]
    rw [vfsOpen, openFrom, if_neg hpath, openLocal, hopen]
    simp [hflag, ← hbase, hcreate]
  intro hroom hrefuses
  by_contra hfree
  obtain ⟨ino, hok⟩ := Mount.create_unused h henv hfree hf hmode hname hroom 0 0 defaultFilePerm
  apply (hrefuses.create 0 0).1
  rw [Mount.createAt, if_neg hpath, Mount.makeAt, hpar]
  dsimp only
  generalize s.fs.create f name modeFile 0 0 defaultFilePerm = res at hok
  obtain ⟨res, fs'⟩ := res
  cases (hok : res = _)
  rfl

/-- `smallMount` with the empty file `"/d"`. -/
def fileMount : Mount := smallMount.execPath (.create 1 dirPath 0 0)

theorem fileMount_tidy : fileMount.Tidy := smallMount_tidy.execPath _ (by decide +kernel)

/-- The kernel with that file system. -/
def oneFile : Sys := { smallSys with fs := fileMount }

/-- That file system with all other inodes of the table in use. -/
def fullMount : Mount :=
  let start := fileMount.sb.inodeTableStart.toNat * 8192
  { fileMount with
    image := fun a => if start + 152 ≤ a ∧ a < start + 512 * 76 ∧ (a - start) % 76 = 0 then 1
      else fileMount.image a }

theorem fullMount_noFreeInode : fullMount.vol.NoFreeInode := by
  have hall : ∀ i < fullMount.vol.inodeCount + 1, 1 ≤ i →
      (fullMount.vol.inode i).mode ≠ modeFree := by
    decide +kernel
  exact fun i hi => hall i (Nat.lt_succ_of_le hi.2) hi.1

/-- Without a free inode, `"/d/d"` is refused. -/
theorem refusesUnder_file_full : { smallSys with fs := fullMount }.RefusesUnder 0 1
    (dirPath ++ dirPath) := by
  have himage : ∀ {fs : Mount} (m : Bytes), fs.Ready → { fs with image := m }.Ready :=
    fun _ h => ⟨h.laid, h.fits, h.cursorLo, h.cursorHi, h.io⟩
  have hready : fullMount.Ready := himage _ fileMount_tidy.ready
  have henv : fullMount.env = Env.allOk := fileMount_tidy.env
  have hparent : (fullMount.resolveParent 1 (dirPath ++ dirPath)).1 = some (2, dirPath.tail) := by
    decide +kernel
  have hino : fullMount.vol.IsIno 2 := by decide +kernel
  have hmode : (fullMount.vol.inode 2).mode = modeFile := by decide +kernel
  exact (refusesUnder_file
    (s := { smallSys with fs := fullMount }) hready henv hparent hino hmode 0).1
    fullMount_noFreeInode

/-- `"/d/d"` is created under the file. -/
theorem created_under_file :
    (oneFile.fs.resolveParent 1 (dirPath ++ dirPath)).1 = some (2, dirPath.tail) ∧
      (oneFile.fs.vol.inode 2).mode = modeFile ∧
      ¬ oneFile.RefusesUnder 0 1 (dirPath ++ dirPath) := by
  refine ⟨by decide +kernel, by decide +kernel, fun h => (h.create 0 0).1 ?_⟩
  decide +kernel

end

end Sys

end Vfs
