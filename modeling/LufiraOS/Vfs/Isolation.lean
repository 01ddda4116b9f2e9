import LufiraOS.Mkfs.Mounted
import LufiraOS.Vfs.Calm

/-!
# Whose file a write changes

LufiraFS tells files apart by the number of their inode only, and
`lufirafs_unlink` frees the inode of a file whether or not it is open; the next
file that is created gets the same number.  A `History` remembers what the kernel
does not: how often each inode has come to life, and which life of which inode the
path of an open file named when it was opened.
-/

namespace Vfs

open LufiraFs ByteStore Mount Sys

/-- What processes do to files. -/
inductive FsEvent
  | fd (op : FdOp)
  | create (pid base : Nat) (path : CStr)
  | mkdir (pid base : Nat) (path : CStr)
  | unlink (base : Nat) (path : CStr)
  | read (pid fd count : Nat) (dev : Int)
  | write (pid fd : Nat) (src : Bytes) (count : Nat) (dev : Int)
  | seek (pid fd : Nat) (offset : Int) (whence : Nat) (dev : Int)

namespace Sys

/-- One event. -/
def execFs (s : Sys) : FsEvent → Sys
  | .fd op => s.execFd op
  | .create pid base path =>
    { s with fs := (s.fs.createAt base path (s.cred pid).uid (s.cred pid).gid).2 }
  | .mkdir pid base path =>
    { s with fs := (s.fs.mkdirAt base path (s.cred pid).uid (s.cred pid).gid).2 }
  | .unlink base path => { s with fs := (s.fs.unlinkAt base path).2 }
  | .read pid fd count dev => (s.vfsRead pid fd count dev).2.2
  | .write pid fd src count dev => (s.vfsWrite pid fd src count dev).2
  | .seek pid fd offset whence dev => (s.vfsSeek pid fd offset whence dev).2

/-- The inode that `vfs_open` or `vfs_open_at` finds under the path, and the file system in which
it finds it: at once, or after the file has been created. -/
def named (s : Sys) (pid : Nat) (base : Mount → Nat) (path : CStr) (flags : Nat) :
    Option (Nat × Mount) :=
  match s.lufirafsOpenAt pid (base s.fs) path flags with
  | (fd, s₁) =>
    if 0 ≤ fd then (s.fs.lookup (base s.fs) path).1.map fun ino => (ino, s.fs)
    else if hasFlag flags oCreat then
      match s₁.fs.createAt (base s₁.fs) path (s₁.cred pid).uid (s₁.cred pid).gid with
      | (res, fs) =>
        if res ≠ 0 then none
        else (fs.lookup (base fs) path).1.map fun ino => (ino, fs)
    else none

/-- The slot of the open file that is made for a LufiraFS path, and the inode that the path
names. -/
def opensFrom (s : Sys) (pid : Nat) (base : Mount → Nat) (path : CStr) (flags : Nat) :
    Foreign → Option (Nat × Nat)
  | .notMounted =>
    if s.live pid ∧ path ≠ [] then
      match s.openFrom pid base path flags .notMounted with
      | (fd, s') =>
        if 0 ≤ fd then
          match s'.tables pid fd.toNat, s.named pid base path flags with
          | some slot, some (ino, _) => some (slot, ino)
          | _, _ => none
        else none
    else none
  | _ => none

/-- The slot and the inode of an event. -/
def opens (s : Sys) : FsEvent → Option (Nat × Nat)
  | .fd (.openFile pid path flags foreign) => s.opensFrom pid Mount.rootInode path flags foreign
  | .fd (.openAt pid base path flags foreign) =>
    s.opensFrom pid (fun _ => base) path flags (asked path foreign)
  | _ => none

/-- The inode that the path names is in use. -/
def NamesLive (s : Sys) (pid : Nat) (base : Mount → Nat) (path : CStr) (flags : Nat)
    (foreign : Foreign) : Prop :=
  foreign = .notMounted → ∀ ino fs, s.named pid base path flags = some (ino, fs) → fs.vol.Live ino

/-- No path is opened whose entry names an inode that is free. -/
def OpensLive (s : Sys) : FdOp → Prop
  | .openFile pid path flags foreign => s.NamesLive pid Mount.rootInode path flags foreign
  | .openAt pid base path flags foreign =>
    s.NamesLive pid (fun _ => base) path flags (asked path foreign)
  | _ => True

/-- The inode that `vfs_lufirafs_unlink_at` removes, unless it gives up. -/
def unlinkTarget (s : Sys) (base : Nat) (path : CStr) : Option Nat :=
  match s.fs.resolveParent base path with
  | (none, _) => none
  | (some (parent, name), fs) => (fs.lookupInDir parent name).1

end Sys

/-- The kernel and what has become of its files. -/
structure History where
  sys : Sys
  /-- How often the inode has come to life. -/
  gen : Nat → Nat
  /-- The inode, and its life, that the path of the open file in a slot named. -/
  opened : Nat → Option (Nat × Nat)

/-- A file has its record and its contents from before. -/
def SameFile (j : Nat) (V V' : Vol) : Prop :=
  V'.inode j = V.inode j ∧ ∀ b, V'.fetch (V'.inode j) b = V.fetch (V.inode j) b

namespace History

/-- One event, with the lives counted. -/
def step (h : History) (ev : FsEvent) : History :=
  let sys := h.sys.execFs ev
  let gen := fun i => if ¬ h.sys.fs.vol.Live i ∧ sys.fs.vol.Live i then h.gen i + 1 else h.gen i
  { sys := sys
    gen := gen
    opened := match h.sys.opens ev with
      | none => h.opened
      | some (slot, ino) => Function.update h.opened slot (some (ino, gen ino)) }

/-- The beginning of a history. -/
def start (s : Sys) : History := ⟨s, fun _ => 0, fun _ => none⟩

/-- **Descriptor isolation.**  A file that a `vfs_write` changes is the one that the
path of the descriptor named when it was opened, and still in the same life. -/
def Isolated (h : History) : Prop :=
  ∀ pid fd src count dev j, h.sys.fs.vol.IsIno j →
    ¬ SameFile j h.sys.fs.vol (h.sys.vfsWrite pid fd src count dev).2.fs.vol →
    ∃ slot, h.sys.tables pid fd = some slot ∧ h.opened slot = some (j, h.gen j)

/-- No regular file is unlinked while it is open, and no path is opened whose
entry names an inode that is free. -/
def Careful (h : History) : FsEvent → Prop
  | .unlink base path => ∀ slot ino, h.sys.held slot = some ino →
      h.sys.unlinkTarget base path ≠ some ino
  | .fd op => h.sys.OpensLive op
  | _ => True

end History

namespace Sys

variable {s s' s'' : Sys} {pid fd slot : Nat} {fs : Mount} {ino : Nat}

/-! ## What an event does -/

/-- The file system stays in order, the files in use stay in use, and `new` is
the only open file that may stand for another LufiraFS file than before. -/
structure Grows (new : Option (Nat × Nat)) (s s' : Sys) : Prop where
  ready : s'.fs.Ready
  sound : Sound s'.fs.vol
  files : Mount.KeepsFiles s.fs s'.fs
  held : ∀ slot i, s'.held slot = some i →
    new = some (slot, i) ∨ (s.held slot = some i ∧ ∀ j, new ≠ some (slot, j))

theorem Calm.grows (h : Calm s s') (hready : s.fs.Ready) (hs : Sound s.fs.vol) :
    Grows none s s' := by
  obtain ⟨e, hfs, hleads⟩ := h.fs
  refine ⟨?_, ?_, .of_vol (by rw [hfs]; rfl), fun slot i hi =>
    .inr ⟨h.held slot i hi, by simp⟩⟩
  · rw [hfs]
    exact hready.withEnv hleads
  · rw [hfs]
    exact hs

theorem Grows.after {new : Option (Nat × Nat)} (h : Grows none s s') (h' : Grows new s' s'') :
    Grows new s s'' where
  ready := h'.ready
  sound := h'.sound
  files := h.files.trans h'.files
  held := by
    intro slot i hi
    rcases h'.held slot i hi with hnew | ⟨hold, hnot⟩
    · exact .inl hnew
    rcases h.held slot i hold with hnone | ⟨hbefore, _⟩
    · cases hnone
    · exact .inr ⟨hbefore, hnot⟩

/-- A step of the file system alone. -/
theorem Grows.ofStep {S : Set Nat} (h : Mount.Step S s.fs fs)
    (hkeep : Mount.KeepsFiles s.fs fs) : Grows none s { s with fs := fs } :=
  ⟨h.ready, h.sound, hkeep, fun slot i hi => .inr ⟨hi, by simp⟩⟩

/-! ### Paths -/

theorem sync_step (h : fs.Ready) (hs : Sound fs.vol) (S : Set Nat) :
    Mount.Step S fs fs.sync :=
  .ofBecomes (sync_becomes h) hs (.refl _ _) rfl rfl

theorem sync_keepsFiles (h : fs.Ready) : Mount.KeepsFiles fs fs.sync :=
  .of_vol (sync_becomes h).vol

section

variable (h : s.fs.Ready) (hs : Sound s.fs.vol) (base : Nat) (path : CStr)

include h hs base path

theorem makeAt_grows (mode uid gid perm : UInt32) :
    Grows none s { s with fs := (s.fs.makeAt base path mode uid gid perm).2 } := by
  obtain ⟨res, e, hres, hleads, _⟩ := resolveParent_eq h base path
  have hcalm : Grows none s { s with fs := s.fs.withEnv e } :=
      (Calm.ofUses ⟨e, rfl, hleads⟩).grows h hs
  unfold makeAt
  rw [hres]
  cases res with
  | none => exact hcalm
  | some found =>
    obtain ⟨parent, name⟩ := found
    have hready := h.withEnv hleads
    obtain ⟨ino, hstep⟩ := create_step hready hs parent name mode uid gid perm
    have hkeep := create_keepsFiles hready hs parent name mode uid gid perm
    dsimp only
    split
    · next code fs₁ heq =>
      rw [heq] at hstep hkeep
      exact hcalm.after (.ofStep hstep hkeep)
    · next i fs₁ heq =>
      rw [heq] at hstep hkeep
      exact hcalm.after (.ofStep (hstep.trans (sync_step hstep.ready hstep.sound _))
        (hkeep.trans (sync_keepsFiles hstep.ready)))

theorem createAt_grows
    (uid gid : UInt32) : Grows none s { s with fs := (s.fs.createAt base path uid gid).2 } := by
  unfold createAt
  split
  · exact (Calm.refl s).grows h hs
  · exact makeAt_grows h hs base path _ uid gid _

theorem mkdirAt_grows
    (uid gid : UInt32) : Grows none s { s with fs := (s.fs.mkdirAt base path uid gid).2 } := by
  unfold mkdirAt
  split
  · exact (Calm.refl s).grows h hs
  split
  · exact (Calm.refl s).grows h hs
  · exact makeAt_grows h hs base path _ uid gid _

/-- `vfs_lufirafs_unlink_at` ends the life of no file but its target. -/
theorem unlinkAt_spec : (s.fs.unlinkAt base path).2.Ready ∧ Sound (s.fs.unlinkAt base path).2.vol ∧
      ∀ j, s.unlinkTarget base path ≠ some j → s.fs.vol.Live j →
        (s.fs.unlinkAt base path).2.vol.Live j := by
  unfold unlinkAt unlinkTarget
  by_cases hempty : path = []
  · simp only [hempty, if_true]
    exact ⟨h, hs, fun _ _ hj => hj⟩
  by_cases hroot : path = [slash]
  · simp only [hroot, if_true]
    exact ⟨h, hs, fun _ _ hj => hj⟩
  obtain ⟨res, e, hres, hleads, _⟩ := resolveParent_eq h base path
  have hready := h.withEnv hleads
  simp only [hempty, hroot, if_false, hres]
  cases res with
  | none => exact ⟨hready, hs, fun _ _ hj => hj⟩
  | some found =>
    obtain ⟨parent, name⟩ := found
    obtain ⟨ino, hstep⟩ := unlink_step hready hs parent name
    have hlive : ∀ j, ((s.fs.withEnv e).lookupInDir parent name).1 ≠ some j →
        s.fs.vol.Live j → ((s.fs.withEnv e).unlink parent name).2.vol.Live j := fun j hne hj =>
      unlink_live hready hs parent name hne hj
    dsimp only
    split
    · have hvol := (sync_becomes hstep.ready).vol
      refine ⟨(sync_becomes hstep.ready).ready, ?_, fun j hne hj => ?_⟩
      · rw [hvol]
        exact hstep.sound
      · rw [hvol]
        exact hlive j hne hj
    · exact ⟨hstep.ready, hstep.sound, hlive⟩

end

/-! ### Opening -/

/-- `build_inode` makes an inode that stands for `ino`. -/
theorem buildInode_calm {inode : Option VInode} (h : s.buildInode ino = (inode, s')) :
    Calm s s' ∧ ∀ v, inode = some v → ∃ isDir, v.privateData = .lufira ⟨ino, isDir, 0⟩ := by
  unfold buildInode at h
  split at h
  · cases h
    exact ⟨.refl s, by simp⟩
  · next r _ =>
    split at h
    · next s₁ heq =>
      cases h
      exact ⟨kmalloc_calm heq, by simp⟩
    · next s₁ heq =>
      dsimp only at h
      split at h
      · next s₂ heq' =>
        cases h
        exact ⟨(kmalloc_calm heq).trans (createInode_calm heq'), by simp⟩
      · next v s₂ heq' =>
        cases h
        refine ⟨(kmalloc_calm heq).trans (createInode_calm heq'), ?_⟩
        rintro _ ⟨rfl⟩
        have hpriv := createInode_private (congrArg Prod.fst heq')
        exact ⟨_, hpriv⟩

section

variable (h : s.fs.Ready) (hs : Sound s.fs.vol)

include h hs

/-- Putting an open file into a slot: it is the new one. -/
theorem install_grows {f : File}
    (hf : ∀ i, f.held = some i → i = ino) :
    Grows (some (slot, ino)) s (s.install pid fd slot f) := by
  refine ⟨h, hs, .of_vol rfl, fun slot' i hi => ?_⟩
  by_cases heq : slot' = slot
  · subst heq
    have hfile : f.held = some i := by
      simpa [held, install, setFile, setFd] using hi
    rw [hf i hfile]
    exact .inl rfl
  refine .inr ⟨?_, fun j hj => ?_⟩
  · simpa [held, install, setFile, setFd, Function.update_of_ne heq] using hi
  · injection hj with hpair
    exact heq (congrArg Prod.fst hpair).symm

theorem openInode_grows {flags : Nat} {inode : VInode}
    {isDir : Bool} (hpriv : inode.privateData = .lufira ⟨ino, isDir, 0⟩) :
    Grows (some (slot, ino)) s (s.openInode pid fd slot ino flags inode) := by
  have hheld : ∀ (f : File) (v : VInode), f.inode = some v → v.privateData = inode.privateData →
      ∀ i, f.held = some i → i = ino := by
    intro f v hv hsame i hi
    simp only [File.held, hv, Option.map_some, hsame, hpriv] at hi
    split at hi
    · cases hi
    · cases hi
      rfl
  unfold openInode
  dsimp only
  split
  · have hstep := truncate_step h hs ino 0
    have hcut : Grows none s { s with fs := (s.fs.truncate ino 0).2 } :=
      Grows.ofStep hstep (truncate_keepsFiles h hs ino 0)
    exact hcut.after (install_grows hcut.ready hcut.sound (hheld _ _ rfl rfl))
  · exact install_grows h hs (hheld _ _ rfl rfl)

/-- `vfs_lufirafs_open_at` fails, or opens the inode that the path is looked up
to. -/
theorem lufirafsOpenAt_grows (pid base : Nat) (path : CStr)
    (flags : Nat) {n : Int} (heq : s.lufirafsOpenAt pid base path flags = (n, s')) :
    (n < 0 ∧ Grows none s s') ∨ ∃ slot ino, 0 ≤ n ∧ (s.fs.lookup base path).1 = some ino ∧
        s'.tables pid n.toNat = some slot ∧ Grows (some (slot, ino)) s s' := by
  unfold lufirafsOpenAt at heq
  split at heq
  · cases heq
    exact .inl ⟨by decide, (Calm.refl s).grows h hs⟩
  obtain ⟨res, e, hlook, hleads, _⟩ := lookup_eq h base path
  rw [hlook] at heq ⊢
  have hcalm : Calm s { s with fs := s.fs.withEnv e } := .ofUses ⟨e, rfl, hleads⟩
  cases res with
  | none =>
    cases heq
    exact .inl ⟨by decide, hcalm.grows h hs⟩
  | some ino =>
    dsimp only at heq
    split at heq
    · cases heq
      exact .inl ⟨by decide, hcalm.grows h hs⟩
    · next fd hfd =>
      split at heq
      · next s₁ hbuild =>
        cases heq
        exact .inl ⟨by decide, (hcalm.trans (buildInode_calm hbuild).1).grows h hs⟩
      · next v s₁ hbuild =>
        obtain ⟨hcalm₁, hpriv⟩ := buildInode_calm hbuild
        split at heq
        · next s₂ halloc =>
          cases heq
          exact .inl ⟨by decide, ((hcalm.trans hcalm₁).trans (allocFile_calm halloc)).grows h hs⟩
        · next slot s₂ halloc =>
          cases heq
          have hbefore := ((hcalm.trans hcalm₁).trans (allocFile_calm halloc)).grows h hs
          obtain ⟨isDir, hv⟩ := hpriv v rfl
          refine .inr ⟨slot, ino, Int.natCast_nonneg fd, rfl, ?_,
            hbefore.after (openInode_grows hbefore.ready hbefore.sound hv)⟩
          simp only [openInode]
          split <;> simp [install, setFd]

/-- A path that no other file system has is opened: that makes no open file for
LufiraFS, or one for the inode that the path names. -/
theorem openLocal_grows (pid : Nat) (base : Mount → Nat) (path : CStr)
    (flags : Nat) {n : Int} (heq : s.openLocal pid base path flags = (n, s')) :
    (Grows none s s' ∧ (n < 0 ∨ s.named pid base path flags = none)) ∨
      ∃ slot ino fs, 0 ≤ n ∧ s.named pid base path flags = some (ino, fs) ∧
        s'.tables pid n.toNat = some slot ∧ Grows (some (slot, ino)) s s' ∧
        Mount.KeepsFiles fs s'.fs := by
  unfold openLocal at heq
  unfold named
  rcases hopen : s.lufirafsOpenAt pid (base s.fs) path flags with ⟨fd, s₁⟩
  rw [hopen] at heq
  rcases lufirafsOpenAt_grows h hs pid _ path flags hopen with
    ⟨hneg, hgrows⟩ | ⟨slot, ino, hpos, hlook, htable, hgrows⟩
  · have hnot : ¬ 0 ≤ fd := by omega
    simp only [hnot, if_false] at heq ⊢
    by_cases hcreat : hasFlag flags oCreat = true
    · simp only [hcreat, if_true] at heq ⊢
      have hmake := createAt_grows hgrows.ready hgrows.sound (base s₁.fs) path
        (s₁.cred pid).uid (s₁.cred pid).gid
      rcases hcreate : s₁.fs.createAt (base s₁.fs) path (s₁.cred pid).uid (s₁.cred pid).gid
        with ⟨res, fs⟩
      rw [hcreate] at heq hmake
      by_cases hres : res = 0
      · subst hres
        have hmade := hgrows.after hmake
        rcases lufirafsOpenAt_grows
          (s := { s₁ with fs := fs }) hmade.ready hmade.sound pid _ path flags heq with
          ⟨hneg', hgrows'⟩ | ⟨slot, ino, hpos, hlook, htable, hgrows'⟩
        · exact .inl ⟨hmade.after hgrows', .inl hneg'⟩
        · refine .inr ⟨slot, ino, fs, hpos, ?_, htable, hmade.after hgrows', hgrows'.files⟩
          rw [hlook]
          rfl
      simp only [ne_eq, hres, not_false_eq_true, if_true] at heq ⊢
      cases heq
      exact .inl ⟨hgrows.after hmake, .inr trivial⟩
    simp only [hcreat] at heq ⊢
    have hcalm : Calm s₁ s' := by
      simp only [Bool.false_eq_true, if_false] at heq
      split at heq
      · have hconsole := openConsole_calm (s := s₁) pid flags
        rw [heq] at hconsole
        exact hconsole
      · cases heq
        exact .refl _
    exact .inl ⟨hgrows.after (hcalm.grows hgrows.ready hgrows.sound), .inr (by simp)⟩
  · simp only [hpos, if_true] at heq ⊢
    cases heq
    exact .inr ⟨slot, ino, s.fs, hpos, by rw [hlook]; rfl, htable, hgrows, hgrows.files⟩

/-! ### Writing -/

theorem lufirafsFileWrite_grows {f : File}
    (hf : s.files slot = some f) (src : Bytes) (count : Nat) :
    Grows none s (s.lufirafsFileWrite slot f src count).2 ∧
      ∀ j, s.fs.vol.IsIno j → s.held slot ≠ some j →
        SameFile j s.fs.vol (s.lufirafsFileWrite slot f src count).2.fs.vol := by
  have hstay : Grows none s s ∧ ∀ j, s.fs.vol.IsIno j → s.held slot ≠ some j →
      SameFile j s.fs.vol s.fs.vol :=
    ⟨(Calm.refl s).grows h hs, fun _ _ _ => ⟨rfl, fun _ => rfl⟩⟩
  unfold lufirafsFileWrite
  split
  · exact hstay
  · next inode hinode =>
    split
    · next priv hpriv =>
      by_cases hdir : priv.isDir = true
      · simp only [hdir, if_true]
        exact hstay
      simp only [hdir, Bool.false_eq_true, if_false]
      have hheld : s.held slot = some priv.ino := by
        simp [held, hf, File.held, hinode, hpriv, hdir]
      have hstep := write_step h hs priv.ino (writeOffset f inode) src (count % 4294967296)
      have hkeep := write_keepsFiles h hs priv.ino (writeOffset f inode) src
        (count % 4294967296)
      rcases hwrite : s.fs.write priv.ino (writeOffset f inode) src (count % 4294967296) with
        ⟨n, fs⟩
      rw [hwrite] at hstep hkeep
      have hsame : ∀ j, s.fs.vol.IsIno j → s.held slot ≠ some j → SameFile j s.fs.vol fs.vol := by
        intro j hj hne
        have hout : j ∉ ({priv.ino} : Set Nat) := fun hmem => hne (by
          rw [hheld, Set.mem_singleton_iff.1 hmem])
        exact ⟨hstep.evolves.inode hj hout, hstep.evolves.fetch_eq h.dataStart_pos hj hout⟩
      split
      · have hsync := (sync_becomes hstep.ready).vol
        have hgrows : Grows none s { s with fs := fs.sync } :=
          Grows.ofStep (hstep.trans (sync_step hstep.ready hstep.sound _))
            (hkeep.trans (sync_keepsFiles hstep.ready))
        refine ⟨hgrows.after (Calm.grows (Calm.setFile fun i hi => ?_) hgrows.ready hgrows.sound),
          fun j hj hne => ?_⟩
        · simpa [held, hf, File.held, hinode, hpriv] using hi
        · have hj' := hsame j hj hne
          rw [← hsync] at hj'
          exact hj'
      · exact ⟨Grows.ofStep hstep hkeep, hsame⟩
    · exact hstay

/-- **`vfs_write`** changes the file that the open file stands for. -/
theorem vfsWrite_grows (pid fd : Nat) (src : Bytes) (count : Nat) (dev : Int) :
    Grows none s (s.vfsWrite pid fd src count dev).2 ∧ ∀ j, s.fs.vol.IsIno j →
        ¬ SameFile j s.fs.vol (s.vfsWrite pid fd src count dev).2.fs.vol →
        ∃ slot, s.tables pid fd = some slot ∧ s.held slot = some j := by
  have hcalm : ∀ {s'}, Calm s s' → Grows none s s' ∧ ∀ j, s.fs.vol.IsIno j →
      ¬ SameFile j s.fs.vol s'.fs.vol → ∃ slot, s.tables pid fd = some slot ∧
        s.held slot = some j := by
    intro s' hs'
    refine ⟨hs'.grows h hs, fun j _ hne => absurd ?_ hne⟩
    obtain ⟨e, hfs, _⟩ := hs'.fs
    rw [hfs]
    exact ⟨rfl, fun _ => rfl⟩
  unfold vfsWrite
  split
  · exact hcalm (.refl s)
  · next slot htable =>
    have hslot : s.tables pid fd = some slot := by
      split at htable
      · exact htable
      · cases htable
    split
    · exact hcalm (.of_eq rfl rfl)
    · next f hf =>
      unfold writeOp
      split
      · obtain ⟨hgrows, hsame⟩ := lufirafsFileWrite_grows h hs hf src count
        refine ⟨hgrows, fun j hj hne => ⟨slot, hslot, ?_⟩⟩
        by_contra hother
        exact hne (hsame j hj hother)
      · split
        · split <;> exact hcalm (.of_eq rfl rfl)
        · exact hcalm (.refl s)
      all_goals exact hcalm (.refl s)

/-- No open file is made for a LufiraFS file but the one that the path names, which is in use if
it was when the path was looked up. -/
theorem openFrom_grows {base : Mount → Nat} {path : CStr} {flags : Nat} {foreign : Foreign}
    (hpid : s.live pid = true) (hlive : s.NamesLive pid base path flags foreign) :
    Grows (s.opensFrom pid base path flags foreign) s
        (s.openFrom pid base path flags foreign).2 ∧
      ∀ slot ino, s.opensFrom pid base path flags foreign = some (slot, ino) →
        (s.openFrom pid base path flags foreign).2.fs.vol.Live ino := by
  have hcalm : ∀ {s'}, Calm s s' → Grows none s s' ∧
      ∀ slot ino, (none : Option (Nat × Nat)) = some (slot, ino) → s'.fs.vol.Live ino :=
    fun hs' => ⟨hs'.grows h hs, by simp⟩
  by_cases hempty : path = []
  · have hnone : s.opensFrom pid base path flags foreign = none := by
      cases foreign <;> simp [opensFrom, hempty]
    rw [hnone]
    simp only [openFrom, hempty, if_true]
    exact hcalm (.refl s)
  cases foreign with
  | notMounted =>
    have hcall : s.openFrom pid base path flags .notMounted = s.openLocal pid base path flags := by
      simp [openFrom, hempty]
    rcases hopen : s.openLocal pid base path flags with ⟨n, s'⟩
    have hpath : s.live pid = true ∧ path ≠ [] := ⟨hpid, hempty⟩
    simp only [opensFrom, hcall, hopen]
    rw [if_pos hpath]
    rcases openLocal_grows h hs pid base path flags hopen with
      ⟨hgrows, hneg | hnamed⟩ | ⟨slot, ino, fs, hpos, hname, htable, hgrows, hkeep⟩
    · rw [if_neg (by omega)]
      exact ⟨hgrows, by simp⟩
    · have hnone : (if 0 ≤ n then
          match s'.tables pid n.toNat, s.named pid base path flags with
          | some slot, some (ino, _) => some (slot, ino)
          | _, _ => none
        else none) = none := by
        rw [hnamed]
        split
        · split <;> simp_all
        · rfl
      rw [hnone]
      exact ⟨hgrows, by simp⟩
    · simp only [hpos, if_true, htable, hname]
      refine ⟨hgrows, ?_⟩
      rintro _ _ ⟨rfl, rfl⟩
      exact hkeep _ (hlive rfl _ fs hname)
  | failed =>
    simp only [openFrom, hempty, if_false]
    exact hcalm (.refl s)
  | opened type hasOps =>
    simp only [openFrom, hempty, if_false]
    exact hcalm (openOther_calm pid flags type hasOps)

end

theorem opensFrom_of_dead (hdead : ¬ s.live pid = true) (base : Mount → Nat) (path : CStr)
    (flags : Nat) (foreign : Foreign) : s.opensFrom pid base path flags foreign = none := by
  cases foreign with
  | notMounted =>
    have hno : ¬ (s.live pid = true ∧ path ≠ []) := fun hboth => hdead hboth.1
    simp only [opensFrom, hno, if_false]
  | _ => rfl

theorem opens_of_dead {op : FdOp} (hdead : ¬ s.live op.pid = true) : s.opens (.fd op) = none := by
  cases op with
  | openFile pid path flags foreign => exact opensFrom_of_dead hdead _ path flags foreign
  | openAt pid base path flags foreign => exact opensFrom_of_dead hdead _ path flags _
  | _ => rfl

/-- The operations on descriptors. -/
theorem execFd_grows (h : s.fs.Ready) (hs : Sound s.fs.vol) (op : FdOp)
    (hlive : s.OpensLive op) :
    Grows (s.opens (.fd op)) s (s.execFd op) ∧
      ∀ slot ino, s.opens (.fd op) = some (slot, ino) → (s.execFd op).fs.vol.Live ino := by
  have hcalm : ∀ {s'}, Calm s s' → Grows none s s' ∧
      ∀ slot ino, (none : Option (Nat × Nat)) = some (slot, ino) → s'.fs.vol.Live ino :=
    fun hs' => ⟨hs'.grows h hs, by simp⟩
  unfold execFd
  by_cases hpid : s.live op.pid = true
  · simp only [hpid, if_true]
    cases op with
    | openFile pid path flags foreign => exact openFrom_grows h hs hpid hlive
    | openAt pid base path flags foreign => exact openFrom_grows h hs hpid hlive
    | pipe pid buffer => exact hcalm (vfsPipe_calm pid buffer)
    | dup2 pid oldfd newfd => exact hcalm (vfsDup2_calm pid oldfd newfd)
    | close pid fd => exact hcalm (vfsClose_calm pid fd)
    | fork pid outcome cloned => exact hcalm (processFork_calm pid outcome cloned)
    | teardown pid => exact hcalm (freeProcessResources_calm pid)
  rw [opens_of_dead hpid]
  simp only [hpid]
  exact hcalm (.refl s)

theorem held_create (pid base : Nat) (path : CStr) (slot : Nat) :
    (s.execFs (.create pid base path)).held slot = s.held slot := rfl

theorem boot_ready (h : fs.Ready) (hs : Sound fs.vol) (cred : Nat → Cred) :
    (boot fs cred).fs.Ready ∧ Sound (boot fs cred).fs.vol := by
  have hgrows := (initFdTable_calm _ 0).grows (s := ⟨fs, fun _ => none, fun _ => none, 0,
    fun _ _ => none, fun pid => pid = 0, cred, fun _ => .running, 1, false⟩) h hs
  exact ⟨hgrows.ready, hgrows.sound⟩

theorem boot_held (fs : Mount) (cred : Nat → Cred) (slot : Nat) :
    (boot fs cred).held slot = none := by
  cases hheld : (boot fs cred).held slot with
  | none => rfl
  | some i => exact nomatch (initFdTable_calm _ 0).held slot i hheld

end Sys

namespace History

variable {h : History}

/-- Every open file that stands for a LufiraFS file stands for the one that its
path named, which is in use and still in the same life. -/
structure Kept (h : History) : Prop where
  ready : h.sys.fs.Ready
  sound : Sound h.sys.fs.vol
  named : ∀ slot ino, h.sys.held slot = some ino →
    h.opened slot = some (ino, h.gen ino) ∧ h.sys.fs.vol.Live ino

theorem Kept.isolated (hk : Kept h) : Isolated h := by
  intro pid fd src count dev j hj hne
  obtain ⟨slot, htable, hheld⟩ := (vfsWrite_grows hk.ready hk.sound pid fd src count dev).2 j hj hne
  exact ⟨slot, htable, (hk.named slot j hheld).1⟩

theorem step_sys (h : History) (ev : FsEvent) : (h.step ev).sys = h.sys.execFs ev := rfl

/-- The life of an inode does not change as long as it is in use. -/
theorem step_gen {ev : FsEvent} {i : Nat} (hi : h.sys.fs.vol.Live i) :
    (h.step ev).gen i = h.gen i :=
  if_neg fun hboth => hboth.1 hi

theorem Kept.step (hk : Kept h) (ev : FsEvent)
    (hready : (h.sys.execFs ev).fs.Ready) (hsound : Sound (h.sys.execFs ev).fs.vol)
    (hheld : ∀ slot i, (h.sys.execFs ev).held slot = some i → h.sys.opens ev = some (slot, i) ∨
      (h.sys.held slot = some i ∧ ∀ j, h.sys.opens ev ≠ some (slot, j)))
    (hold : ∀ slot i, h.sys.held slot = some i → (h.sys.execFs ev).fs.vol.Live i)
    (hnew : ∀ slot i, h.sys.opens ev = some (slot, i) → (h.sys.execFs ev).fs.vol.Live i) :
    Kept (h.step ev) := by
  refine ⟨hready, hsound, fun slot ino hslot => ?_⟩
  rcases hheld slot ino hslot with hopens | ⟨hbefore, hother⟩
  · refine ⟨?_, hnew slot ino hopens⟩
    simp only [History.step, hopens, Function.update_self]
  obtain ⟨hopened, hlive⟩ := hk.named slot ino hbefore
  refine ⟨?_, hold slot ino hbefore⟩
  rw [step_gen hlive, ← hopened]
  simp only [History.step]
  cases hopens : h.sys.opens ev with
  | none => rfl
  | some new =>
    have hne : slot ≠ new.1 := by
      rintro rfl
      exact hother new.2 hopens
    exact Function.update_of_ne hne _ _

/-- A careful event keeps the files that are open. -/
theorem Kept.careful (hk : Kept h) {ev : FsEvent} (hok : Careful h ev) : Kept (h.step ev) := by
  have hgrows : ∀ {ev}, h.sys.opens ev = none → Sys.Grows none h.sys (h.sys.execFs ev) →
      Kept (h.step ev) := by
    intro ev hnone hg
    refine hk.step ev hg.ready hg.sound (fun slot i hi => ?_)
      (fun slot i hi => hg.files i (hk.named slot i hi).2) (by simp [hnone])
    rw [hnone]
    exact hg.held slot i hi
  cases ev with
  | fd op =>
    obtain ⟨hg, hnew⟩ := execFd_grows hk.ready hk.sound op hok
    exact hk.step (.fd op) hg.ready hg.sound hg.held
      (fun slot i hi => hg.files i (hk.named slot i hi).2) hnew
  | create pid base path => exact hgrows rfl (createAt_grows hk.ready hk.sound base path _ _)
  | mkdir pid base path => exact hgrows rfl (mkdirAt_grows hk.ready hk.sound base path _ _)
  | unlink base path =>
    obtain ⟨hready, hsound, hlive⟩ := unlinkAt_spec hk.ready hk.sound base path
    refine hk.step (.unlink base path) hready hsound (fun slot i hi => .inr ⟨hi, by simp [opens]⟩)
      (fun slot i hi => ?_) (by simp [opens])
    exact hlive i (hok slot i hi) (hk.named slot i hi).2
  | read pid fd count dev =>
    exact hgrows rfl ((vfsRead_calm pid fd count dev).grows hk.ready hk.sound)
  | write pid fd src count dev =>
    exact hgrows rfl (vfsWrite_grows hk.ready hk.sound pid fd src count dev).1
  | seek pid fd offset whence dev =>
    exact hgrows rfl ((vfsSeek_calm pid fd offset whence dev).grows hk.ready hk.sound)

/-- **Isolation of careful histories.**  From a kernel without open LufiraFS files,
after every history in which no open regular file is unlinked, a write changes only
the file that the path of its descriptor named. -/
theorem isolated_of_run {s : Sys} (hready : s.fs.Ready) (hsound : Sound s.fs.vol)
    (hnone : ∀ slot, s.held slot = none) {evs : List FsEvent}
    (hmeets : Run.Meets step Careful (start s) evs) : Isolated (Run.run step (start s) evs) := by
  have hstart : Kept (start s) := by
    refine ⟨hready, hsound, fun slot ino hslot => ?_⟩
    exact nomatch (hnone slot).symm.trans hslot
  exact (Run.Meets.invariant (fun _ _ hk hok => Kept.careful hk hok) hmeets hstart).isolated

theorem otherChar_ne_zero : (101 : UInt8) ≠ 0 := by decide

/-- `"/e"`. -/
def otherPath : CStr := [slash, ⟨101, otherChar_ne_zero⟩]

/-- A kernel that has just started, with a new volume of 16 blocks. -/
def newSys : Sys := Sys.boot smallMount fun _ => ⟨0, 0, 1⟩

/-- One file is open while another one is created and unlinked. -/
def twoFiles : List FsEvent :=
  [.fd (.openFile 0 dirPath 6 .notMounted), .create 0 1 otherPath, .unlink 1 otherPath,
    .write 0 3 zeros 5 0]

theorem newSys_named : newSys.OpensLive (.openFile 0 dirPath 6 .notMounted) := by
  intro _ ino fs h
  have hlive : ((newSys.named 0 Mount.rootInode dirPath 6).map fun p =>
      decide (p.2.vol.Live p.1)) = some true := by
    decide +kernel
  rw [h] at hlive
  simpa using hlive

theorem isolated_of_run_twoFiles : (Run.run step (start newSys) twoFiles).opened 3 = some (2, 1) ∧
    Isolated (Run.run step (start newSys) twoFiles) := by
  obtain ⟨hready, hsound⟩ := boot_ready smallMount_tidy.ready smallMount_tidy.sound
    fun _ => ⟨0, 0, 1⟩
  refine ⟨by decide +kernel, isolated_of_run hready hsound (boot_held _ _) ?_⟩
  refine ⟨newSys_named, trivial, fun slot ino hheld htarget => ?_, trivial, trivial⟩
  obtain ⟨hgrows, _⟩ := execFd_grows hready hsound (.openFile 0 dirPath 6 .notMounted) newSys_named
  have hopens : newSys.opens (.fd (.openFile 0 dirPath 6 .notMounted)) = some (3, 2) := by
    decide +kernel
  have hino : ino = 2 := by
    rw [step_sys, held_create, step_sys] at hheld
    rcases hgrows.held slot ino hheld with hnew | ⟨hold, _⟩
    · rw [show newSys.opens _ = some (slot, ino) from hnew] at hopens
      injection hopens with hpair
      exact congrArg Prod.snd hpair
    · exact nomatch (boot_held _ _ slot).symm.trans hold
  subst hino
  revert htarget
  decide +kernel

/-- The file is unlinked while it is open, and another one created. -/
def recycled : List FsEvent :=
  [.fd (.openFile 0 dirPath 6 .notMounted), .unlink 1 dirPath, .create 0 1 otherPath]

/-- The descriptor of the unlinked file writes into the new file. -/
theorem not_isolated_recycled : ¬ Isolated (Run.run step (start newSys) recycled) := by
  intro hiso
  have hsize : ((Run.run step (start newSys) recycled).sys.fs.vol.inode 2).size = 0 := by
    decide +kernel
  have hwritten : (((Run.run step
      (start newSys) recycled).sys.vfsWrite 0 3 zeros 5 0).2.fs.vol.inode
      2).size = 5 := by
    decide +kernel
  obtain ⟨slot, htable, hopened⟩ := hiso 0 3 zeros 5 0 2 (by decide +kernel) fun hsame => by
    rw [hsame.1, hsize] at hwritten
    exact absurd hwritten (by decide)
  have hslot : (Run.run step (start newSys) recycled).sys.tables 0 3 = some 3 := by decide +kernel
  have hlives : (Run.run step (start newSys) recycled).opened 3 = some (2, 1) ∧
      (Run.run step (start newSys) recycled).gen 2 = 2 := by
    decide +kernel
  rw [hslot] at htable
  cases htable
  rw [hlives.1, hlives.2] at hopened
  exact absurd hopened (by decide)

end History

end Vfs
