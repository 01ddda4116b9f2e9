import LufiraOS.Vfs.References

/-!
# Opening keeps the references

Every way of opening a file installs one new file in a free slot and a free
descriptor, or changes nothing but the file system; `vfs_pipe` installs two.
-/

namespace Vfs

open LufiraFs ByteStore Holding

namespace Sys

variable {s : Sys} {owed : Ops → Nat → Nat} {pid fd slot : Nat}

/-- The references do not depend on the file system. -/
theorem RefsOk.withFs (h : RefsOk s owed) (fs : Mount) : RefsOk { s with fs := fs } owed :=
  ⟨h.pids, h.owned, h.points, h.count, h.pipeFile, h.ends, h.fresh, h.noFault⟩

theorem allocFd_eq_some (h : s.allocFd pid = some fd) :
    fd < maxFdPerProcess ∧ s.tables pid fd = none := by
  have hfind := List.find?_some h
  have hmem := List.mem_of_find?_eq_some h
  exact ⟨List.mem_range.1 hmem, by simpa using hfind⟩

theorem allocFd_eq_none (h : s.allocFd pid = none) {fd : Nat} (hfd : fd < maxFdPerProcess) :
    s.tables pid fd ≠ none := by
  have hall := List.find?_eq_none.1 h fd (List.mem_range.2 hfd)
  simpa using hall

/-- `alloc_file` finds a free slot and takes memory. -/
theorem allocFileFrom_cases (i n : Nat) : ∃ fs, Mount.Uses s.fs fs ∧
    (allocFileFrom i n s = (none, { s with fs := fs }) ∨ ∃ slot, s.files slot = none ∧
        allocFileFrom i n s = (some slot, { s with fs := fs }.setFile slot (some File.blank))) := by
  induction n generalizing i s with
  | zero => exact ⟨s.fs, .refl _, .inl rfl⟩
  | succ n ih =>
    rw [allocFileFrom]
    split_ifs with hfree
    · rcases hk : s.kmalloc with ⟨ok, s₁⟩
      have hs₁ : s₁ = { s with fs := s.fs.kmalloc.2 } := (congrArg Prod.snd hk).symm
      cases ok with
      | true =>
        refine ⟨s.fs.kmalloc.2, s.fs.kmalloc_uses, .inr ⟨i, by simpa using hfree, ?_⟩⟩
        rw [hs₁]
      | false =>
        obtain ⟨fs, hfs, hcase⟩ := ih (s := s₁) (i + 1)
        rw [hs₁] at hfs hcase ⊢
        exact ⟨fs, s.fs.kmalloc_uses.trans hfs, hcase⟩
    · exact ih (i + 1)

theorem allocFile_cases (s : Sys) : ∃ fs, Mount.Uses s.fs fs ∧
    (s.allocFile = (none, { s with fs := fs }) ∨ ∃ slot, s.files slot = none ∧
        s.allocFile = (some slot, { s with fs := fs }.setFile slot (some File.blank))) :=
  allocFileFrom_cases 0 _

/-- `vfs_create_inode`. -/
theorem createInode_cases (type : FileType) (privateData : PrivateData) :
    ∃ fs, Mount.Uses s.fs fs ∧
      ((¬ s.fs.HeapOk ∧ s.createInode type privateData = (none, { s with fs := fs })) ∨
        s.createInode type privateData =
          (some ⟨type, 0, 1, privateData⟩, { s with fs := fs })) := by
  refine ⟨s.fs.kmalloc.2, s.fs.kmalloc_uses, ?_⟩
  rcases hk : s.fs.kmalloc with ⟨ok, fs⟩
  cases ok with
  | true =>
    refine .inr ?_
    simp only [createInode, Sys.kmalloc, hk]
  | false =>
    refine .inl ⟨fun hheap => ?_, ?_⟩
    · rw [hheap.kmalloc] at hk
      cases hk
    · simp only [createInode, Sys.kmalloc, hk]

theorem install_setFile (f g : File) (pid fd slot : Nat) :
    (s.setFile slot (some g)).install pid fd slot f = s.install pid fd slot f := by
  simp only [install, setFile, Function.update_idem]

/-- A new file that is not the end of a pipe. -/
theorem RefsOk.installFile (h : RefsOk s owed) (hlive : s.live pid = true)
    (hfd : s.allocFd pid = some fd) (hfree : s.files slot = none) {f : File} {inode : VInode}
    (hinode : f.inode = some inode) (hone : inode.refCount = 1)
    (hno : ∀ p, inode.privateData ≠ .pipe p) : RefsOk (s.install pid fd slot f) owed := by
  obtain ⟨hlt, hnone⟩ := allocFd_eq_some hfd
  refine h.install hlive hlt hnone hfree hinode hone (fun p hp => absurd hp (hno p)) ?_
  intro ops p
  simp [isEnd_of_ne hinode (hno p)]

/-- `vfs_open_console`. -/
theorem RefsOk.openConsole (h : RefsOk s owed) (hlive : s.live pid = true) (hheap : s.fs.HeapOk)
    (flags : Nat) : RefsOk (s.openConsole pid flags).2 owed := by
  unfold Sys.openConsole
  split
  · exact h
  rename_i fd hfd
  obtain ⟨fs, hfs, halloc | ⟨slot, hfree, halloc⟩⟩ := allocFile_cases s
  · rw [halloc]
    exact h.withFs fs
  rw [halloc]
  obtain ⟨fs', _, ⟨hno, _⟩ | hcreate⟩ := createInode_cases
    (s := { s with fs := fs }.setFile slot (some File.blank)) .chardev .null
  · exact absurd (hheap.uses hfs) hno
  · dsimp only
    rw [hcreate]
    have hs := (h.withFs fs').installFile (f := ⟨fd, some ⟨.chardev, 0, 1, .null⟩, 0, flags,
      some .console⟩) hlive hfd hfree rfl rfl (by simp)
    rw [← install_setFile _ File.blank] at hs
    exact hs

theorem buildInode_cases (ino : Nat) : ∃ fs, ∃ inode : Option VInode,
    s.buildInode ino = (inode, { s with fs := fs }) ∧
      ∀ i, inode = some i → i.refCount = 1 ∧ ∃ priv, i.privateData = .lufira priv := by
  unfold buildInode
  split
  · exact ⟨s.fs, none, rfl, by simp⟩
  rcases hk : s.fs.kmalloc with ⟨ok, fs⟩
  cases ok with
  | false => exact ⟨fs, none, by simp only [Sys.kmalloc, hk], by simp⟩
  | true =>
    simp only [Sys.kmalloc, hk]
    rename_i r _
    obtain ⟨fs', _, ⟨_, hcreate⟩ | hcreate⟩ := createInode_cases (s := { s with fs := fs })
      (if decide (r.mode = modeDir) = true then FileType.directory else FileType.regular)
      (.lufira ⟨ino, decide (r.mode = modeDir), 0⟩)
    · exact ⟨fs', none, by rw [hcreate], by simp⟩
    · refine ⟨fs', _, by rw [hcreate], ?_⟩
      rintro i ⟨rfl⟩
      exact ⟨rfl, _, rfl⟩

section

variable (h : RefsOk s owed) (hlive : s.live pid = true)

include h hlive

/-- The last part of `vfs_lufirafs_open_at`. -/
theorem RefsOk.openInode
    (hfd : s.allocFd pid = some fd) (hfree : s.files slot = none) (ino flags : Nat) {i : VInode}
    (hone : i.refCount = 1) (hno : ∀ p, i.privateData ≠ .pipe p) :
    RefsOk ((s.setFile slot (some File.blank)).openInode pid fd slot ino flags i) owed := by
  have hinstall : ∀ (fs : Mount) (f : File) (i' : VInode), f.inode = some i' → i'.refCount = 1 →
      (∀ p, i'.privateData ≠ .pipe p) →
      RefsOk (({ s with fs := fs }.setFile slot (some File.blank)).install pid fd slot f) owed := by
    intro fs f i' hf hone' hno'
    rw [install_setFile]
    exact (h.withFs fs).installFile hlive hfd hfree hf hone' hno'
  unfold Sys.openInode
  dsimp only
  split
  · exact hinstall _ _ { i with size := 0 } rfl hone hno
  · exact hinstall s.fs _ i rfl hone hno

/-- `vfs_lufirafs_open_at`. -/
theorem RefsOk.lufirafsOpenAt (base : Nat)
    (path : CStr) (flags : Nat) : RefsOk (s.lufirafsOpenAt pid base path flags).2 owed := by
  unfold Sys.lufirafsOpenAt
  split_ifs
  · exact h
  rcases s.fs.lookup base path with ⟨_ | ino, fs⟩
  · exact h.withFs fs
  dsimp only
  split
  · exact h.withFs fs
  rename_i fd hfd
  obtain ⟨fs', inode, hbuild, hinode⟩ := buildInode_cases (s := { s with fs := fs }) ino
  rw [hbuild]
  cases inode with
  | none => exact h.withFs fs'
  | some i =>
    obtain ⟨hone, priv, hpriv⟩ := hinode i rfl
    dsimp only
    obtain ⟨fs'', _, halloc | ⟨slot, hfree, halloc⟩⟩ := allocFile_cases { s with fs := fs' }
    · rw [halloc]
      exact h.withFs fs''
    · rw [halloc]
      exact (h.withFs fs'').openInode hlive hfd hfree ino flags hone (by simp [hpriv])

/-- The opens of the other file systems. -/
theorem RefsOk.openOther (flags : Nat)
    (type : FileType) (hasOps : Bool) : RefsOk (s.openOther pid flags type hasOps).2 owed := by
  unfold Sys.openOther
  split
  · exact h
  rename_i fd hfd
  obtain ⟨fs, _, ⟨_, hcreate⟩ | hcreate⟩ := createInode_cases (s := s) type .other
  · rw [hcreate]
    exact h.withFs fs
  rw [hcreate]
  dsimp only
  obtain ⟨fs', _, halloc | ⟨slot, hfree, halloc⟩⟩ := allocFile_cases { s with fs := fs }
  · rw [halloc]
    exact h.withFs fs'
  rw [halloc]
  have hs := (h.withFs fs').installFile (f := ⟨fd, some ⟨type, 0, 1, .other⟩, 0, flags,
    if hasOps then some .other else none⟩) hlive hfd hfree rfl rfl (by simp)
  rw [← install_setFile _ File.blank] at hs
  exact hs

end

/-- An open that fails in LufiraFS has taken and returned memory only. -/
theorem lufirafsOpenAt_failed (hheap : s.fs.HeapOk) (pid base : Nat) (path : CStr) (flags : Nat)
    (h : (s.lufirafsOpenAt pid base path flags).1 < 0) :
    (s.lufirafsOpenAt pid base path flags).2.fs.HeapOk ∧
      (s.lufirafsOpenAt pid base path flags).2.live = s.live := by
  have hlook := hheap.lookup base path
  revert h
  unfold Sys.lufirafsOpenAt
  split_ifs
  · exact fun _ => ⟨hheap, rfl⟩
  rcases hl : s.fs.lookup base path with ⟨_ | ino, fs⟩
  · rw [hl] at hlook
    exact fun _ => ⟨hlook, rfl⟩
  rw [hl] at hlook
  have hmem : fs.kmalloc = (true, fs) := Mount.HeapOk.kmalloc hlook
  dsimp only
  split
  · exact fun _ => ⟨hlook, rfl⟩
  unfold buildInode
  cases fs.readInode ino with
  | none => exact fun _ => ⟨hlook, rfl⟩
  | some r =>
    simp only [Sys.kmalloc, createInode, hmem]
    obtain ⟨fs', hfs', halloc | ⟨slot, _, halloc⟩⟩ := allocFile_cases { s with fs := fs }
    · rw [halloc]
      exact fun _ => ⟨hlook.uses hfs', rfl⟩
    rw [halloc]
    intro h
    exact absurd h (by simp)

/-- **`vfs_open` and `vfs_open_at`** keep the references. -/
theorem RefsOk.openFrom (h : RefsOk s owed) (hlive : s.live pid = true) (hheap : s.fs.HeapOk)
    (base : Mount → Nat) (path : CStr) (flags : Nat) (foreign : Foreign) :
    RefsOk (s.openFrom pid base path flags foreign).2 owed := by
  unfold Sys.openFrom
  split_ifs
  · exact h
  cases foreign with
  | failed => exact h
  | opened type hasOps => exact h.openOther hlive flags type hasOps
  | notMounted =>
    have hfirst := h.lufirafsOpenAt hlive (base s.fs) path flags
    have hfailed := lufirafsOpenAt_failed hheap pid (base s.fs) path flags
    unfold openLocal
    rcases hopen : s.lufirafsOpenAt pid (base s.fs) path flags with ⟨fd, s₁⟩
    rw [hopen] at hfirst hfailed
    dsimp only at hfirst hfailed ⊢
    split_ifs with hfd hcreat hres hconsole
    · exact hfirst
    · exact hfirst.withFs _
    · refine (hfirst.withFs _).lufirafsOpenAt ?_ _ _ _
      exact (congrFun (hfailed (by omega)).2 pid).trans hlive
    · obtain ⟨hheap₁, hlive₁⟩ := hfailed (by omega)
      exact hfirst.openConsole ((congrFun hlive₁ pid).trans hlive) hheap₁ flags
    · exact hfirst

end Sys

end Vfs
