import LufiraOS.Mkfs.Mounted
import LufiraOS.Vfs.Access
import LufiraOS.Vfs.Lifecycle

/-!
# Duplicated descriptors

Several descriptors, in one or more processes, share one open file.  The `close`
operation of LufiraFS runs on every `vfs_close`, not only on the last, and frees
the private data that the other descriptors still need: reading and writing
through them fails from then on.
-/

namespace Vfs

open LufiraFs ByteStore Holding

/-- A call on a descriptor. -/
inductive FileCall
  | read (pid fd count : Nat)
  | write (pid fd : Nat) (src : Bytes) (count : Nat)
  | seek (pid fd : Nat) (offset : Int) (whence : Nat)

/-- The descriptor a call is made on. -/
def FileCall.key : FileCall → Nat × Nat
  | .read pid fd _ => (pid, fd)
  | .write pid fd _ _ => (pid, fd)
  | .seek pid fd _ _ => (pid, fd)

/-- What a call returns, and the file system after it. -/
structure Reply where
  result : Option Int
  bytes : List UInt8
  fs : Mount

namespace Sys

/-- One call; no device takes part in the calls on LufiraFS files. -/
def callFile (s : Sys) : FileCall → Reply × Sys
  | .read pid fd count =>
    match s.vfsRead pid fd count 0 with
    | (n, bytes, s) => (⟨n, bytes, s.fs⟩, s)
  | .write pid fd src count =>
    match s.vfsWrite pid fd src count 0 with
    | (n, s) => (⟨n, [], s.fs⟩, s)
  | .seek pid fd offset whence =>
    match s.vfsSeek pid fd offset whence 0 with
    | (n, s) => (⟨some n, [], s.fs⟩, s)

/-- The replies to one call after another. -/
def replies : List FileCall → Sys → List Reply
  | [], _ => []
  | c :: cs, s => (s.callFile c).1 :: replies cs (s.callFile c).2

/-- Close the listed descriptors. -/
def closeEach (s : Sys) (ks : List (Nat × Nat)) : Sys :=
  ks.foldl (fun s k => (s.vfsClose k.1 k.2).2) s

/-- The coming `kmalloc` and disk calls end as `env` says. -/
def withEnv (s : Sys) (env : Env) : Sys := { s with fs := s.fs.withEnv env }

/-- **Closing is unseen.**  Whatever the coming `kmalloc` and disk calls do, calls
on the descriptors of `slot` that are not closed reply as if `closes` had not been
closed. -/
def Unseen (s : Sys) (slot : Nat) (closes : List (Nat × Nat)) : Prop :=
  ∀ (env : Env) (calls : List FileCall),
    (∀ c ∈ calls, s.fdAt c.key = some slot ∧ c.key ∉ closes) →
    replies calls ((s.withEnv env).closeEach closes) = replies calls (s.withEnv env)

/-- The slot holds an open regular file of LufiraFS, the file `ino`. -/
structure OpenFile (s : Sys) (slot ino : Nat) : Prop where
  file : ∃ f inode index, s.files slot = some f ∧ f.ops = some .lufiraFile ∧
    f.inode = some inode ∧ inode.privateData = .lufira ⟨ino, false, index⟩
  valid : (s.fs.readInode ino).isSome = true

/-- The slot holds a LufiraFS file that has lost its private data. -/
def Emptied (s : Sys) (slot : Nat) : Prop :=
  ∃ f inode, s.files slot = some f ∧ f.ops = some .lufiraFile ∧ f.inode = some inode ∧
    inode.privateData = .null

section

variable {s : Sys} {owed : Ops → Nat → Nat} {slot : Nat} {k : Nat × Nat}

theorem vfsClose_files {pid fd : Nat} {f : File} (hfd : fd < maxFdPerProcess)
    (htable : s.tables pid fd = some slot) (hf : s.files slot = some f) :
    (s.vfsClose pid fd).2.files slot = dropRef (s.closeOp f).1 := by
  rw [vfsClose, if_neg (by omega)]
  simp [htable, hf, setFd, setFile]

/-- Closing one of several descriptors of a LufiraFS file frees its private data. -/
theorem vfsClose_empties (h : RefsOk s owed) {f : File} {inode : VInode}
    (hf : s.files slot = some f) (hops : f.ops = some .lufiraFile) (hi : f.inode = some inode)
    (hk : s.fdAt k = some slot) {k' : Nat × Nat} (hk' : s.fdAt k' = some slot) (hne : k ≠ k') :
    ((s.vfsClose k'.1 k'.2).2).fdAt k = some slot ∧ Emptied (s.vfsClose k'.1 k'.2).2 slot := by
  have hlt : k'.2 < maxFdPerProcess := (h.owned _ _ _ hk').2
  have hstay : ((s.vfsClose k'.1 k'.2).2).fdAt k = some slot := by
    have heq : ((s.vfsClose k'.1 k'.2).2).fdAt k = (s.setFd k'.1 k'.2 none).fdAt k :=
      congrFun (congrFun (vfsClose_frame s k'.1 hlt).1 k.1) k.2
    rw [heq, fdAt_setFd, Function.update_of_ne hne, hk]
  obtain ⟨g, hg⟩ := Option.ne_none_iff_exists'.1 ((h.close k'.1 k'.2).points k.1 k.2 slot hstay)
  have hclosed : (s.closeOp f).1 =
      { f with inode := some { inode with privateData := .null } } := by
    simp [closeOp, hops, hi]
  have hdrop := hg
  rw [vfsClose_files hlt hk' hf, hclosed] at hdrop
  obtain ⟨_, rfl⟩ := dropRef_eq_some rfl hdrop
  exact ⟨hstay, _, _, hg, hops, rfl, rfl⟩

/-- Closing more of them changes nothing about that. -/
theorem closeEach_empties (ks : List (Nat × Nat)) :
    ∀ {s : Sys}, RefsOk s owed → (∃ f inode, s.files slot = some f ∧ f.ops = some .lufiraFile ∧
      f.inode = some inode) → s.fdAt k = some slot → k ∉ ks → ks.Nodup →
      (∀ k' ∈ ks, s.fdAt k' = some slot) → ks ≠ [] ∨ Emptied s slot →
      (s.closeEach ks).fdAt k = some slot ∧ Emptied (s.closeEach ks) slot := by
  induction ks with
  | nil =>
    intro s _ _ hk _ _ _ hempty
    exact ⟨hk, hempty.resolve_left (by simp)⟩
  | cons k' ks ih =>
    intro s h ⟨f, inode, hf, hops, hi⟩ hk hnot hnodup hall _
    have hne : k ≠ k' := fun heq => hnot (heq ▸ List.mem_cons_self)
    have hk' := hall k' List.mem_cons_self
    obtain ⟨hstay, hempty⟩ := vfsClose_empties h hf hops hi hk hk' hne
    have ⟨g, i, hg, hgops, hgi, _⟩ := hempty
    refine ih (h.close k'.1 k'.2) ⟨g, i, hg, hgops, hgi⟩ hstay
      (fun hmem => hnot (List.mem_cons_of_mem _ hmem)) (List.nodup_cons.1 hnodup).2 ?_
      (.inr hempty)
    intro k'' hmem
    have hne' : k'' ≠ k' := fun heq => (List.nodup_cons.1 hnodup).1 (heq ▸ hmem)
    exact (vfsClose_empties h hf hops hi (hall k'' (List.mem_cons_of_mem _ hmem)) hk' hne').1

/-- A read through a descriptor whose file has lost its private data fails. -/
theorem vfsRead_emptied (h : Emptied s slot) (hk : s.fdAt k = some slot)
    (hlt : k.2 < maxFdPerProcess) (count : Nat) (dev : Int) :
    (s.vfsRead k.1 k.2 count dev).1 = some (-1) := by
  obtain ⟨f, inode, hf, hops, hi, hpriv⟩ := h
  have htable : s.tables k.1 k.2 = some slot := hk
  simp only [vfsRead, if_pos hlt, htable, hf, readOp, hops, lufirafsFileRead, hi, hpriv]

/-- A read of no bytes from an open file succeeds when nothing fails. -/
theorem vfsRead_zero {ino : Nat} (h : OpenFile s slot ino) (hk : s.fdAt k = some slot)
    (hlt : k.2 < maxFdPerProcess) (dev : Int) :
    ((s.withEnv Env.allOk).vfsRead k.1 k.2 0 dev).1 = some 0 := by
  obtain ⟨f, inode, index, hf, hops, hi, hpriv⟩ := h.file
  have htable : s.tables k.1 k.2 = some slot := hk
  obtain ⟨r, hr⟩ := Option.isSome_iff_exists.1 h.valid
  have hread : ((s.fs.withEnv Env.allOk).read ino f.offset 0).1 = 0 := by
    have hr' : (s.fs.withEnv Env.allOk).readInode ino = some r := hr
    simp only [Mount.read, hr']
    by_cases hoff : r.size.toNat ≤ f.offset
    · rw [if_pos hoff]
    have hlen : f.offset < 4294967296 := by
      have := r.size.toNat_lt
      omega
    rw [if_neg hoff, Nat.add_zero, Nat.mod_eq_of_lt hlen, if_neg (by omega)]
    rfl
  have hfs : (s.withEnv Env.allOk).fs = s.fs.withEnv Env.allOk := rfl
  have hfiles : (s.withEnv Env.allOk).files slot = some f := hf
  have htable' : (s.withEnv Env.allOk).tables k.1 k.2 = some slot := htable
  simp only [vfsRead, if_pos hlt, htable', hfiles, readOp, hops, lufirafsFileRead, hi, hpriv, hfs]
  rcases hres : (s.fs.withEnv Env.allOk).read ino f.offset (0 % 4294967296) with ⟨n, bytes, fs⟩
  have hn : n = 0 := by
    rw [Nat.zero_mod] at hres
    rw [hres] at hread
    exact hread
  subst hn
  rfl

/-- **Closing is unseen only when nothing is closed.**  A regular LufiraFS file is
open in several descriptors, some of which are closed and one of which is not. -/
theorem unseen_iff {ino : Nat} {closes : List (Nat × Nat)} (h : RefsOk s square)
    (hopen : OpenFile s slot ino) (hnodup : closes.Nodup)
    (hclosed : ∀ k' ∈ closes, s.fdAt k' = some slot) (hk : s.fdAt k = some slot)
    (hleft : k ∉ closes) : Unseen s slot closes ↔ closes = [] := by
  constructor
  · intro hunseen
    by_contra hne
    have hlt : k.2 < maxFdPerProcess := (h.owned k.1 k.2 slot hk).2
    obtain ⟨f, inode, index, hf, hops, hi, _⟩ := hopen.file
    obtain ⟨hstay, hempty⟩ := closeEach_empties (s := s.withEnv Env.allOk) closes (h.withFs _)
      ⟨f, inode, hf, hops, hi⟩ hk hleft hnodup hclosed (.inl hne)
    have hsame := hunseen Env.allOk [.read k.1 k.2 0] (by simpa using ⟨hk, hleft⟩)
    have hresult := congrArg (fun l => l.map Reply.result) hsame
    simp only [replies, callFile, List.map_cons, List.map_nil] at hresult
    rw [vfsRead_emptied hempty hstay hlt, vfsRead_zero hopen hk hlt] at hresult
    exact absurd hresult (by decide)
  · rintro rfl env calls _
    rfl

/-- A file `"/d"`, made by its first open and open in the descriptors `3` and `4`. -/
def sharedFile : Sys :=
  ((boot smallMount fun _ => ⟨0, 0, 1⟩).vfsOpen 0 dirPath 6 .notMounted).2.vfsDup2 0 3 4 |>.2

theorem sharedFile_refsOk : RefsOk sharedFile square := by
  obtain ⟨hboot, hheap⟩ := boot_refsOk smallMount_heapOk fun _ => ⟨0, 0, 1⟩
  exact RefsOk.vfsDup2
    (hboot.openFrom (by decide +kernel) hheap Mount.rootInode dirPath 6 .notMounted)
    (by decide +kernel) 3 4

theorem sharedFile_open : OpenFile sharedFile 3 2 := by
  refine ⟨⟨⟨3, some ⟨.regular, 0, 2, .lufira ⟨2, false, 0⟩⟩, 0, 6, some .lufiraFile⟩, _, 0, ?_, rfl,
    rfl, rfl⟩, ?_⟩
  · decide +kernel
  · decide +kernel

theorem unseen_iff_sharedFile : Unseen sharedFile 3 [(0, 4)] ↔ [((0, 4) : Nat × Nat)] = [] :=
  unseen_iff (k := (0, 3)) sharedFile_refsOk sharedFile_open (by decide) (by decide +kernel)
    (by decide +kernel) (by decide)

/-- A read through the descriptor `3` after the descriptor `4` has been closed. -/
theorem close_seen_through_duplicate : ¬ Unseen sharedFile 3 [(0, 4)] := by
  intro h
  have hsame := h Env.allOk [.read 0 3 5] (by decide +kernel)
  have hresult := congrArg (fun l => l.map Reply.result) hsame
  have hclosed : (replies [.read 0 3 5]
      ((sharedFile.withEnv Env.allOk).closeEach [(0, 4)])).map Reply.result = [some (-1)] := by
    decide +kernel
  have hleft : (replies [.read 0 3 5] (sharedFile.withEnv Env.allOk)).map Reply.result =
      [some 0] := by
    decide +kernel
  rw [hclosed, hleft] at hresult
  exact absurd hresult (by decide)

end

end Sys

end Vfs
