import LufiraOS.Driver.Blocks
import LufiraOS.Volume.Entries

/-!
# What the directory functions do

One statement for each function that reads or changes directory entries, in
terms of the volume.  Reading changes nothing but the environment, and when no
`kmalloc` fails it computes the lookup of the volume.  Adding fills an unused
entry or grows the directory; removing empties the entry that was found.
-/

namespace LufiraFs

open ByteStore Vol

namespace Mount

section

variable {fs : Mount}

theorem withEnv_of_allOk {e : Env} (henv : fs.env = Env.allOk) (h : fs.env.Leads e) :
    fs.withEnv e = fs := by
  rw [henv] at h
  rw [h.allOk, ← henv]
  rfl

/-! ## Reading -/

section

variable (fs : Mount)

theorem lookupBlocks_uses (r : Inode) (name : CStr) (b n : Nat) :
    Uses fs (lookupBlocks r name b n fs).2 := by
  induction n generalizing b fs with
  | zero => exact .refl fs
  | succ n ih =>
    have hfetch := fs.fetchBlock_uses r b
    unfold lookupBlocks
    split
    · next heq => exact (hfetch.ofEq heq).trans (ih _ _)
    · next heq =>
      split
      · exact hfetch.ofEq heq
      · exact (hfetch.ofEq heq).trans (ih _ _)

theorem lookupInDir_uses (d : Nat) (name : CStr) : Uses fs (fs.lookupInDir d name).2 := by
  unfold lookupInDir
  split
  · exact .refl fs
  split
  · exact .refl fs
  split
  · next heq => exact fs.kmalloc_uses.ofEq heq
  · next heq => exact (fs.kmalloc_uses.ofEq heq).trans (lookupBlocks_uses _ _ _ _ _)

theorem readdirLoop_uses (r : Inode) (index n : Nat) : Uses fs (readdirLoop r index n fs).2 := by
  induction n generalizing index fs with
  | zero => exact .refl fs
  | succ n ih =>
    have hfetch := fs.fetchBlock_uses r (index / 128)
    unfold readdirLoop
    split
    · next heq => exact (hfetch.ofEq heq).trans (ih _ _)
    · next heq =>
      split
      · exact (hfetch.ofEq heq).trans (ih _ _)
      · exact hfetch.ofEq heq

theorem readdir_uses (d index : Nat) : Uses fs (fs.readdir d index).2 := by
  unfold readdir
  split
  · exact .refl fs
  split
  · next heq => exact fs.kmalloc_uses.ofEq heq
  · next heq => exact (fs.kmalloc_uses.ofEq heq).trans (readdirLoop_uses _ _ _ _)

theorem countExtra_uses (d fuel index : Nat) : Uses fs (countExtra d fuel index fs).2 := by
  induction fuel generalizing index fs with
  | zero => exact .refl fs
  | succ fuel ih =>
    have hread := fs.readdir_uses d index
    unfold countExtra
    split
    · next heq => exact hread.ofEq heq
    · next heq => exact (hread.ofEq heq).trans (ih _ _)

end

section

variable (h : fs.Ready)

include h

/-- A block that can be read is read when nothing fails. -/
theorem fetchBlock_allOk (henv : fs.env = Env.allOk) (r : Inode) (b : Nat) :
    fs.fetchBlock r b = (fs.vol.fetch r b, fs) := by
  obtain ⟨res, e, hfetch, hleads, _, hok⟩ := fetchBlock_eq h r b
  rw [withEnv_of_allOk henv hleads] at hfetch
  rw [hfetch, hok (by rw [henv]; rfl)]

theorem lookupBlocks_allOk (henv : fs.env = Env.allOk) (r : Inode) (name : CStr) (b n : Nat) :
    (lookupBlocks r name b n fs).1 = fs.vol.lookupBlocks r name b n := by
  induction n generalizing b with
  | zero => rfl
  | succ n ih =>
    rw [lookupBlocks, fetchBlock_allOk h henv, Vol.lookupBlocks]
    rcases fs.vol.fetch r b with _ | ⟨bn, blk⟩
    · exact ih _
    cases hentry : findEntry blk name 0 128 with
    | some i => simp only [hentry]
    | none =>
      simp only [hentry]
      exact ih _

/-- `lookup_in_dir`. -/
theorem lookupInDir_eq (d : Nat) (name : CStr) :
    ∃ res e, fs.lookupInDir d name = (res, fs.withEnv e) ∧ fs.env.Leads e ∧
      (fs.env = Env.allOk → res = fs.vol.lookupIn d name) := by
  obtain ⟨res, e, hlook, hleads⟩ := (fs.lookupInDir_uses d name).pair
  refine ⟨res, e, hlook, hleads, fun henv => ?_⟩
  rw [show res = (fs.lookupInDir d name).1 by rw [hlook], lookupIn, lookupInDir, readInode_eq]
  by_cases hd : fs.vol.IsIno d
  · by_cases hmode : (fs.vol.inode d).mode = modeDir
    · obtain ⟨e', hmalloc, hleads'⟩ := fs.kmalloc_eq
      rw [withEnv_of_allOk henv hleads', henv] at hmalloc
      simpa [hd, hmode, hmalloc, Env.allOk] using lookupBlocks_allOk h henv _ _ _ _
    · simp [hd, hmode]
  · simp [hd]

/-! ## Adding an entry -/

/-- What the loop of `add_dirent` over the blocks from `b` on leaves. -/
def AddsIn (fs : Mount) (r : Inode) (name : CStr) (entryIno b n : Nat) (res : Bool × Mount) :
    Prop :=
  (∃ e, res = (false, fs.withEnv e) ∧ fs.env.Leads e) ∨
    ∃ c bn k fs', res = (true, fs') ∧ b ≤ c ∧ c < b + n ∧
      fs.vol.InData bn ∧ bn = blockOf fs.vol.block r c ∧
      findUnused (fs.vol.block bn) 0 128 = some k ∧
      Becomes fs fs' fs.sb (fs.vol.setBlock bn
        (window (putDirent (fs.vol.block bn) k (UInt32.ofNat entryIno) name) 0 8192))

/-- What that of `remove_dirent` leaves; `missed` holds if nothing is removed. -/
def RemovesIn (fs : Mount) (r : Inode) (name : CStr) (b n : Nat) (missed : Prop)
    (res : Bool × Mount) : Prop :=
  (∃ e, res = (false, fs.withEnv e) ∧ fs.env.Leads e ∧ missed) ∨
    ∃ c bn k fs', res = (true, fs') ∧ b ≤ c ∧ c < b + n ∧
      fs.vol.InData bn ∧ bn = blockOf fs.vol.block r c ∧
      findEntry (fs.vol.block bn) name 0 128 = some k ∧
      Becomes fs fs' fs.sb (fs.vol.setBlock bn (window (clearDirent (fs.vol.block bn) k) 0 8192))

/-- The block loop of `add_dirent` fills an unused entry of one of the blocks, or
changes nothing. -/
theorem addDirentBlocks_cases (r : Inode) (name : CStr) (entryIno b n : Nat) :
    fs.AddsIn r name entryIno b n (addDirentBlocks r name entryIno b n fs) := by
  induction n generalizing b fs with
  | zero => exact .inl ⟨fs.env, rfl, Env.Leads.refl _⟩
  | succ n ih =>
    obtain ⟨res, e, hfetch, hleads, hres, _⟩ := fetchBlock_eq h r b
    have hrest : fs.AddsIn r name entryIno b (n + 1)
        (addDirentBlocks r name entryIno (b + 1) n (fs.withEnv e)) := by
      rcases ih (h.withEnv hleads) (b + 1) with
        ⟨e', heq, hleads'⟩ | ⟨c, bn, k, fs', heq, hlo, hhi, hin, hbn, hk, hbec⟩
      · exact .inl ⟨e', heq, hleads.trans hleads'⟩
      · exact .inr ⟨c, bn, k, fs', heq, by omega, by omega, hin, hbn, hk,
          (Becomes.withEnv h hleads).trans hbec⟩
    simp only [addDirentBlocks, hfetch]
    cases res with
    | none => exact hrest
    | some found =>
      obtain ⟨bn, blk⟩ := found
      obtain ⟨hin, hbn, rfl⟩ := fetch_some (hres.resolve_left (by simp)).symm
      cases hfree : findUnused (fs.vol.block bn) 0 128 with
      | none => simpa only [hfree] using hrest
      | some k =>
        right
        have hwrite := writeDataBlock_becomes (h.withEnv hleads)
          (b := bn) hin (putDirent (fs.vol.block bn) k (UInt32.ofNat entryIno) name)
        exact ⟨b, bn, k, _, by simp only [hfree], by omega, by omega, hin, hbn, hfree,
          (Becomes.withEnv h hleads).trans hwrite⟩

/-- `add_dirent` when no entry is unused: the copy of the record grows by the
block behind the last one, and the block and the record are written. -/
theorem addDirentGrow_cases {d : Nat} (hd : fs.vol.IsIno d) (hs : Sound fs.vol)
    {r : Inode} (hr : fs.vol.inode d = r) (name : CStr) (entryIno : Nat) :
    (∃ r' fs', fs.addDirentGrow d r name entryIno = (false, fs') ∧
      Draft d (slotsFor (blocksOf r.size.toNat)) r r' fs fs') ∨
    (∃ bn r' fs₁ fs', fs.addDirentGrow d r name entryIno = (true, fs') ∧
      Draft d (slotsFor (blocksOf r.size.toNat)) r r' fs fs₁ ∧ bn ≠ 0 ∧
      blockOf fs₁.vol.block r' (blocksOf r.size.toNat) = bn ∧
      Becomes fs₁ fs' fs₁.sb ((fs₁.vol.setBlock bn
          (window (putDirent zeros 0 (UInt32.ofNat entryIno) name) 0 8192)).setInode d
        (r'.setSize (UInt32.ofNat ((blocksOf r.size.toNat + 1) * 8192))))) := by
  have hself : fs.vol.setInode d r = fs.vol := by rw [← hr, setInode_self]
  obtain ⟨bn, r', fs₁, hcall, hdraft, hfound⟩ :=
    inodeGetBlock_draft h hd (r := r) (by rw [hself]; exact hs) (blocksOf r.size.toNat)
  unfold addDirentGrow
  simp only [hcall]
  by_cases h0 : bn = 0
  · exact .inl ⟨r', fs₁, by simp [h0], hdraft⟩
  right
  have hblock := hfound h0
  have hd₁ : fs₁.vol.IsIno d := hdraft.isIno.2 hd
  have hin : fs₁.vol.InData bn := by
    rw [← hblock] at h0 ⊢
    exact hdraft.gains.sound.blockOf_inData hd₁ h0
  have hsize : r'.size = r.size := by simpa using hdraft.gains.attrs.size
  have hwrite := writeDataBlock_becomes hdraft.ready hin
    (putDirent zeros 0 (UInt32.ofNat entryIno) name)
  have hrecord := hwrite.trans (writeInode_becomes hwrite.ready (i := d)
    (by rw [hwrite.vol]; exact hd₁)
    (r'.setSize (UInt32.ofNat ((blocksOf r.size.toNat + 1) * 8192))))
  rw [hwrite.vol, hwrite.sb] at hrecord
  exact ⟨bn, r', fs₁, _, by simp only [h0, if_false, hsize], hdraft, h0, hblock, hrecord⟩

/-- **What `add_dirent` can do**: fail at once, fail after an attempt to grow the
directory, fill an unused entry, or grow the directory by a block. -/
theorem addDirent_cases (hs : Sound fs.vol) (d : Nat) (name : CStr) (entryIno : Nat) :
    (∃ e, fs.addDirent d name entryIno = (false, fs.withEnv e) ∧ fs.env.Leads e) ∨
    (∃ r' fs', fs.addDirent d name entryIno = (false, fs') ∧ fs.vol.IsIno d ∧
      Draft d (slotsFor (blocksOf (fs.vol.inode d).size.toNat)) (fs.vol.inode d) r' fs fs') ∨
    (∃ c bn k fs', fs.addDirent d name entryIno = (true, fs') ∧ fs.vol.IsIno d ∧
      c < blocksOf (fs.vol.inode d).size.toNat ∧ fs.vol.InData bn ∧
      bn = blockOf fs.vol.block (fs.vol.inode d) c ∧
      findUnused (fs.vol.block bn) 0 128 = some k ∧
      Becomes fs fs' fs.sb (fs.vol.setBlock bn
        (window (putDirent (fs.vol.block bn) k (UInt32.ofNat entryIno) name) 0 8192))) ∨
    (∃ bn r' fs₁ fs', fs.addDirent d name entryIno = (true, fs') ∧ fs.vol.IsIno d ∧
      Draft d (slotsFor (blocksOf (fs.vol.inode d).size.toNat)) (fs.vol.inode d) r' fs fs₁ ∧
      bn ≠ 0 ∧ blockOf fs₁.vol.block r' (blocksOf (fs.vol.inode d).size.toNat) = bn ∧
      Becomes fs₁ fs' fs₁.sb ((fs₁.vol.setBlock bn
          (window (putDirent zeros 0 (UInt32.ofNat entryIno) name) 0 8192)).setInode d
        (r'.setSize (UInt32.ofNat ((blocksOf (fs.vol.inode d).size.toNat + 1) * 8192))))) := by
  unfold addDirent
  by_cases hd : fs.vol.IsIno d
  · rw [readInode_some hd]
    obtain ⟨e, hmalloc, hleads⟩ := fs.kmalloc_eq
    have hready := h.withEnv hleads
    cases hok : fs.env.heap 0 with
    | false => exact .inl ⟨e, by simp only [hmalloc, hok], hleads⟩
    | true =>
      simp only [hmalloc, hok]
      rcases addDirentBlocks_cases hready (fs.vol.inode d) name entryIno 0
          (blocksOf (fs.vol.inode d).size.toNat) with
        ⟨e', heq, hleads'⟩ | ⟨c, bn, k, fs', heq, _, hc, hin, hbn, hk, hbec⟩
      · simp only [heq, withEnv_withEnv]
        have hall := hleads.trans hleads'
        have hself : Sound (fs.vol.setInode d (fs.vol.inode d)) := by
          rw [setInode_self]
          exact hs
        have henv : Draft d (slotsFor (blocksOf (fs.vol.inode d).size.toNat)) (fs.vol.inode d)
            (fs.vol.inode d) fs (fs.withEnv e') := .withEnv h hself hall
        rcases addDirentGrow_cases (h.withEnv hall) hd hs rfl name entryIno with
          ⟨r', fs', hgrow, hdraft⟩ | ⟨bn, r', fs₁, fs', hgrow, hdraft, h0, hblock, hbec⟩
        · exact .inr (.inl ⟨r', fs', hgrow, hd, henv.trans hdraft⟩)
        · exact .inr (.inr (.inr ⟨bn, r', fs₁, fs', hgrow, hd, henv.trans hdraft, h0,
            hblock, hbec⟩))
      · simp only [heq]
        exact .inr (.inr (.inl ⟨c, bn, k, fs', rfl, hd, by omega, hin, hbn, hk,
          (Becomes.withEnv h hleads).trans hbec⟩))
  · rw [readInode_none hd]
    exact .inl ⟨fs.env, rfl, .refl _⟩

/-! ## Removing an entry -/

/-- The block loop of `remove_dirent` empties the entry it finds, or changes
nothing; when no `kmalloc` fails it then has looked at every block. -/
theorem removeDirentBlocks_cases (r : Inode) (name : CStr) (b n : Nat) :
    fs.RemovesIn r name b n (fs.env = Env.allOk → fs.vol.lookupBlocks r name b n = none)
      (removeDirentBlocks r name b n fs) := by
  induction n generalizing b fs with
  | zero => exact .inl ⟨fs.env, rfl, Env.Leads.refl _, fun _ => rfl⟩
  | succ n ih =>
    obtain ⟨res, e, hfetch, hleads, hres, hok⟩ := fetchBlock_eq h r b
    have hokFetch : fs.env = Env.allOk → fs.vol.fetch r b = res :=
      fun henv => (hok (by rw [henv]; rfl)).symm
    have hrest : fs.RemovesIn r name b (n + 1)
        (fs.env = Env.allOk → fs.vol.lookupBlocks r name (b + 1) n = none)
        (removeDirentBlocks r name (b + 1) n (fs.withEnv e)) := by
      rcases ih (h.withEnv hleads) (b + 1) with
        ⟨e', heq, hleads', hmiss⟩ | ⟨c, bn, k, fs', heq, hlo, hhi, hin, hbn, hk, hbec⟩
      · refine .inl ⟨e', heq, hleads.trans hleads', fun henv => hmiss ?_⟩
        rw [withEnv_of_allOk henv hleads]
        exact henv
      · exact .inr ⟨c, bn, k, fs', heq, by omega, by omega, hin, hbn, hk,
          (Becomes.withEnv h hleads).trans hbec⟩
    simp only [removeDirentBlocks, hfetch]
    cases res with
    | none =>
      rcases hrest with ⟨e', heq, hleads', hmiss⟩ | hhit
      · refine .inl ⟨e', heq, hleads', fun henv => ?_⟩
        simp only [Vol.lookupBlocks, hokFetch henv, hmiss henv]
      · exact .inr hhit
    | some found =>
      obtain ⟨bn, blk⟩ := found
      obtain ⟨hin, hbn, rfl⟩ := fetch_some (hres.resolve_left (by simp)).symm
      cases hentry : findEntry (fs.vol.block bn) name 0 128 with
      | none =>
        rcases hrest with ⟨e', heq, hleads', hmiss⟩ | hhit
        · refine .inl ⟨e', by simpa only [hentry] using heq, hleads', fun henv => ?_⟩
          simp only [Vol.lookupBlocks, hokFetch henv, hentry, hmiss henv]
        · exact .inr (by simpa only [hentry] using hhit)
      | some k =>
        right
        have hwrite := writeDataBlock_becomes (h.withEnv hleads)
          (b := bn) hin (clearDirent (fs.vol.block bn) k)
        exact ⟨b, bn, k, _, by simp only [hentry], by omega, by omega, hin, hbn, hentry,
          (Becomes.withEnv h hleads).trans hwrite⟩

/-- **What `remove_dirent` can do**: nothing, or empty the entry it finds. -/
theorem removeDirent_cases (d : Nat) (name : CStr) :
    (∃ e, fs.removeDirent d name = (false, fs.withEnv e) ∧ fs.env.Leads e ∧
      (fs.env = Env.allOk → fs.vol.lookupIn d name = none)) ∨
    (∃ c bn k fs', fs.removeDirent d name = (true, fs') ∧ fs.vol.IsIno d ∧
      c < blocksOf (fs.vol.inode d).size.toNat ∧ fs.vol.InData bn ∧
      bn = blockOf fs.vol.block (fs.vol.inode d) c ∧
      findEntry (fs.vol.block bn) name 0 128 = some k ∧
      Becomes fs fs' fs.sb (fs.vol.setBlock bn
        (window (clearDirent (fs.vol.block bn) k) 0 8192))) := by
  unfold removeDirent
  by_cases hd : fs.vol.IsIno d
  · rw [readInode_some hd]
    obtain ⟨e, hmalloc, hleads⟩ := fs.kmalloc_eq
    have hready := h.withEnv hleads
    cases hok : fs.env.heap 0 with
    | false =>
      refine .inl ⟨e, by simp only [hmalloc, hok], hleads, fun henv => ?_⟩
      rw [henv] at hok
      exact absurd hok (by simp [Env.allOk])
    | true =>
      simp only [hmalloc, hok]
      rcases removeDirentBlocks_cases hready (fs.vol.inode d) name 0
          (blocksOf (fs.vol.inode d).size.toNat) with
        ⟨e', heq, hleads', hmiss⟩ | ⟨c, bn, k, fs', heq, _, hc, hin, hbn, hk, hbec⟩
      · refine .inl ⟨e', heq, hleads.trans hleads', fun henv => ?_⟩
        rw [withEnv_of_allOk henv hleads] at hmiss
        unfold lookupIn
        split
        · exact hmiss henv
        · rfl
      · exact .inr ⟨c, bn, k, fs', heq, hd, by omega, hin, hbn, hk,
          (Becomes.withEnv h hleads).trans hbec⟩
  · rw [readInode_none hd]
    exact .inl ⟨fs.env, rfl, .refl _, fun _ => by simp [lookupIn, hd]⟩

/-! ## Creating -/

/-- **What `lufirafs_create` can do**: nothing, or go on with a slot that was free. -/
theorem create_cases (parentIno : Nat) (name : CStr) (mode uid gid perm : UInt32) :
    (∃ res e, fs.create parentIno name mode uid gid perm = (res, fs.withEnv e) ∧ fs.env.Leads e) ∨
    ∃ ino fs₁, fs.create parentIno name mode uid gid perm =
        fs₁.createInode parentIno name mode uid gid perm ino ∧
      fs.vol.IsIno ino ∧ (fs.vol.inode ino).mode = modeFree ∧
      Becomes fs fs₁ fs.sb.takeInode fs.vol ∧
      (fs.env = Env.allOk → fs.vol.lookupIn parentIno name = none) := by
  unfold create
  by_cases hname : name = []
  · exact .inl ⟨_, fs.env, if_pos hname, .refl _⟩
  obtain ⟨res, e, hlook, hleads, hres⟩ := lookupInDir_eq h parentIno name
  simp only [hname, if_false, hlook]
  cases res with
  | some _ => exact .inl ⟨_, e, rfl, hleads⟩
  | none =>
    rcases allocInode_cases (h.withEnv hleads) with
      ⟨halloc, -⟩ | ⟨ino, fs₁, halloc, hi, hfree, hbec⟩
    · simp only [halloc, if_true]
      exact .inl ⟨_, e, rfl, hleads⟩
    have hino : ino ≠ 0 := fun h0 => by
      have hpos := hi.1
      omega
    simp only [halloc, hino, if_false]
    exact .inr ⟨ino, fs₁, rfl, hi, hfree, (Becomes.withEnv h hleads).trans hbec,
      fun henv => (hres henv).symm⟩

end

end

end Mount

end LufiraFs
