import LufiraOS.Driver.Entries

/-!
# Every operation keeps block ownership

`Step S fs fs'` is what each operation of the driver guarantees, however its
`kmalloc` calls turn out: ownership holds afterwards, only the files in `S` have
been touched, and the free-block counter has moved with the bitmap.  `Edit` is
the same for the inner functions that work on a copy of an inode record.
-/

namespace LufiraFs

open ByteStore

namespace Mount

/-- A call that touched the files in `S` and kept ownership. -/
structure Step (S : Set Nat) (fs fs' : Mount) : Prop where
  ready : fs'.Ready
  used : fs.env.Leads fs'.env
  sound : Sound fs'.vol
  evolves : Evolves S fs.vol fs'.vol
  accounts : ∀ {k}, Balanced k fs.sb fs.vol → Balanced k fs'.sb fs'.vol

/-- A call that worked on the copy `r` of the record of `ino` and left the table
as it was; ownership holds with the new copy `r'` in the table. -/
structure Edit (ino : Nat) (r r' : Inode) (fs fs' : Mount) : Prop where
  ready : fs'.Ready
  used : fs.env.Leads fs'.env
  table : fs'.vol.inode = fs.vol.inode
  sound : Sound (fs'.vol.setInode ino r')
  evolves : Evolves {ino} fs.vol fs'.vol
  accounts : ∀ {k}, Balanced k fs.sb fs.vol → Balanced k fs'.sb fs'.vol

variable {fs fs' fs'' : Mount} {S S' : Set Nat} {ino : Nat} {r r' r'' : Inode}

namespace Step

theorem refl (h : fs.Ready) (hs : Sound fs.vol) (S : Set Nat) : Step S fs fs :=
  ⟨h, .refl _, hs, .refl _ _, id⟩

theorem withEnv (h : fs.Ready) (hs : Sound fs.vol) {e : Env} (he : fs.env.Leads e)
    (S : Set Nat) : Step S fs (fs.withEnv e) :=
  ⟨h.withEnv he, he, hs, .refl _ _, id⟩

theorem trans (h : Step S fs fs') (h' : Step S fs' fs'') : Step S fs fs'' :=
  ⟨h'.ready, h.used.trans h'.used, h'.sound, h.evolves.trans h'.evolves,
    fun hk => h'.accounts (h.accounts hk)⟩

theorem mono (h : Step S fs fs') (hS : S ⊆ S') : Step S' fs fs' :=
  { h with evolves := h.evolves.mono hS }

theorem isIno (h : Step S fs fs') {i : Nat} : fs'.vol.IsIno i ↔ fs.vol.IsIno i :=
  h.evolves.geo.isIno

/-- A write that leaves the marks and the free-block counter alone. -/
theorem ofBecomes {sb : Superblock} {V : Vol} (h : Becomes fs fs' sb V) (hs : Sound V)
    (hev : Evolves S fs.vol V) (hfree : sb.freeBlocks = fs.sb.freeBlocks)
    (hbit : V.bit = fs.vol.bit) : Step S fs fs' where
  ready := h.ready
  used := h.used
  sound := h.vol ▸ hs
  evolves := h.vol ▸ hev
  accounts := fun hk => by
    have hmoved := hk.congr hev.geo hbit
    rw [h.vol, h.sb]
    exact ⟨by rw [hfree]; exact hmoved.count, hmoved.small⟩

end Step

theorem Draft.toEdit {T : Set Slot} (h : Draft ino T r r' fs fs') : Edit ino r r' fs fs' :=
  ⟨h.ready, h.used, h.table, h.gains.sound, .of_setInode h.gains.evolves, h.accounts⟩

/-- A draft may be forgotten: the record in the table holds no block number that
the draft does not hold as well. -/
theorem Draft.abandon {T : Set Slot} (h : Draft ino T r r' fs fs') (hr : fs.vol.inode ino = r) :
    Step {ino} fs fs' := by
  have hback : fs'.vol = (fs'.vol.setInode ino r').setInode ino r := by
    rw [Vol.setInode_setInode, ← hr, ← h.table, Vol.setInode_self]
  have hkeep : ∀ s, ptrOf fs.vol.block r s ≠ 0 →
      ptrOf fs'.vol.block r' s = ptrOf fs.vol.block r s := by
    intro s hne
    have hk := h.gains.keep (s := s)
    rw [Vol.setInode_ptr_same, Vol.setInode_ptr_same] at hk
    exact hk hne
  have hsound : Sound fs'.vol := by
    rw [hback]
    apply h.gains.sound.setInode
    intro s
    rw [Vol.setInode_ptr_same, Vol.setInode_block]
    by_cases h0 : ptrOf fs'.vol.block r s = 0
    · exact .inr h0
    left
    cases s with
    | direct k => exact (hkeep (.direct k) h0).symm
    | indirect => exact (hkeep .indirect h0).symm
    | entry e =>
      have hind : r.indirect ≠ 0 := by
        intro hz
        exact h0 (by simp [ptrOf, hz])
      have hsame : r'.indirect = r.indirect := by
        apply UInt32.toNat_inj.1
        exact hkeep .indirect fun hz => hind (UInt32.toNat_inj.1 hz)
      simp [ptrOf, hsame]
  exact ⟨h.ready, h.used, hsound, h.toEdit.evolves, h.accounts⟩

namespace Edit

theorem trans (h : Edit ino r r' fs fs') (h' : Edit ino r' r'' fs' fs'') :
    Edit ino r r'' fs fs'' :=
  ⟨h'.ready, h.used.trans h'.used, h'.table.trans h.table, h'.sound,
    h.evolves.trans h'.evolves, fun hk => h'.accounts (h.accounts hk)⟩

theorem withEnv (h : fs.Ready) (hs : Sound (fs.vol.setInode ino r)) {e : Env}
    (he : fs.env.Leads e) : Edit ino r r fs (fs.withEnv e) :=
  ⟨h.withEnv he, he, rfl, hs, .refl _ _, id⟩

/-- Writing the copy back, possibly with other attributes. -/
theorem commit (h : Edit ino r r' fs fs') (hi : fs.vol.IsIno ino) (hp : SamePtrs r' r'') :
    Step {ino} fs (fs'.writeInode ino r'') := by
  have hi' : fs'.vol.IsIno ino := h.evolves.geo.isIno.2 hi
  have hwrite := writeInode_becomes h.ready hi' r''
  have hsound : Sound (fs'.vol.setInode ino r'') := by
    rw [← Vol.setInode_setInode fs'.vol ino r' r'']
    apply h.sound.setInode
    intro s
    left
    rw [Vol.setInode_ptr_same]
    exact hp.ptrOf_eq _ _
  have hstep : Step {ino} fs' (fs'.writeInode ino r'') :=
    .ofBecomes hwrite hsound (.setInode _ _ _) rfl rfl
  exact ⟨hstep.ready, h.used.trans hstep.used, hstep.sound, h.evolves.trans hstep.evolves,
    fun hk => hstep.accounts (h.accounts hk)⟩

/-- Rewriting a data block of the file. -/
theorem writeData (h : fs.Ready) (hi : fs.vol.IsIno ino) (hs : Sound (fs.vol.setInode ino r))
    {b : Nat} (hne : blockOf fs.vol.block r b ≠ 0) (buf : Bytes) :
    Edit ino r r fs (fs.writeDataBlock (blockOf fs.vol.block r b) buf).2 := by
  have hwrite := writeDataBlock_becomes h (hs.blockOf_inData hi hne) buf
  obtain ⟨hsound, hev⟩ := hs.rewrite hi hne (.refl r) (window buf 0 8192)
  refine ⟨hwrite.ready, hwrite.used, ?_, ?_, ?_, ?_⟩
  · rw [hwrite.vol]
    rfl
  · rw [hwrite.vol]
    exact hsound
  · rw [hwrite.vol]
    exact hev
  intro k hk
  rw [hwrite.vol, hwrite.sb]
  exact hk.congr (Vol.setBlock_geo _ _ _) rfl

end Edit

/-! ## Writing -/

/-- The loop of `lufirafs_write` edits its copy. -/
theorem writeLoop_edit (src : Bytes) (fuel pos remaining done : Nat) (h : fs.Ready)
    (hi : fs.vol.IsIno ino) (hs : Sound (fs.vol.setInode ino r)) :
    ∃ rem pos' r' fs', writeLoop src fuel pos remaining done r fs = (rem, pos', r', fs') ∧
      Edit ino r r' fs fs' := by
  have hstay : Edit ino r r fs fs := .withEnv h hs (.refl _)
  induction fuel generalizing pos remaining done r fs with
  | zero => exact ⟨remaining, pos, r, fs, rfl, hstay⟩
  | succ fuel ih =>
    by_cases hrem : remaining = 0
    · exact ⟨0, pos, r, fs, by simp [writeLoop, hrem], hstay⟩
    obtain ⟨bn, r₁, fs₁, hget, hdraft, hfound⟩ := inodeGetBlock_draft h hi hs (pos / 8192)
    by_cases h0 : bn = 0
    · exact ⟨remaining, pos, r₁, fs₁, by simp [writeLoop, hrem, hget, h0], hdraft.toEdit⟩
    have hblock := hfound h0
    have hi₁ : fs₁.vol.IsIno ino := hdraft.isIno.2 hi
    have hs₁ := hdraft.gains.sound
    have hin : fs₁.vol.InData bn := by
      rw [← hblock] at h0 ⊢
      exact hs₁.blockOf_inData hi₁ h0
    -- the block is read first unless it is overwritten as a whole
    obtain ⟨old, e, hread, hleads⟩ : ∃ old e,
        (if pos % 8192 ≠ 0 ∨ min (8192 - pos % 8192) remaining ≠ 8192
          then fs₁.readDataBlock bn else (none, fs₁)) = (old, fs₁.withEnv e) ∧
        fs₁.env.Leads e := by
      split
      · obtain ⟨e, hread, hleads⟩ := readDataBlock_eq hdraft.ready hin
        exact ⟨_, e, hread, hleads⟩
      · exact ⟨none, fs₁.env, rfl, .refl _⟩
    have henv := Edit.withEnv hdraft.ready hs₁ hleads
    have hput := Edit.writeData (b := pos / 8192) henv.ready hi₁ hs₁
      (by rw [vol_withEnv, hblock]; exact h0)
      (copyIn (old.getD zeros) (pos % 8192) (min (8192 - pos % 8192) remaining)
        fun i => src (done + i))
    rw [vol_withEnv, hblock] at hput
    have hall := (hdraft.toEdit.trans henv).trans hput
    obtain ⟨rem, pos', r', fs', hloop, hrest⟩ := ih (pos + min (8192 - pos % 8192) remaining)
      (remaining - min (8192 - pos % 8192) remaining)
      (done + min (8192 - pos % 8192) remaining) hall.ready
      (hall.evolves.geo.isIno.2 hi) hall.sound
      (.withEnv hall.ready hall.sound (.refl _))
    refine ⟨rem, pos', r', fs', ?_, hall.trans hrest⟩
    simp only [writeLoop, hrem, if_false, hget, h0, hread]
    exact hloop

/-- What `lufirafs_write` can do to a file: nothing, or write the blocks and then the record, of
which it changes the size. -/
theorem write_cases (h : fs.Ready) (hs : Sound fs.vol) (hi : fs.vol.IsIno ino) (offset : Nat)
    (src : Bytes) (count : Nat) :
    Uses fs (fs.write ino offset src count).2 ∨
    ∃ fs₀ r fs' size, (fs.write ino offset src count).2 = fs'.writeInode ino (r.setSize size) ∧
      r = (writeLoop src count offset count 0 (fs.vol.inode ino) fs₀).2.2.1 ∧
      Edit ino (fs.vol.inode ino) r fs fs' := by
  unfold write
  rw [readInode_some hi]
  by_cases hbig : maxFileSize < offset + count
  · simp only [hbig, if_true]
    exact .inl (.refl fs)
  obtain ⟨e, hmalloc, hleads⟩ := fs.kmalloc_eq
  have hself : Sound (fs.vol.setInode ino (fs.vol.inode ino)) := by
    rw [Vol.setInode_self]
    exact hs
  cases hok : fs.env.heap 0 with
  | false =>
    simp only [hbig, if_false, hmalloc, hok]
    exact .inl ⟨e, rfl, hleads⟩
  | true =>
    obtain ⟨rem, pos, r, fs', hloop, hedit⟩ := writeLoop_edit src count offset
      count 0 (h.withEnv hleads) hi hself
    refine .inr ⟨fs.withEnv e, r, fs', ?_⟩
    simp only [hbig, if_false, hmalloc, hok, hloop]
    refine ⟨if rem = 0 then if r.size.toNat < pos then UInt32.ofNat pos else r.size
      else if r.size.toNat < offset + (count - rem) then UInt32.ofNat (offset + (count - rem))
      else r.size, ?_, trivial, (Edit.withEnv h hself hleads).trans hedit⟩
    split
    · split <;> rfl
    · dsimp only
      split <;> rfl

/-- **`lufirafs_write`** touches the file it writes. -/
theorem write_step (h : fs.Ready) (hs : Sound fs.vol) (ino offset : Nat) (src : Bytes)
    (count : Nat) : Step {ino} fs (fs.write ino offset src count).2 := by
  by_cases hi : fs.vol.IsIno ino
  · rcases write_cases h hs hi offset src count with
      ⟨e, heq, hleads⟩ | ⟨fs₀, r, fs', size, heq, -, hedit⟩
    · rw [heq]
      exact .withEnv h hs hleads _
    · rw [heq]
      exact hedit.commit hi (.setSize r size)
  · unfold write
    rw [readInode_none hi]
    exact .refl h hs _

/-! ## Directory entries -/

/-- A free inode is counted as used. -/
theorem Step.takeInode (hs : Sound fs.vol) (S : Set Nat)
    (hbec : Becomes fs fs' fs.sb.takeInode fs.vol) : Step S fs fs' :=
  .ofBecomes hbec hs (.refl _ _) (by
    unfold Superblock.takeInode
    split <;> rfl) rfl

/-- A block of a file may be rewritten in place. -/
theorem Step.writeData {c bn : Nat} {buf : Bytes} (hs : Sound fs.vol) (hi : fs.vol.IsIno ino)
    (hin : bn ≠ 0) (hbn : bn = blockOf fs.vol.block (fs.vol.inode ino) c)
    (hbec : Becomes fs fs' fs.sb (fs.vol.setBlock bn (window buf 0 8192))) :
    Step {ino} fs fs' := by
  subst hbn
  obtain ⟨s, _, hslot, hptr⟩ := exists_slot_of_blockOf hin
  obtain ⟨hsound, hev, _⟩ := hs.writeData (i := ino) (s := s) (window buf 0 8192) hi hslot
    (by rw [Vol.ptr, hptr]; exact hin)
  rw [Vol.ptr, hptr] at hsound hev
  exact .ofBecomes hbec hsound hev rfl rfl

section

variable (h : fs.Ready) (hs : Sound fs.vol)

include h hs

/-- **`add_dirent`** touches the directory it adds to. -/
theorem addDirent_step (d : Nat) (name : CStr) (entryIno : Nat) :
    ∃ ok fs', fs.addDirent d name entryIno = (ok, fs') ∧ Step {d} fs fs' := by
  rcases addDirent_cases h hs d name entryIno with
    ⟨e, heq, hleads⟩ | ⟨r', fs', heq, _, hdraft⟩ | ⟨c, bn, k, fs', heq, hd, _, hin, hbn, _, hbec⟩ |
      ⟨bn, r', fs₁, fs', heq, hd, hdraft, h0, hblock, hbec⟩
  · exact ⟨false, _, heq, .withEnv h hs hleads _⟩
  · exact ⟨false, fs', heq, hdraft.abandon rfl⟩
  · exact ⟨true, fs', heq, .writeData hs hd (h.data_pos hin) hbn hbec⟩
  · obtain ⟨hsound, hev⟩ := hdraft.gains.sound.rewrite (hdraft.isIno.2 hd)
      (hblock.symm ▸ h0) (.setSize r' _)
      (window (putDirent zeros 0 (UInt32.ofNat entryIno) name) 0 8192)
    rw [hblock] at hsound hev
    have hlast : Step {d} fs₁ fs' := .ofBecomes hbec hsound
      (hev.trans (.setInode _ _ _)) rfl rfl
    exact ⟨true, fs', heq, hlast.ready, hdraft.used.trans hlast.used, hlast.sound,
      hdraft.toEdit.evolves.trans hlast.evolves,
      fun hk => hlast.accounts (hdraft.accounts hk)⟩

/-- **`remove_dirent`** touches the directory it removes from. -/
theorem removeDirent_step (d : Nat) (name : CStr) : Step {d} fs (fs.removeDirent d name).2 := by
  rcases removeDirent_cases h d name with
    ⟨e, heq, hleads, _⟩ | ⟨c, bn, k, fs', heq, hd, _, hin, hbn, _, hbec⟩
  · rw [heq]
    exact .withEnv h hs hleads _
  · rw [heq]
    exact .writeData hs hd (h.data_pos hin) hbn hbec

/-! ## Creating -/

/-- Giving an inode slot back touches that slot. -/
theorem freeInodeSlot_step (hi : fs.vol.IsIno ino) :
    Step {ino} fs (fs.freeInodeSlot ino) :=
  .ofBecomes (freeInodeSlot_becomes h hi)
    (hs.setInode fun _ => .inr (ptrOf_zero _ _)) (.setInode _ _ _) rfl rfl

/-- The `"."` and `".."` entries go into the new directory. -/
theorem addDots_step (ino parentIno : Nat) (mode : UInt32) :
    ∃ ok fs', fs.addDots ino parentIno mode = (ok, fs') ∧ Step {ino} fs fs' := by
  unfold addDots
  split
  · obtain ⟨ok, fs₁, hadd, hdot⟩ := addDirent_step h hs ino dot ino
    cases ok with
    | false => exact ⟨false, fs₁, by simp only [hadd], hdot⟩
    | true =>
      obtain ⟨ok₂, fs₂, hadd', hdotDot⟩ := addDirent_step hdot.ready hdot.sound ino dotDot parentIno
      exact ⟨ok₂, fs₂, by simp only [hadd, hadd'], hdot.trans hdotDot⟩
  · exact ⟨true, fs, rfl, .refl h hs _⟩

theorem createInode_step (hi : fs.vol.IsIno ino)
    (parentIno : Nat) (name : CStr) (mode uid gid perm : UInt32) :
    Step {parentIno, ino} fs (fs.createInode parentIno name mode uid gid perm ino).2 := by
  have hsub : ({ino} : Set Nat) ⊆ {parentIno, ino} := by simp
  have hsub' : ({parentIno} : Set Nat) ⊆ {parentIno, ino} := by simp
  have hwrite : Step {ino} fs (fs.writeInode ino (newInode mode uid gid perm)) :=
    .ofBecomes (writeInode_becomes h hi _)
      (hs.setInode fun _ => .inr (ptrOf_of_none rfl rfl _ _)) (.setInode _ _ _) rfl rfl
  obtain ⟨ok, fs₁, hdots, hstep⟩ := addDots_step hwrite.ready hwrite.sound ino parentIno mode
  have hone := (hwrite.trans hstep).mono hsub
  have hgiveBack : ∀ {fs₂}, Step {parentIno, ino} fs fs₂ →
      Step {parentIno, ino} fs (fs₂.freeInodeSlot ino) := fun h₂ =>
    h₂.trans ((freeInodeSlot_step h₂.ready h₂.sound (h₂.isIno.2 hi)).mono hsub)
  unfold createInode
  simp only [hdots]
  cases ok with
  | false => exact hgiveBack hone
  | true =>
    obtain ⟨ok₂, fs₂, hadd, hlink⟩ := addDirent_step hone.ready hone.sound parentIno name ino
    have hall := hone.trans (hlink.mono hsub')
    simp only [hadd]
    cases ok₂ with
    | false => exact hgiveBack hall
    | true => exact hall

/-- **`lufirafs_create`** touches the parent and one slot. -/
theorem create_step (parentIno : Nat) (name : CStr) (mode uid gid perm : UInt32) :
    ∃ ino, Step {parentIno, ino} fs (fs.create parentIno name mode uid gid perm).2 := by
  rcases create_cases h parentIno name mode uid gid perm with
    ⟨res, e, heq, hleads⟩ | ⟨ino, fs₁, heq, hi, -, hbec, -⟩
  · rw [heq]
    exact ⟨parentIno, .withEnv h hs hleads _⟩
  have hcount := Step.takeInode hs {parentIno, ino} hbec
  rw [heq]
  exact ⟨ino, hcount.trans (createInode_step hcount.ready hcount.sound (hcount.isIno.2 hi)
    parentIno name mode uid gid perm)⟩

end

end Mount

end LufiraFs
