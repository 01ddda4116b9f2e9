import LufiraOS.Driver.View

/-!
# Finding and adding the blocks of a file

`inode_get_block` works on a copy of the inode record that its caller writes
back later, or never.  Its effect is therefore stated for the volume in which
the copy already stands in the table: a `Draft` says how that volume grows while
the table on the mount stays as it is.
-/

namespace LufiraFs

open ByteStore

namespace Mount

section

variable {fs : Mount} {r : Inode} {b ino : Nat}

/-! ## Looking a block up -/

theorem indirectGetBlock_uses (fs : Mount) (r : Inode) (idx : Nat) :
    Uses fs (fs.indirectGetBlock r idx false).2.2 := by
  unfold indirectGetBlock
  split
  · next heq => exact fs.kmalloc_uses.ofEq heq
  · next fs₁ heq =>
    have hread := (fs.kmalloc_uses.ofEq heq).trans (fs₁.readDataBlock_uses r.indirect.toNat)
    split
    · next heq' => exact hread.ofEq heq'
    · next heq' =>
      simp only [Bool.false_eq_true, and_false, if_false]
      exact hread.ofEq heq'

theorem inodeGetBlock_uses (fs : Mount) (r : Inode) (b : Nat) :
    Uses fs (fs.inodeGetBlock r b false).2.2 := by
  unfold inodeGetBlock
  split
  · rw [if_neg (by simp)]
    exact .refl fs
  split
  · exact .refl fs
  split
  · exact .refl fs
  · exact fs.indirectGetBlock_uses r _

theorem fetchBlock_uses (fs : Mount) (r : Inode) (b : Nat) : Uses fs (fs.fetchBlock r b).2 := by
  have hget := fs.inodeGetBlock_uses r b
  unfold fetchBlock
  dsimp only
  split
  · exact hget
  have hread := hget.trans (readDataBlock_uses _ (fs.inodeGetBlock r b false).1)
  split
  · next heq => exact hread.ofEq heq
  · next heq => exact hread.ofEq heq

theorem indirectGetBlock_lookup (h : fs.Ready) (hb : ¬ b < 12)
    (hlt : b - 12 < 2048) (hind : r.indirect ≠ 0) :
    ∃ bn e, fs.indirectGetBlock r (b - 12) false = (bn, r, fs.withEnv e) ∧ fs.env.Leads e ∧
      (bn = 0 ∨ bn = blockOf fs.vol.block r b) ∧
      (fs.env.heap 0 = true → bn = blockOf fs.vol.block r b) := by
  have hblock : blockOf fs.vol.block r b =
      (word32 (fs.vol.block r.indirect.toNat) (4 * (b - 12))).toNat := by
    rw [blockOf_eq (slotOf_entry hb hlt)]
    simp [ptrOf, hind]
  obtain ⟨e, hmalloc, hleads⟩ := fs.kmalloc_eq
  unfold indirectGetBlock
  cases hok : fs.env.heap 0 with
  | false => exact ⟨0, e, by simp only [hmalloc, hok], hleads, .inl rfl, by simp⟩
  | true =>
    simp only [hmalloc, hok]
    by_cases hin : fs.vol.InData r.indirect.toNat
    · obtain ⟨e', hread, hleads'⟩ := readDataBlock_eq (h.withEnv hleads) (b := r.indirect.toNat) hin
      exact ⟨blockOf fs.vol.block r b, e', by simp [hread, hblock], hleads.trans hleads',
        Or.inr rfl, fun _ => rfl⟩
    have hread := readDataBlock_none (fs.withEnv e) (b := r.indirect.toNat) hin
    have hzero : blockOf fs.vol.block r b = 0 := by
      rw [hblock, vol_block_outside hin]
      simp
    exact ⟨0, e, by simp [hread], hleads, .inl rfl, fun _ => hzero.symm⟩

/-- **Looking a block up** does not change the mount.  It finds the block, or
nothing when there is no memory for the indirect block. -/
theorem inodeGetBlock_lookup (h : fs.Ready) (r : Inode) (b : Nat) :
    ∃ bn e, fs.inodeGetBlock r b false = (bn, r, fs.withEnv e) ∧ fs.env.Leads e ∧
      (bn = 0 ∨ bn = blockOf fs.vol.block r b) ∧
      (fs.env.heap 0 = true → bn = blockOf fs.vol.block r b) := by
  by_cases hb : b < 12
  · have hblock : blockOf fs.vol.block r b = (r.direct ⟨b, hb⟩).toNat := by
      rw [blockOf_eq (slotOf_direct hb)]
      rfl
    refine ⟨_, fs.env, ?_, .refl _, .inr rfl, fun _ => rfl⟩
    simp [inodeGetBlock, hb, hblock]
  by_cases hlt : b - 12 < 2048
  · by_cases hind : r.indirect = 0
    · have hblock : blockOf fs.vol.block r b = 0 := by
        rw [blockOf_eq (slotOf_entry hb hlt)]
        simp [ptrOf, hind]
      refine ⟨0, fs.env, ?_, .refl _, .inl rfl, fun _ => hblock.symm⟩
      simp [inodeGetBlock, hb, hind]
    have hcall : fs.inodeGetBlock r b false = fs.indirectGetBlock r (b - 12) false := by
      simp [inodeGetBlock, hb, hlt, hind]
    rw [hcall]
    exact indirectGetBlock_lookup h hb hlt hind
  have hblock : blockOf fs.vol.block r b = 0 := by
    simp [blockOf, slotOf_none hb hlt]
  refine ⟨0, fs.env, ?_, .refl _, .inl rfl, fun _ => hblock.symm⟩
  have hge : 2048 ≤ b - 12 := by omega
  simp [inodeGetBlock, hb, hge]

/-- **Fetching a block** does not change the mount.  It delivers the block, or
nothing when there is no memory for the indirect block. -/
theorem fetchBlock_eq (h : fs.Ready) (r : Inode) (b : Nat) :
    ∃ res e, fs.fetchBlock r b = (res, fs.withEnv e) ∧ fs.env.Leads e ∧
      (res = none ∨ res = fs.vol.fetch r b) ∧ (fs.env.heap 0 = true → res = fs.vol.fetch r b) := by
  obtain ⟨bn, e, hcall, hleads, hbn, hok⟩ := inodeGetBlock_lookup h r b
  unfold fetchBlock
  simp only [hcall]
  by_cases h0 : bn = 0
  · refine ⟨none, e, by simp [h0], hleads, .inl rfl, fun htrue => ?_⟩
    have hout : ¬ fs.vol.InData (blockOf fs.vol.block r b) := by
      rw [← hok htrue, h0]
      exact fun hin => h.data_pos hin rfl
    rw [Vol.fetch, if_neg hout]
  obtain rfl := hbn.resolve_left h0
  by_cases hin : fs.vol.InData (blockOf fs.vol.block r b)
  · obtain ⟨e', hread, hleads'⟩ := readDataBlock_eq (h.withEnv hleads) hin
    have hfetch : fs.vol.fetch r b = some (blockOf fs.vol.block r b,
        fs.vol.block (blockOf fs.vol.block r b)) := if_pos hin
    exact ⟨_, e', by simp [h0, hread], hleads.trans hleads', .inr hfetch.symm,
      fun _ => hfetch.symm⟩
  have hread := readDataBlock_none (fs.withEnv e) hin
  have hfetch : fs.vol.fetch r b = none := if_neg hin
  exact ⟨none, e, by simp [h0, hread], hleads, .inl rfl, fun _ => hfetch.symm⟩

/-! ## Adding a block -/

/-- The copy `r` of the record of `ino` has become `r'`, and the volume with the
copy in the table has gained blocks for `ino` in the slots `T`.  The table
itself is as it was. -/
structure Draft (ino : Nat) (T : Set Slot) (r r' : Inode) (fs fs' : Mount) : Prop where
  ready : fs'.Ready
  used : fs.env.Leads fs'.env
  table : fs'.vol.inode = fs.vol.inode
  gains : Gains ino T (fs.vol.setInode ino r) (fs'.vol.setInode ino r')
  accounts : ∀ {k}, Balanced k fs.sb fs.vol → Balanced k fs'.sb fs'.vol

namespace Draft

variable {fs' fs'' : Mount} {ino : Nat} {T T' : Set Slot} {r r' r'' : Inode}

theorem trans (h : Draft ino T r r' fs fs') (h' : Draft ino T r' r'' fs' fs'') :
    Draft ino T r r'' fs fs'' :=
  ⟨h'.ready, h.used.trans h'.used, h'.table.trans h.table, h.gains.trans h'.gains,
    fun hk => h'.accounts (h.accounts hk)⟩

theorem withEnv (h : fs.Ready) (hs : Sound (fs.vol.setInode ino r)) {e : Env}
    (he : fs.env.Leads e) : Draft ino T r r fs (fs.withEnv e) :=
  ⟨h.withEnv he, he, rfl, .refl hs ino T, id⟩

/-- Replacing the copy while the mount stays as it is. -/
theorem edit (h : fs.Ready) (hg : Gains ino T (fs.vol.setInode ino r) (fs.vol.setInode ino r')) :
    Draft ino T r r' fs fs :=
  ⟨h, .refl _, rfl, hg, id⟩

theorem isIno (h : Draft ino T r r' fs fs') {i : Nat} : fs'.vol.IsIno i ↔ fs.vol.IsIno i :=
  Vol.SameGeo.isIno (V := fs.vol)
    ⟨h.gains.evolves.geo.1, h.gains.evolves.geo.2, h.gains.evolves.geo.3, h.gains.evolves.geo.4⟩

end Draft

/-- Allocation as a draft: the new block belongs to nobody yet. -/
theorem allocBlock_draft (h : fs.Ready) (hi : fs.vol.IsIno ino)
    (hs : Sound (fs.vol.setInode ino r)) (T : Set Slot) :
    (∃ fs', fs.allocBlock = (0, fs') ∧ Draft ino T r r fs fs') ∨
    (∃ b fs', fs.allocBlock = (b, fs') ∧ b ≠ 0 ∧ b < 4294967296 ∧ Draft ino T r r fs fs' ∧
      Fresh (fs'.vol.setInode ino r) b ∧ fs'.vol.block b = zeros ∧
      ∀ c, c ≠ b → fs'.vol.block c = fs.vol.block c) := by
  rcases allocBlock_cases h with ⟨fs', heq, hbec⟩ | ⟨b, fs', heq, hin, hclear, hbec⟩
  · left
    refine ⟨fs', heq, hbec.ready, hbec.used, by rw [hbec.vol], ?_, ?_⟩
    · rw [hbec.vol]
      exact .refl hs ino T
    intro k hk
    rw [hbec.vol, hbec.sb]
    exact hk
  right
  have h0 := h.data_pos hin
  have hlt := h.data_lt hin
  have hvol : fs'.vol.setInode ino r =
      ((fs.vol.setInode ino r).setBit b true).setBlock b zeros := by
    rw [hbec.vol]
    rfl
  refine ⟨b, fs', heq, h0, by omega, ⟨hbec.ready, hbec.used, ?_, ?_, ?_⟩, ?_, ?_⟩
  · rw [hbec.vol]
    rfl
  · rw [hvol]
    exact .alloc hs hin h0 hclear ino hi T
  · intro k hk
    rw [hbec.vol, hbec.sb]
    exact (hk.take hin hclear).congr ⟨rfl, rfl, rfl, rfl⟩ rfl
  · rw [hvol]
    exact (hs.alloc _ hin h0 hclear).2.1
  rw [hbec.vol]
  refine ⟨Vol.setBlock_block_same _ _ _, fun c hc => ?_⟩
  exact Vol.setBlock_block_ne _ _ hc

/-- The indirect block of a sound copy is in the data area. -/
theorem indirect_inData (hi : fs.vol.IsIno ino)
    (hs : Sound (fs.vol.setInode ino r)) (hind : r.indirect ≠ 0) :
    fs.vol.InData r.indirect.toNat := by
  have hrange := hs.range (i := ino) (s := .indirect) hi
  rw [Vol.setInode_ptr_same] at hrange
  exact hrange fun h0 => hind (UInt32.toNat_inj.1 h0)

section

variable (h : fs.Ready) (hi : fs.vol.IsIno ino) (hs : Sound (fs.vol.setInode ino r))

include h hi hs

/-- Writing the number of a fresh block into an empty entry of the indirect
block. -/
theorem storeEntry_draft {nb : Nat} (hb : ¬ b < 12) (hlt : b - 12 < 2048)
    (hind : r.indirect ≠ 0) (hnb : nb < 4294967296)
    (hfresh : Fresh (fs.vol.setInode ino r) nb) (hzero : fs.vol.block nb = zeros)
    (hempty : word32 (fs.vol.block r.indirect.toNat) (4 * (b - 12)) = 0)
    {buf : Bytes} (hbuf : buf = putWord (fs.vol.block r.indirect.toNat) (4 * (b - 12))
      (UInt32.ofNat nb)) :
    Draft ino (slotsFor b) r r fs (fs.writeDataBlock r.indirect.toNat buf).2 ∧
      blockOf (fs.writeDataBlock r.indirect.toNat buf).2.vol.block r b = nb := by
  have hslot := slotOf_entry hb hlt
  have hrec : (fs.vol.setInode ino r).inode ino = r := by simp
  have hwrite := writeDataBlock_becomes h (indirect_inData hi hs hind) buf
  have hgain := Gains.attachEntry (i := ino) (e := ⟨b - 12, hlt⟩) hs hfresh hnb hzero hi
    (by rwa [hrec]) (by rw [hrec]; exact hempty)
  rw [hrec] at hgain
  subst hbuf
  refine ⟨⟨hwrite.ready, hwrite.used, ?_, ?_, ?_⟩, ?_⟩
  · rw [hwrite.vol]
    rfl
  · rw [hwrite.vol]
    exact hgain.mono fun s hs => .inr (by rw [hs]; exact hslot)
  · intro k hk
    rw [hwrite.vol, hwrite.sb]
    exact hk.congr (Vol.setBlock_geo _ _ _) rfl
  have hput := Sound.entry_putWord (fs.vol.block r.indirect.toNat) ⟨b - 12, hlt⟩
    ⟨b - 12, hlt⟩ (UInt32.ofNat nb)
  rw [hwrite.vol, blockOf_eq hslot]
  simp only [ptrOf, hind, if_false, Vol.setBlock_block_same, hput]
  exact toNat_ofNat_lt hnb

theorem indirectGetBlock_draft (hb : ¬ b < 12) (hlt : b - 12 < 2048) (hind : r.indirect ≠ 0) :
    ∃ bn fs', fs.indirectGetBlock r (b - 12) true = (bn, r, fs') ∧
      Draft ino (slotsFor b) r r fs fs' ∧ (bn ≠ 0 → blockOf fs'.vol.block r b = bn) := by
  obtain ⟨e, hmalloc, hleads⟩ := fs.kmalloc_eq
  unfold indirectGetBlock
  cases hok : fs.env.heap 0 with
  | false =>
    exact ⟨0, _, by simp only [hmalloc, hok], .withEnv h hs hleads, fun h0 => absurd rfl h0⟩
  | true =>
    simp only [hmalloc, hok]
    obtain ⟨e', hread, hleads'⟩ := readDataBlock_eq (h.withEnv hleads)
      (b := r.indirect.toNat) (indirect_inData hi hs hind)
    simp only [hread, vol_withEnv, withEnv_withEnv]
    replace hleads := hleads.trans hleads'
    have hdraft : Draft ino (slotsFor b) r r fs (fs.withEnv e') := .withEnv h hs hleads
    by_cases hz : (word32 (fs.vol.block r.indirect.toNat) (4 * (b - 12))).toNat = 0
    · simp only [hz, true_and, if_true]
      rcases allocBlock_draft (h.withEnv hleads) hi hs (slotsFor b) with
        ⟨fs₁, halloc, hnone⟩ | ⟨nb, fs₁, halloc, hnb, hnblt, hsome, hfresh, hzero, hsame⟩
      · exact ⟨0, fs₁, by simp [halloc], hdraft.trans hnone, fun h0 => absurd rfl h0⟩
      · have hi₁ : fs₁.vol.IsIno ino := hsome.isIno.2 hi
        have hblk : fs₁.vol.block r.indirect.toNat = fs.vol.block r.indirect.toNat := by
          apply hsame
          have hfree := hfresh.free (i := ino) (s := .indirect) hi₁
          rwa [Vol.setInode_ptr_same] at hfree
        obtain ⟨hstore, hfound⟩ := storeEntry_draft hsome.ready hi₁ hsome.gains.sound hb hlt hind
          hnblt hfresh hzero (by rw [hblk]; exact UInt32.toNat_inj.1 hz) rfl
        rw [hblk] at hstore hfound
        exact ⟨nb, _, by simp [halloc, hnb], (hdraft.trans hsome).trans hstore, fun _ => hfound⟩
    simp only [hz, false_and, if_false]
    refine ⟨_, _, rfl, hdraft, fun _ => ?_⟩
    rw [blockOf_eq (slotOf_entry hb hlt)]
    simp [ptrOf, hind]

/-- **Adding a block.**  With `create`, `inode_get_block` finds the `b`-th block
of the file or fills its slot, and at most the indirect slot besides; when it
fails, an indirect block may have been added all the same. -/
theorem inodeGetBlock_draft (b : Nat) : ∃ bn r' fs', fs.inodeGetBlock r b true = (bn, r', fs') ∧
      Draft ino (slotsFor b) r r' fs fs' ∧ (bn ≠ 0 → blockOf fs'.vol.block r' b = bn) := by
  have hstay : ∀ T, Draft ino T r r fs fs := fun T =>
    Draft.edit h (.refl hs ino T)
  by_cases hb : b < 12
  · have hslot := slotOf_direct hb
    by_cases hz : r.direct ⟨b, hb⟩ = 0
    · rcases allocBlock_draft h hi hs (slotsFor b) with
        ⟨fs₁, halloc, hnone⟩ | ⟨nb, fs₁, halloc, hnb, hnblt, hsome, hfresh, hzero, _⟩
      · exact ⟨0, r, fs₁, by simp [inodeGetBlock, hb, hz, halloc], hnone, fun h0 => absurd rfl h0⟩
      · have hrec₁ : (fs₁.vol.setInode ino r).inode ino = r := by simp
        have hgain := Gains.attachDirect (i := ino) (k := ⟨b, hb⟩) hsome.gains.sound hfresh hnblt
          hzero (by rw [hrec₁]; exact hz)
        rw [hrec₁, Vol.setInode_setInode] at hgain
        refine ⟨nb, _, fs₁, by simp [inodeGetBlock, hb, hz, halloc, hnb], hsome.trans
          (.edit hsome.ready (hgain.mono fun s hs => .inr (by rw [hs]; exact hslot))),
          fun _ => ?_⟩
        rw [blockOf_eq hslot]
        simp [ptrOf, Inode.setDirect, toNat_ofNat_lt hnblt]
    · refine ⟨_, r, fs, by simp [inodeGetBlock, hb, hz]; rfl, hstay _, fun _ => ?_⟩
      rw [blockOf_eq hslot]
      rfl
  by_cases hlt : b - 12 < 2048
  · by_cases hind : r.indirect = 0
    · rcases allocBlock_draft h hi hs (slotsFor b) with
        ⟨fs₁, halloc, hnone⟩ | ⟨ib, fs₁, halloc, hib, hiblt, hsome, hfresh, hzero, _⟩
      · exact ⟨0, r, fs₁, by simp [inodeGetBlock, hb, hlt, hind, halloc], hnone,
          fun h0 => absurd rfl h0⟩
      · have hrec₁ : (fs₁.vol.setInode ino r).inode ino = r := by simp
        have hi₁ : fs₁.vol.IsIno ino := hsome.isIno.2 hi
        have hgain := Gains.attachIndirect (i := ino) hsome.gains.sound hfresh hiblt hzero
          (by rw [hrec₁]; exact hind)
        rw [hrec₁, Vol.setInode_setInode] at hgain
        have hdraft := hsome.trans (.edit hsome.ready
          (hgain.mono fun s (hs : s = .indirect) => (.inl hs : s ∈ slotsFor b)))
        have hne : (r.setIndirect (UInt32.ofNat ib)).indirect ≠ 0 := ofNat_ne_zero hib hiblt
        obtain ⟨bn, fs₂, hcall, hrest, hfound⟩ :=
          indirectGetBlock_draft hsome.ready hi₁ hdraft.gains.sound hb hlt hne
        exact ⟨bn, _, fs₂, by simp [inodeGetBlock, hb, hlt, hind, halloc, hib, hcall],
          hdraft.trans hrest, hfound⟩
    · obtain ⟨bn, fs₂, hcall, hdraft, hfound⟩ := indirectGetBlock_draft h hi hs hb hlt hind
      exact ⟨bn, r, fs₂, by simp [inodeGetBlock, hb, hlt, hind, hcall], hdraft, hfound⟩
  · have hge : 2048 ≤ b - 12 := by omega
    exact ⟨0, r, fs, by simp [inodeGetBlock, hb, hge], hstay _, fun h0 => absurd rfl h0⟩

end

end

end Mount

end LufiraFs
