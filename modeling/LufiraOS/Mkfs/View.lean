import LufiraOS.Lib.FirstFit
import LufiraOS.Mkfs.Core
import LufiraOS.Volume.Accounting
import LufiraOS.Volume.Tree

/-!
# The volume in the tool's memory

A region read as a volume, with metadata and data in one buffer, and what each
elementary function of the tool does to it.  `Growth` is the counterpart of the
driver's drafts: a copy of an inode record and the region grow together while
the table stays as it is.
-/

namespace LufiraFs

open ByteStore

namespace Mkfs

namespace Region

/-- The volume a region stands for. -/
def vol (g : Region) : Vol := volOf g.sb g.image g.image 0

section

variable {g : Region} {b i ino bn : Nat} {g' : Region} {r r' : Inode}

section

variable (h : Laid g.sb)

include h

/-- The tool addresses every block of a formatted region. -/
theorem fits : 0 + g.sb.totalBlocks.toNat * 16 ≤ 4294967296 := by
  have htotal := h.total
  omega

theorem dataStart_pos : 0 < g.vol.dataStart := by
  have hdata := h.dataStart
  show 0 < g.sb.dataStart.toNat
  omega

theorem vol_pos (hb : g.vol.InData b) : b ≠ 0 := by
  have hpos := dataStart_pos h
  have hlo := hb.1
  omega

theorem vol_lt (hb : g.vol.InData b) : b < 524288 := by
  have htotal := h.total
  have hhi : b < g.sb.totalBlocks.toNat := hb.2
  omega

/-- The tool makes 512 inodes. -/
theorem isIno_iff : g.vol.IsIno i ↔ 1 ≤ i ∧ i ≤ 512 := by
  have hcount := h.inodeCount
  show 1 ≤ i ∧ i ≤ g.sb.inodeCount.toNat ↔ _
  rw [hcount]

theorem vol_block (hb : g.vol.InData b) : g.vol.block b = g.block b := by
  have hblk : g.vol.block b = window g.image ((0 + b * 16) % 4294967296 * 512) 8192 := if_pos hb
  have hoff : (0 + b * 16) % 4294967296 * 512 = b * 8192 := by
    have hlt := vol_lt h hb
    omega
  rw [hblk, hoff]
  rfl

end

theorem vol_inode (hi : g.vol.IsIno i) : g.vol.inode i = g.readInode i := by
  have h1 := hi.1
  have h2 : i ≤ g.sb.inodeCount.toNat := hi.2
  exact if_neg (by omega)

theorem vol_bit (hb : b < g.totalBlocks) : g.vol.bit b = g.bitmapTest b := if_pos hb

/-! ## The elementary writes -/

/-- A store into a data block, on the volume. -/
theorem setBlock_vol (h : Laid g.sb) (hb : g.vol.InData b) (buf : Bytes) :
    (g.setBlock b buf).vol = g.vol.setBlock b (window buf 0 8192) := by
  have hlo : g.sb.dataStart.toNat ≤ b := hb.1
  have hhi : b < g.sb.totalBlocks.toNat := hb.2
  have hoff : (0 + b * 16) % 4294967296 * 512 = b * 8192 := by
    have hlt := vol_lt h hb
    omega
  have hdisk : volOf g.sb g.image (copyIn g.image ((0 + b * 16) % 4294967296 * 512) 8192 buf) 0 =
      g.vol.setBlock b (window buf 0 8192) := volOf_setBlock (fits h) hlo hhi buf
  rw [hoff] at hdisk
  have himage : volOf g.sb (copyIn g.image (b * 8192) 8192 buf)
      (copyIn g.image (b * 8192) 8192 buf) 0 =
      volOf g.sb g.image (copyIn g.image (b * 8192) 8192 buf) 0 :=
    volOf_image_congr h fun a _ ha => copyIn_outside (by omega)
  exact himage.trans hdisk

/-- A change of the metadata does not show in the data blocks. -/
theorem vol_of_meta (h : Laid g.sb) {image : Bytes}
    (hmeta : ∀ a, g.sb.dataStart.toNat * 8192 ≤ a → image a = g.image a) :
    volOf g.sb image image 0 = volOf g.sb image g.image 0 :=
  volOf_disk_congr (fits h) fun a hlo _ => hmeta a (by
    rw [Nat.zero_add, Nat.mul_assoc] at hlo
    exact hlo)

/-- A store into the bitmap. -/
theorem bitmapSet_vol (h : Laid g.sb) (hb : b < g.totalBlocks) (u : Bool) :
    (g.bitmapSet b u).vol = g.vol.setBit b u := by
  refine (vol_of_meta h fun a ha => setBitAt_outside u ?_).trans (volOf_setBit h hb u)
  have hlt := bitmap_lt h hb
  have hdata := h.dataStart
  omega

/-- A store into the table of inodes. -/
theorem writeInode_vol (h : Laid g.sb) (hi : g.vol.IsIno i) (r : Inode) :
    (g.writeInode i r).vol = g.vol.setInode i r := by
  refine (vol_of_meta h fun a ha => copyIn_outside ?_).trans (volOf_setInode h hi.1 hi.2 r)
  have hcount := h.inodeCount
  have hdata := h.dataStart
  have hle : i ≤ g.sb.inodeCount.toNat := hi.2
  rw [inodeOff, inodeOff_lt h (by omega)]
  omega

theorem withSb_vol (g : Region) {sb : Superblock}
    (hsb : ∃ blocks inodes, sb = g.sb.withFree blocks inodes) :
    ({ g with sb := sb } : Region).vol = g.vol := by
  obtain ⟨blocks, inodes, rfl⟩ := hsb
  rfl

theorem writeSuperblock_vol (h : Laid g.sb) : g.writeSuperblock.vol = g.vol := by
  refine (vol_of_meta h fun a ha => copyIn_outside ?_).trans
    (volOf_superblock h g.sb.freeBlocks g.sb.freeInodes g.sb.bytes)
  have hdata := h.dataStart
  omega

/-- The superblock on the image is the same. -/
def SameSuper (g g' : Region) : Prop := ∀ a, a < 8192 → g'.image a = g.image a

theorem setBlock_super (hb : b ≠ 0) (buf : Bytes) : SameSuper g (g.setBlock b buf) :=
  fun _ _ => copyIn_outside (by omega)

theorem bitmapSet_super (h : Laid g.sb) (b : Nat) (u : Bool) : SameSuper g (g.bitmapSet b u) := by
  intro a ha
  apply setBitAt_outside
  have hstart := h.bitmapStart
  omega

theorem writeInode_super (h : Laid g.sb) (hi : g.vol.IsIno i) (r : Inode) :
    SameSuper g (g.writeInode i r) := by
  intro a ha
  apply copyIn_outside
  have hcount := h.inodeCount
  have hle : i ≤ g.sb.inodeCount.toNat := hi.2
  rw [inodeOff, inodeOff_lt h (by omega)]
  omega

/-- A region written back with its superblock is read again as it was. -/
theorem load_writeSuperblock (g : Region) :
    load g.writeSuperblock.image = ⟨g.writeSuperblock.image, g.sb⟩ := by
  simp only [load, writeSuperblock, Superblock.ofBytes_copyIn]

/-! ## Allocation -/

theorem scanClear_eq (g : Region) (b n : Nat) :
    g.scanClear b n = FirstFit.firstClear g.bitmapTest b n := by
  induction n generalizing b with
  | zero => rfl
  | succ n ih => rw [scanClear, FirstFit.firstClear, ih]

/-- What `alloc_block` does when it returns. -/
theorem allocBlock_ok (h : Laid g.sb) (hcall : g.allocBlock = .ok (b, g')) :
    g.vol.InData b ∧ g.vol.bit b = false ∧ g'.sb = g.sb.takeBlock ∧
      g'.vol = (g.vol.setBit b true).setBlock b zeros ∧ SameSuper g g' := by
  unfold allocBlock at hcall
  split at hcall
  · cases hcall
  · next c hscan =>
    rw [scanClear_eq] at hscan
    obtain ⟨hlo, hhi, hclear⟩ := FirstFit.firstClear_some hscan
    simp only [Except.ok.injEq, Prod.mk.injEq] at hcall
    obtain ⟨rfl, rfl⟩ := hcall
    have hlt : c < g.totalBlocks := by omega
    have hin : g.vol.InData c := ⟨hlo, hlt⟩
    have hmark := bitmapSet_vol h hlt true
    refine ⟨hin, (vol_bit hlt).trans hclear, rfl, ?_,
      fun a ha => (setBlock_super (vol_pos h hin) zeros a ha).trans (bitmapSet_super h c true a ha)⟩
    rw [withSb_vol _ (withFree_takeBlock _)]
    rw [setBlock_vol (g := g.bitmapSet c true) h (by rw [hmark]; exact hin), hmark, window_zeros]

theorem scanFreeInode_some {n j : Nat} (h : g.scanFreeInode i n = some j) :
    i ≤ j ∧ j < i + n ∧ (g.readInode j).mode = modeFree := by
  induction n generalizing i with
  | zero => simp [scanFreeInode] at h
  | succ n ih =>
    rw [scanFreeInode] at h
    split at h
    · next hfree =>
      cases h
      exact ⟨by omega, by omega, hfree⟩
    · obtain ⟨hlo, hhi, hfree⟩ := ih h
      exact ⟨by omega, by omega, hfree⟩

/-- What `alloc_inode` does when it returns. -/
theorem allocInode_ok (hcall : g.allocInode = .ok (i, g')) :
    g.vol.IsIno i ∧ (g.vol.inode i).mode = modeFree ∧ g'.sb = g.sb.takeInode ∧ g'.vol = g.vol := by
  unfold allocInode at hcall
  split at hcall
  · cases hcall
  · next j hscan =>
    obtain ⟨hlo, hhi, hfree⟩ := scanFreeInode_some hscan
    simp only [Except.ok.injEq, Prod.mk.injEq] at hcall
    obtain ⟨rfl, rfl⟩ := hcall
    have hi : g.vol.IsIno j := ⟨hlo, show j ≤ g.sb.inodeCount.toNat by omega⟩
    exact ⟨hi, by rw [vol_inode hi]; exact hfree, rfl, withSb_vol g (withFree_takeInode _)⟩

/-! ## The blocks of a file -/

/-- The copy `r` of the record of `ino` has become `r'`, and the volume with the
copy in the table has gained blocks for `ino` in the slots `T`. -/
structure Growth (ino : Nat) (T : Set Slot) (r r' : Inode) (g g' : Region) : Prop where
  laid : Laid g'.sb
  table : g'.vol.inode = g.vol.inode
  gains : Gains ino T (g.vol.setInode ino r) (g'.vol.setInode ino r')
  accounts : ∀ {k}, Balanced k g.sb g.vol → Balanced k g'.sb g'.vol
  super : SameSuper g g'

namespace Growth

variable {g' g'' : Region} {ino : Nat} {T T' : Set Slot} {r r' r'' : Inode}

theorem trans (h : Growth ino T r r' g g') (h' : Growth ino T r' r'' g' g'') :
    Growth ino T r r'' g g'' :=
  ⟨h'.laid, h'.table.trans h.table, h.gains.trans h'.gains, fun hk => h'.accounts (h.accounts hk),
    fun a ha => (h'.super a ha).trans (h.super a ha)⟩

/-- Replacing the copy while the region stays as it is. -/
theorem edit (h : Laid g.sb)
    (hg : Gains ino T (g.vol.setInode ino r) (g.vol.setInode ino r')) : Growth ino T r r' g g :=
  ⟨h, rfl, hg, id, fun _ _ => rfl⟩

theorem isIno (h : Growth ino T r r' g g') {i : Nat} : g'.vol.IsIno i ↔ g.vol.IsIno i :=
  Vol.SameGeo.isIno (V := g.vol)
    ⟨h.gains.evolves.geo.1, h.gains.evolves.geo.2, h.gains.evolves.geo.3, h.gains.evolves.geo.4⟩

end Growth

theorem laid_takeBlock {sb : Superblock} (h : Laid sb) : Laid sb.takeBlock := by
  obtain ⟨blocks, inodes, hsb⟩ := withFree_takeBlock sb
  rw [hsb]
  exact h.withFree blocks inodes

/-- Allocation gives the new block to nobody yet. -/
theorem allocBlock_growth (h : Laid g.sb)
    (hi : g.vol.IsIno ino) (hs : Sound (g.vol.setInode ino r)) (T : Set Slot)
    (hcall : g.allocBlock = .ok (b, g')) :
    b ≠ 0 ∧ b < 4294967296 ∧ Growth ino T r r g g' ∧ Fresh (g'.vol.setInode ino r) b ∧
      g'.vol.block b = zeros ∧ ∀ c, c ≠ b → g'.vol.block c = g.vol.block c := by
  obtain ⟨hin, hclear, hsb, hvol, hsuper⟩ := allocBlock_ok h hcall
  have h0 := vol_pos h hin
  have hlt := vol_lt h hin
  have hcopy : g'.vol.setInode ino r = ((g.vol.setInode ino r).setBit b true).setBlock b zeros := by
    rw [hvol]
    rfl
  refine ⟨h0, by omega, ⟨hsb ▸ laid_takeBlock h, ?_, ?_, ?_, hsuper⟩, ?_, ?_, ?_⟩
  · rw [hvol]
    rfl
  · rw [hcopy]
    exact .alloc hs hin h0 hclear ino hi T
  · intro k hk
    rw [hvol, hsb]
    exact (hk.take hin hclear).congr ⟨rfl, rfl, rfl, rfl⟩ rfl
  · rw [hcopy]
    exact (hs.alloc _ hin h0 hclear).2.1
  · rw [hvol]
    exact Vol.setBlock_block_same _ _ _
  · intro c hc
    rw [hvol]
    exact Vol.setBlock_block_ne _ _ hc

/-- The indirect block of a sound copy is in the data area. -/
theorem indirect_inData (hi : g.vol.IsIno ino)
    (hs : Sound (g.vol.setInode ino r)) (hind : r.indirect ≠ 0) :
    g.vol.InData r.indirect.toNat := by
  have hrange := hs.range (i := ino) (s := .indirect) hi
  rw [Vol.setInode_ptr_same] at hrange
  exact hrange fun h0 => hind (UInt32.toNat_inj.1 h0)

section

variable (h : Laid g.sb) (hi : g.vol.IsIno ino) (hs : Sound (g.vol.setInode ino r))

include h hi hs

/-- A block behind the indirect one is found or added. -/
theorem entryGetBlock_growth (hb : ¬ b < 12) (hlt : b - 12 < 2048) (hind : r.indirect ≠ 0)
    (hcall : g.entryGetBlock r (b - 12) true = .ok (bn, r', g')) :
    r' = r ∧ Growth ino (slotsFor b) r r g g' ∧ bn ≠ 0 ∧ blockOf g'.vol.block r b = bn := by
  have hslot := slotOf_entry hb hlt
  have hin := indirect_inData hi hs hind
  unfold entryGetBlock at hcall
  rw [← vol_block h hin] at hcall
  by_cases hz : (word32 (g.vol.block r.indirect.toNat) (4 * (b - 12))).toNat = 0
  · rw [if_pos ⟨hz, rfl⟩] at hcall
    split at hcall
    · cases hcall
    · next nb g₁ halloc =>
      simp only [Except.ok.injEq, Prod.mk.injEq] at hcall
      obtain ⟨rfl, rfl, rfl⟩ := hcall
      obtain ⟨hnb, hnblt, hgrow, hfresh, hzero, hsame⟩ :=
        allocBlock_growth h hi hs (slotsFor b) halloc
      have hi₁ : g₁.vol.IsIno ino := hgrow.isIno.2 hi
      have hin₁ := indirect_inData hi₁ hgrow.gains.sound hind
      have hblk : g₁.vol.block r.indirect.toNat = g.vol.block r.indirect.toNat := by
        apply hsame
        have hfree := hfresh.free (i := ino) (s := .indirect) hi₁
        rwa [Vol.setInode_ptr_same] at hfree
      have hrec : (g₁.vol.setInode ino r).inode ino = r := by simp
      have hgain := Gains.attachEntry (i := ino) (e := ⟨b - 12, hlt⟩) hgrow.gains.sound hfresh
        hnblt hzero hi₁ (by rwa [hrec])
        (by rw [hrec]; exact UInt32.toNat_inj.1 ((congrArg
          (fun blk => (word32 blk (4 * (b - 12))).toNat) hblk).trans hz))
      rw [hrec] at hgain
      rw [← vol_block hgrow.laid hin₁]
      have hvol := setBlock_vol hgrow.laid hin₁
        (putWord (g₁.vol.block r.indirect.toNat) (4 * (b - 12)) (UInt32.ofNat nb))
      refine ⟨rfl, hgrow.trans ⟨hgrow.laid, ?_, ?_, ?_,
        setBlock_super (vol_pos hgrow.laid hin₁) _⟩, hnb, ?_⟩
      · rw [hvol]
        rfl
      · rw [hvol]
        exact hgain.mono fun s hs => Or.inr (by rw [hs]; exact hslot)
      · intro k hk
        rw [hvol]
        exact hk.congr (Vol.setBlock_geo _ _ _) rfl
      · have hput := Sound.entry_putWord (g₁.vol.block r.indirect.toNat) ⟨b - 12, hlt⟩
          ⟨b - 12, hlt⟩ (UInt32.ofNat nb)
        rw [hvol, blockOf_eq hslot]
        simp only [ptrOf, hind, if_false, Vol.setBlock_block_same, hput]
        exact toNat_ofNat_lt hnblt
  · rw [if_neg (fun hc => hz hc.1)] at hcall
    obtain ⟨rfl, rfl, rfl⟩ := hcall
    refine ⟨rfl, .edit h (.refl hs ino _), hz, ?_⟩
    rw [blockOf_eq hslot]
    simp [ptrOf, hind]

/-- **`inode_get_block`** with `create`: the block is found or its slot filled. -/
theorem inodeGetBlock_growth (hcall : g.inodeGetBlock r b true = .ok (bn, r', g')) :
    Growth ino (slotsFor b) r r' g g' ∧ bn ≠ 0 ∧ blockOf g'.vol.block r' b = bn := by
  unfold inodeGetBlock at hcall
  by_cases hb : b < 12
  · have hslot := slotOf_direct hb
    rw [dif_pos hb] at hcall
    by_cases hz : r.direct ⟨b, hb⟩ = 0
    · rw [if_pos ⟨hz, rfl⟩] at hcall
      split at hcall
      · cases hcall
      · next nb g₁ halloc =>
        simp only [Except.ok.injEq, Prod.mk.injEq] at hcall
        obtain ⟨rfl, rfl, rfl⟩ := hcall
        obtain ⟨hnb, hnblt, hgrow, hfresh, hzero, _⟩ :=
          allocBlock_growth h hi hs (slotsFor b) halloc
        have hrec : (g₁.vol.setInode ino r).inode ino = r := by simp
        have hgain := Gains.attachDirect (i := ino) (k := ⟨b, hb⟩) hgrow.gains.sound hfresh
          hnblt hzero (by rw [hrec]; exact hz)
        rw [hrec, Vol.setInode_setInode] at hgain
        refine ⟨hgrow.trans (.edit hgrow.laid
          (hgain.mono fun s hs => Or.inr (by rw [hs]; exact hslot))), hnb, ?_⟩
        rw [blockOf_eq hslot]
        simp [ptrOf, Inode.setDirect, toNat_ofNat_lt hnblt]
    rw [if_neg (fun hc => hz hc.1)] at hcall
    obtain ⟨rfl, rfl, rfl⟩ := hcall
    refine ⟨.edit h (.refl hs ino _), fun h0 => hz (UInt32.toNat_inj.1 h0), ?_⟩
    rw [blockOf_eq hslot]
    rfl
  rw [dif_neg hb] at hcall
  split at hcall
  · cases hcall
  · next hge =>
    have hlt : b - 12 < 2048 := by omega
    by_cases hind : r.indirect = 0
    · rw [if_pos hind, if_pos rfl] at hcall
      split at hcall
      · cases hcall
      · next ib g₁ halloc =>
        obtain ⟨hib, hiblt, hgrow, hfresh, hzero, _⟩ :=
          allocBlock_growth h hi hs (slotsFor b) halloc
        have hrec : (g₁.vol.setInode ino r).inode ino = r := by simp
        have hgain := Gains.attachIndirect (i := ino) hgrow.gains.sound hfresh hiblt hzero
          (by rw [hrec]; exact hind)
        rw [hrec, Vol.setInode_setInode] at hgain
        have hall := hgrow.trans (.edit hgrow.laid
          (hgain.mono fun s (hs : s = .indirect) => (Or.inl hs : s ∈ slotsFor b)))
        have hne : (r.setIndirect (UInt32.ofNat ib)).indirect ≠ 0 := ofNat_ne_zero hib hiblt
        obtain ⟨rfl, hrest, hbn, hfound⟩ := entryGetBlock_growth hgrow.laid
          (hgrow.isIno.2 hi) hall.gains.sound hb hlt hne hcall
        exact ⟨hall.trans hrest, hbn, hfound⟩
    · rw [if_neg hind] at hcall
      obtain ⟨rfl, hgrow, hbn, hfound⟩ := entryGetBlock_growth h hi hs hb hlt hind hcall
      exact ⟨hgrow, hbn, hfound⟩

/-- **`inode_get_block`** without `create` finds the block. -/
theorem inodeGetBlock_lookup
    (hcall : g.inodeGetBlock r b false = .ok (bn, r', g')) : bn = blockOf g.vol.block r b := by
  unfold inodeGetBlock at hcall
  by_cases hb : b < 12
  · rw [dif_pos hb] at hcall
    simp only [Bool.false_eq_true, and_false, if_false, Except.ok.injEq, Prod.mk.injEq] at hcall
    obtain ⟨rfl, _⟩ := hcall
    rw [blockOf_eq (slotOf_direct hb)]
    rfl
  rw [dif_neg hb] at hcall
  split at hcall
  · cases hcall
  · next hge =>
    have hlt : b - 12 < 2048 := by omega
    by_cases hind : r.indirect = 0
    · simp only [hind, if_true, Bool.false_eq_true, if_false, Except.ok.injEq,
        Prod.mk.injEq] at hcall
      obtain ⟨rfl, _⟩ := hcall
      rw [blockOf_eq (slotOf_entry hb hlt)]
      simp [ptrOf, hind]
    have hin := indirect_inData hi hs hind
    rw [if_neg hind, entryGetBlock, ← vol_block h hin] at hcall
    simp only [Bool.false_eq_true, and_false, if_false, Except.ok.injEq, Prod.mk.injEq] at hcall
    obtain ⟨rfl, _⟩ := hcall
    rw [blockOf_eq (slotOf_entry hb hlt)]
    simp [ptrOf, hind]

end

end

end Region

end Mkfs

end LufiraFs
