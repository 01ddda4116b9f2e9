import LufiraOS.Mkfs.Dirs

/-!
# A formatted region

What `mkfs_lufirafs format` leaves behind: a firm region whose tree is the root
directory alone.  The superblock is written before the root directory gets the
block for its entries, so the counter of free blocks on the image is one more
than the number of clear marks.
-/

namespace LufiraFs

open ByteStore

namespace Mkfs

namespace Region

/-- A region between two commands: firm, with its tree in order. -/
structure Tidy (g : Region) : Prop where
  firm : Firm g
  orderly : Orderly g.vol

/-- The layout that `cmd_format` computes. -/
def layout (totalBlocks : UInt32) : Superblock :=
  computeLayout totalBlocks (Superblock.ofBytes zeros)

section

variable {g : Region} {total : UInt32}

theorem markUsed_sb (b n : Nat) (g : Region) : (markUsed b n g).sb = g.sb := by
  induction n generalizing b g with
  | zero => rfl
  | succ n ih => exact ih (b + 1) (g.bitmapSet b true)

theorem markUsed_vol (h : Laid g.sb) {b n : Nat} (hn : b + n ≤ g.totalBlocks) :
    (markUsed b n g).vol =
      { g.vol with bit := fun c => if b ≤ c ∧ c < b + n then true else g.vol.bit c } := by
  induction n generalizing b g with
  | zero =>
    have hsame : (fun c => if b ≤ c ∧ c < b + 0 then true else g.vol.bit c) = g.vol.bit := by
      funext c
      rw [if_neg (by omega)]
    rw [hsame]
    rfl
  | succ n ih =>
    have hnext : (fun c => if b + 1 ≤ c ∧ c < b + 1 + n then true
        else (g.vol.setBit b true).bit c) =
        fun c => if b ≤ c ∧ c < b + (n + 1) then true else g.vol.bit c := by
      funext c
      by_cases hcb : c = b
      · subst hcb
        simp [Vol.setBit]
      · have hiff : (b + 1 ≤ c ∧ c < b + 1 + n) ↔ (b ≤ c ∧ c < b + (n + 1)) := by omega
        simp only [hiff, Vol.setBit, Function.update_of_ne hcb]
    rw [markUsed, ih (g := g.bitmapSet b true) h (show b + 1 + n ≤ g.totalBlocks by omega),
      bitmapSet_vol h (by omega), hnext]
    rfl

/-- Set the counters and write the superblock. -/
def recount (g : Region) (blocks inodes : UInt32) : Region :=
  writeSuperblock { g with sb := g.sb.withFree blocks inodes }

theorem recount_vol (h : Laid g.sb) (blocks inodes : UInt32) :
    (g.recount blocks inodes).vol = g.vol :=
  (writeSuperblock_vol (g := { g with sb := g.sb.withFree blocks inodes })
    (h.withFree blocks inodes)).trans (withSb_vol g ⟨blocks, inodes, rfl⟩)

theorem recount_ofBytes (g : Region) (blocks inodes : UInt32) :
    Superblock.ofBytes (g.recount blocks inodes).image = g.sb.withFree blocks inodes :=
  Superblock.ofBytes_copyIn _ _

/-- The record of the root directory before it has entries. -/
def rootRecord : Inode :=
  { Inode.zero with mode := modeDir, linksCount := 2, perm := defaultDirPerm }

/-- What the region is when the root directory has no entries yet. -/
structure Blank (total : UInt32) (g : Region) : Prop where
  laid : Laid g.sb
  super : Superblock.ofBytes g.image = g.sb
  data : g.sb.dataStart = (layout total).dataStart
  blocks : g.sb.totalBlocks = total
  free : g.sb.freeBlocks = total - (layout total).dataStart
  inodes : g.sb.freeInodes = 511
  bit : ∀ b, b < total.toNat → g.vol.bit b = decide (b < (layout total).dataStart.toNat)
  root : g.vol.inode 1 = rootRecord
  others : ∀ i, i ≠ 1 → g.vol.inode i = Inode.zero

/-- The volume with the metadata blocks marked used. -/
theorem marked_vol (h : Laid (layout total)) :
    (∀ b, b < total.toNat → (markUsed 0 (layout total).dataStart.toNat
      ⟨zeros, layout total⟩).vol.bit b = decide (b < (layout total).dataStart.toNat)) ∧
    ∀ i, (markUsed 0 (layout total).dataStart.toNat ⟨zeros, layout total⟩).vol.inode i =
      Inode.zero := by
  have hroom := h.room
  rw [markUsed_vol (g := ⟨zeros, layout total⟩) h
    (show 0 + (layout total).dataStart.toNat ≤ (layout total).totalBlocks.toNat by omega)]
  constructor
  · intro b hb
    have hclear : Vol.bit (vol ⟨zeros, layout total⟩) b = false := by
      rw [vol_bit (g := ⟨zeros, layout total⟩) hb]
      simp [bitmapTest, bitAt, bitOf]
    by_cases hlt : b < (layout total).dataStart.toNat
    · simp [hlt]
    · simp [hlt, hclear]
  intro i
  by_cases hi : (vol ⟨zeros, layout total⟩).IsIno i
  · exact (vol_inode hi).trans (Inode.ofBytes_zeros _)
  have hout : i = 0 ∨ (layout total).inodeCount.toNat < i := by
    by_contra hin
    exact hi ⟨by omega, show i ≤ (layout total).inodeCount.toNat by omega⟩
  exact if_pos hout

theorem blank_blank (h : Laid (layout total)) : Blank total (blank total) := by
  obtain ⟨hbit, hinode⟩ := marked_vol h
  have hsb := markUsed_sb 0 (layout total).dataStart.toNat ⟨zeros, layout total⟩
  generalize hg : markUsed 0 (layout total).dataStart.toNat ⟨zeros, layout total⟩ = g₀
    at hbit hinode hsb
  have hlaid : Laid g₀.sb := hsb ▸ h
  set free := total - (layout total).dataStart
  have hblank : blank total = ((g₀.recount free 512).writeInode 1
      rootRecord).recount free (512 - 1) := by
    have hroot : ({ g₀.sb with
        freeBlocks := free
        freeInodes := (layout total).inodeCount } : Superblock).rootInode.toNat = 1 :=
      hlaid.rootInode
    unfold blank
    dsimp only
    rw [show computeLayout total (Superblock.ofBytes zeros) = layout total from rfl, hg]
    simp only [writeSuperblock, hroot]
    rfl
  have hlaid₁ : Laid (g₀.recount free 512).sb := hlaid.withFree _ _
  have hvol₁ := recount_vol hlaid free 512
  have hvol : (blank total).vol = g₀.vol.setInode 1 rootRecord := by
    have hlaid₂ : Laid ((g₀.recount free 512).writeInode 1 rootRecord).sb := hlaid₁
    rw [hblank, recount_vol hlaid₂, writeInode_vol hlaid₁ ((isIno_iff hlaid₁).2 (by omega)), hvol₁]
  have hsb' : (blank total).sb = (layout total).withFree free (512 - 1) := by
    rw [hblank]
    show g₀.sb.withFree _ _ = _
    rw [hsb]
  refine ⟨hsb' ▸ h.withFree _ _, ?_, by rw [hsb']; rfl, by rw [hsb']; rfl, by rw [hsb']; rfl,
    by rw [hsb']; rfl, ?_, ?_, ?_⟩
  · rw [hblank]
    exact recount_ofBytes _ _ _
  · intro b hb
    rw [hvol]
    exact hbit b hb
  · rw [hvol, Vol.setInode_inode_same]
  · intro i hi
    rw [hvol, Vol.setInode_inode_ne _ _ hi]
    exact hinode i

section

variable (h : Blank total g)

include h

theorem Blank.ptr (i : Nat) (s : Slot) : g.vol.ptr i s = 0 := by
  unfold Vol.ptr
  by_cases hi : i = 1
  · subst hi
    rw [h.root]
    exact ptrOf_of_none rfl rfl _ _
  · rw [h.others i hi, ptrOf_zero]

theorem Blank.fetch (i b : Nat) : g.vol.fetch (g.vol.inode i) b = none := by
  have hz : blockOf g.vol.block (g.vol.inode i) b = 0 := by
    unfold blockOf
    split
    · exact h.ptr i _
    · rfl
  rw [Vol.fetch, hz, if_neg fun hin => vol_pos h.laid hin rfl]

theorem Blank.size (i : Nat) : (g.vol.inode i).size = 0 := by
  by_cases hi : i = 1
  · subst hi
    rw [h.root]
    rfl
  · rw [h.others i hi]
    rfl

theorem Blank.firm : Firm g where
  laid := h.laid
  sound := ⟨fun _ hne => absurd (h.ptr _ _) hne, fun _ hne => absurd (h.ptr _ _) hne,
    fun _ _ hne => absurd (h.ptr _ _) hne⟩
  filled := fun {i} _ b hb => by
    rw [h.size i] at hb
    exact absurd hb (Nat.not_lt_zero b)
  tight := fun {d} _ b _ => h.fetch d b

/-- All blocks of the data area are free. -/
theorem Blank.clearCount : g.vol.clearCount = total.toNat - (layout total).dataStart.toNat := by
  have hdata : g.vol.dataStart = (layout total).dataStart.toNat := by
    show g.sb.dataStart.toNat = _
    rw [h.data]
  have htotal : g.vol.totalBlocks = total.toNat := by
    show g.sb.totalBlocks.toNat = _
    rw [h.blocks]
  unfold Vol.clearCount
  rw [Finset.filter_true_of_mem, Nat.card_Ico, hdata, htotal]
  intro b hb
  rw [Finset.mem_Ico, hdata, htotal] at hb
  rw [h.bit b hb.2]
  simp only [decide_eq_false_iff_not]
  omega

theorem Blank.balanced : Balanced 0 g.sb g.vol where
  count := by
    have hroom := h.laid.room
    rw [h.data, h.blocks] at hroom
    rw [h.clearCount, h.free, Nat.add_zero]
    exact UInt32.toNat_sub_of_le _ _ (UInt32.le_iff_toNat_le.2 (Nat.le_of_lt hroom))
  small := Nat.zero_le _

/-- The first entry of the root takes one block. -/
theorem Blank.addDirent_sb {g' : Region} {name : CStr} {i : Nat}
    (hcall : g.addDirent 1 name i = .ok g') : g'.sb = g.sb.takeBlock := by
  have hi : g.vol.IsIno 1 := (isIno_iff h.laid).2 (by omega)
  unfold addDirent at hcall
  rw [← vol_inode hi, h.root] at hcall
  have hz : blocksOf rootRecord.size.toNat = 0 := rfl
  simp only [hz, addDirentBlocks] at hcall
  unfold inodeGetBlock at hcall
  rw [dif_pos (by omega), if_pos ⟨rfl, rfl⟩] at hcall
  cases halloc : g.allocBlock with
  | error e =>
    rw [halloc] at hcall
    cases hcall
  | ok found =>
    obtain ⟨nb, g₁⟩ := found
    rw [halloc] at hcall
    cases hcall
    exact (allocBlock_ok h.laid halloc).2.2.1

end

/-- A region whose only directory is the root, with its two entries. -/
theorem rootOnly_orderly (hroot : g.vol.rootInode = 1) (hi : g.vol.IsIno 1)
    (hmode : (g.vol.inode 1).mode = modeDir)
    (hothers : ∀ i, g.vol.IsIno i → i ≠ 1 → (g.vol.inode i).mode = modeFree) {a b : Nat}
    (hab : a ≠ b) (ha : g.vol.entryAt 1 a = some (1, dot))
    (hb : g.vol.entryAt 1 b = some (1, dotDot))
    (hrest : ∀ c, c ≠ a → c ≠ b → g.vol.entryAt 1 c = none) : Orderly g.vol := by
  have hdir : ∀ {d}, g.vol.IsDir d → d = 1 := by
    intro d hd
    by_contra hne
    exact modeDir_ne_free (hd.2.symm.trans (hothers d hd.1 hne))
  have hlive : ∀ {i}, g.vol.Live i → i = 1 := by
    intro i hl
    by_contra hne
    exact hl.2 (hothers i hl.1 hne)
  have hone : g.vol.IsDir 1 := ⟨hi, hmode⟩
  have hentry : ∀ {n i nm}, g.vol.entryAt 1 n = some (i, nm) →
      i = 1 ∧ ((n = a ∧ nm = dot) ∨ (n = b ∧ nm = dotDot)) := by
    intro n i nm hn
    by_cases hna : n = a
    · rw [hna, ha] at hn
      cases hn
      exact ⟨rfl, Or.inl ⟨hna, rfl⟩⟩
    by_cases hnb : n = b
    · rw [hnb, hb] at hn
      cases hn
      exact ⟨rfl, Or.inr ⟨hnb, rfl⟩⟩
    · rw [hrest n hna hnb] at hn
      cases hn
  have hproper : ∀ {d p i}, ¬ g.vol.hierarchy.Names dot dotDot d p i := by
    rintro d p i ⟨hd, nm, hs, hp, hn⟩
    obtain rfl := hdir hd
    rcases (hentry hn).2 with ⟨_, rfl⟩ | ⟨_, rfl⟩
    · exact hs rfl
    · exact hp rfl
  have hrootIs : g.vol.hierarchy.root = 1 := hroot
  refine ⟨?_, ?_⟩
  · constructor
    · rw [hrootIs]
      exact hone
    · intro d hd
      exact ⟨hd.1, by rw [hd.2]; exact modeDir_ne_free⟩
    · intro d p i nm hd hn
      obtain rfl := hdir hd
      obtain ⟨rfl, _⟩ := hentry hn
      exact ⟨hi, by rw [hmode]; exact modeDir_ne_free⟩
    · intro d p q i j nm hd hp hq
      obtain rfl := hdir hd
      rcases (hentry hp).2 with ⟨rfl, rfl⟩ | ⟨rfl, rfl⟩ <;>
        rcases (hentry hq).2 with ⟨rfl, hnm⟩ | ⟨rfl, hnm⟩
      · rfl
      · exact absurd hnm dot_ne_dotDot
      · exact absurd hnm.symm dot_ne_dotDot
      · rfl
    · intro d hd
      obtain rfl := hdir hd
      exact ⟨a, ha⟩
    · intro d hd hne
      exact absurd ((hdir hd).trans hrootIs.symm) hne
    · rw [hrootIs]
      exact ⟨b, hb⟩
    · intro i hl hne
      exact absurd ((hlive hl).trans hrootIs.symm) hne
    · intro i d p e q _ hp _
      exact absurd hp hproper
  · intro d hd n i nm hn
    obtain rfl := hdir hd
    rcases (hentry hn).2 with ⟨_, rfl⟩ | ⟨_, rfl⟩ <;> decide

/-! ## The command -/

theorem layout_laid {size : UInt32}
    (hroom : ¬ size / 8192 ≤ (layout (size / 8192)).dataStart) : Laid (layout (size / 8192)) := by
  refine computeLayout_laid ?_ ?_
  · have hsize := size.toNat_lt
    rw [UInt32.toNat_div]
    show size.toNat / 8192 < 524288
    omega
  · rw [UInt32.le_iff_toNat_le] at hroom
    exact Nat.lt_of_not_le hroom

/-- What a formatted region is in the tool's memory. -/
theorem cmdFormat_ok {size : UInt32} (hcall : cmdFormat size = .ok g) :
    Tidy g ∧ g.sb.totalBlocks = size / 8192 ∧ Balanced 0 g.sb g.vol ∧
      ∃ g₀, Blank (size / 8192) g₀ ∧ SameSuper g₀ g ∧ g.sb = g₀.sb.takeBlock := by
  unfold cmdFormat at hcall
  dsimp only at hcall
  split at hcall
  · cases hcall
  · next hroom =>
    have hblank := blank_blank (layout_laid hroom)
    generalize blank (size / 8192) = g₀ at hblank hcall
    have hroot : g₀.sb.rootInode.toNat = 1 := hblank.laid.rootInode
    have hi : g₀.vol.IsIno 1 := (isIno_iff hblank.laid).2 (by omega)
    rw [hroot] at hcall
    split at hcall
    · cases hcall
    · next g₁ hdot =>
      have hdir : g₀.vol.IsDir 1 := ⟨hi, by rw [hblank.root]; rfl⟩
      have hempty := Vol.entryAt_of_size (hblank.size 1)
      have hshort : g₀.vol.ShortNames 1 := fun n _ _ hn => by
        rw [hempty] at hn
        cases hn
      obtain ⟨hstep, hmode⟩ := addDirent_step hblank.firm hi hdot
      obtain ⟨a, ha⟩ := addDirent_enters hblank.firm hdir hshort (by decide) (by omega) (by omega)
        hdot
      have hsb₁ := hblank.addDirent_sb hdot
      have hi₁ : g₁.vol.IsIno 1 := hstep.isIno.2 hi
      have hdir₁ : g₁.vol.IsDir 1 := ⟨hi₁, hmode.trans hdir.2⟩
      obtain ⟨hstep', hmode'⟩ := addDirent_step hstep.firm hi₁ hcall
      obtain ⟨b, hb⟩ := addDirent_enters hstep.firm hdir₁ (ha.shortNames hshort (by decide))
        (by decide) (by omega) (by omega) hcall
      have hall := hstep.trans hstep'
      -- the block with the first entry has room for the second
      have hsb₂ : g.sb = g₁.sb := by
        rcases addDirent_cases hstep.firm hi₁ hcall with
          ⟨_, _, _, _, _, _, _, _, hsb, _⟩ | ⟨_, _, _, _, _, _, _, _, _, hfull⟩
        · exact hsb
        · obtain ⟨hlt, _⟩ := Vol.entryIn_some ha.now
          have hother : ∀ m, m ≠ a → m < 128 → False := fun m hm hlt' =>
            hfull m (by omega) ((ha.rest hm).trans (hempty m))
          by_cases ha0 : a = 0
          · exact (hother 1 (by omega) (by omega)).elim
          · exact (hother 0 (fun h0 => ha0 h0.symm) (by omega)).elim
      have hab : b ≠ a := by
        rintro rfl
        have hwas := hb.was
        rw [ha.now] at hwas
        cases hwas
      have horderly : Orderly g.vol := by
        refine rootOnly_orderly (hall.firm.laid.rootInode) (hall.isIno.2 hi)
          (hmode'.trans (hmode.trans hdir.2)) (fun i hi' hne => ?_) hab.symm
          ((hb.rest hab.symm).trans ha.now) hb.now fun c hca hcb => ?_
        · rw [hall.evolves.inode (hall.isIno.1 hi') hne, hblank.others i hne]
          rfl
        · rw [hb.rest hcb, ha.rest hca, hempty]
      have hsuper : SameSuper g₀ g := fun x hx =>
        (addDirent_super hstep.firm hi₁ hcall x hx).trans (addDirent_super hblank.firm hi hdot x hx)
      refine ⟨⟨hall.firm, horderly⟩, ?_, hall.accounts hblank.balanced, g₀, hblank, hsuper,
        hsb₂.trans hsb₁⟩
      rw [hsb₂, hsb₁, ← hblank.blocks]
      obtain ⟨_, _, htake⟩ := withFree_takeBlock g₀.sb
      rw [htake]
      rfl

/-- A region is tidy when another one with the same volume is. -/
theorem Tidy.congr (h : Tidy g) {g' : Region} (hlaid : Laid g'.sb) (hvol : g'.vol = g.vol) :
    Tidy g' := by
  refine ⟨⟨hlaid, ?_, ?_, ?_⟩, ?_⟩ <;> rw [hvol]
  · exact h.firm.sound
  · exact h.firm.filled
  · exact h.firm.tight
  · exact h.orderly

end

end Region

/-- **A formatted region** is tidy, and its counter of free blocks is one too
large. -/
theorem format_ok {size : UInt32} {image : Bytes} (hcall : format size = .ok image) :
    Region.Tidy (Region.load image) ∧ (Region.load image).sb.totalBlocks = size / 8192 ∧
      Balanced 1 (Region.load image).sb (Region.load image).vol := by
  unfold format at hcall
  cases hformat : Region.cmdFormat size with
  | error e =>
    rw [hformat] at hcall
    cases hcall
  | ok g =>
    rw [hformat] at hcall
    obtain rfl : g.image = image := Except.ok.inj hcall
    obtain ⟨htidy, htotal, hbalanced, g₀, hblank, hsuper, hsb⟩ := Region.cmdFormat_ok hformat
    have hload : (Region.load g.image).sb = g₀.sb :=
      (Superblock.ofBytes_congr fun a ha => hsuper a ha).trans hblank.super
    have hlaid : Laid (Region.load g.image).sb := hload ▸ hblank.laid
    have hroom := hblank.laid.room
    obtain ⟨blocks, inodes, htake⟩ := withFree_takeBlock g₀.sb
    have hdata : g.sb.dataStart = g₀.sb.dataStart := by
      rw [hsb, htake]
      rfl
    have htotal' : g.sb.totalBlocks = g₀.sb.totalBlocks := htotal.trans hblank.blocks.symm
    have hvol : (Region.load g.image).vol = g.vol := by
      refine volOf_laid_congr htidy.firm.laid hlaid ?_ ?_
      · rw [hload, hdata]
      · rw [hload, htotal']
    refine ⟨htidy.congr hlaid hvol, by rw [hload, hblank.blocks], ?_, ?_⟩
    · have hfree := hbalanced.count
      have hbefore := hblank.balanced.count
      have hclear := hblank.clearCount
      rw [hblank.data, hblank.blocks] at hroom
      have hpos : 0 < g₀.sb.freeBlocks.toNat := by omega
      have hone : (1 : UInt32) ≤ g₀.sb.freeBlocks := by
        rw [UInt32.le_iff_toNat_le]
        exact hpos
      rw [hsb, Superblock.takeBlock, if_pos hpos] at hfree
      rw [UInt32.toNat_sub_of_le _ _ hone] at hfree
      change g₀.sb.freeBlocks.toNat - 1 = _ at hfree
      rw [hload, hvol]
      omega
    · have hds := hlaid.dataStart
      show 1 ≤ (Region.load g.image).sb.dataStart.toNat
      omega

end Mkfs

end LufiraFs
