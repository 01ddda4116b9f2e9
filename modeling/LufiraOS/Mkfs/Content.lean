import LufiraOS.Mkfs.Nodes
import LufiraOS.Volume.Content

/-!
# The contents of files under the host tool

The loop of `cmd_put` fills the blocks of a file one after the other, behind a
copy of its record.  When the record is written the file holds the bytes that
were put, and no other file has changed.
-/

namespace LufiraFs

open ByteStore

namespace Mkfs

namespace Region

/-- The copy `r` of the record of `ino` has become `r'` while blocks of `ino` were
filled. -/
structure Fills (ino : Nat) (r r' : Inode) (g g' : Region) : Prop where
  laid : Laid g'.sb
  table : g'.vol.inode = g.vol.inode
  sound : Sound (g'.vol.setInode ino r')
  evolves : Evolves {ino} g.vol g'.vol
  attrs : SameAttrs r r'
  accounts : ∀ {k}, Balanced k g.sb g.vol → Balanced k g'.sb g'.vol

section

variable {g g₁ g' g'' : Region} {ino : Nat} {r r₁ r' r'' : Inode}

theorem Fills.refl (h : Laid g.sb) (hs : Sound (g.vol.setInode ino r)) : Fills ino r r g g :=
  ⟨h, rfl, hs, .refl _ _, .refl _, id⟩

theorem Fills.trans (h : Fills ino r r' g g') (h' : Fills ino r' r'' g' g'') :
    Fills ino r r'' g g'' :=
  ⟨h'.laid, h'.table.trans h.table, h'.sound, h.evolves.trans h'.evolves, h.attrs.trans h'.attrs,
    fun hk => h'.accounts (h.accounts hk)⟩

/-- One round of the loop: block `b` gets the contents `blk`. -/
theorem fillBlock (h : Laid g.sb) (hi : g.vol.IsIno ino) (hs : Sound (g.vol.setInode ino r))
    {b bn : Nat} (hcall : g.inodeGetBlock r b true = .ok (bn, r₁, g₁)) (blk : Bytes) :
    Fills ino r r₁ g (g₁.setBlock bn blk) ∧ ∀ c, (g₁.setBlock bn blk).vol.fetch r₁ c =
        if c = b then some (bn, window blk 0 8192) else g.vol.fetch r c := by
  obtain ⟨hgrow, hne, hblock⟩ := inodeGetBlock_growth h hi hs hcall
  have hi₁ : g₁.vol.IsIno ino := hgrow.isIno.2 hi
  have hin : g₁.vol.InData bn := by
    have hrange := hgrow.gains.sound.blockOf_inData (b := b) hi₁
    rw [hblock] at hrange
    exact hrange hne
  have hvol := setBlock_vol hgrow.laid hin blk
  obtain ⟨hsound, hev⟩ := hgrow.gains.sound.rewrite hi₁ (hblock.symm ▸ hne) (.refl r₁)
    (window blk 0 8192)
  rw [hblock] at hsound hev
  have hattrs := hgrow.gains.attrs
  rw [Vol.setInode_inode_same, Vol.setInode_inode_same] at hattrs
  refine ⟨⟨hgrow.laid, ?_, ?_, ?_, hattrs, ?_⟩, fun c => ?_⟩
  · rw [hvol]
    exact hgrow.table
  · rw [hvol]
    exact hsound
  · rw [hvol]
    exact (Evolves.of_setInode hgrow.gains.evolves).trans hev
  · intro k hk
    rw [hvol]
    exact (hgrow.accounts hk).congr (Vol.setBlock_geo _ _ _) rfl
  have hput := hgrow.gains.sound.fetch_setBlock (c := b) (d := ino) hi₁
    (dataStart_pos hgrow.laid) hin (by rw [Vol.setInode_inode_same]; exact hblock.symm)
    (window blk 0 8192) c
  rw [Vol.setInode_inode_same] at hput
  rw [hvol]
  refine hput.trans ?_
  split
  · rfl
  · next hcb =>
    exact (hgrow.gains.fetch_eq (dataStart_pos h) fun s hs => notMem_slotsFor hcb hs).1

/-- **The loop of `cmd_put`** from a block boundary on. -/
theorem putLoop_fills {data : Bytes} {fuel pos remaining : Nat} (h : Laid g.sb)
    (hi : g.vol.IsIno ino) (hs : Sound (g.vol.setInode ino r)) (hfuel : remaining ≤ fuel)
    (hpos : pos % 8192 = 0 ∨ remaining = 0)
    (hcall : putLoop data fuel pos remaining r g = .ok (r', g')) :
    Fills ino r r' g g' ∧ (∀ b, b * 8192 < pos → g'.vol.fetch r' b = g.vol.fetch r b) ∧
      ∀ b, pos ≤ b * 8192 → b * 8192 < pos + remaining →
        ∃ bn blk, g'.vol.fetch r' b = some (bn, blk) ∧
          ∀ j, j < 8192 → b * 8192 + j < pos + remaining → blk j = data (b * 8192 + j) := by
  induction fuel generalizing pos remaining r g with
  | zero =>
    cases hcall
    exact ⟨.refl h hs, fun _ _ => rfl, fun b hlo hhi => by omega⟩
  | succ fuel ih =>
    rw [putLoop] at hcall
    split at hcall
    · cases hcall
      exact ⟨.refl h hs, fun _ _ => rfl, fun b hlo hhi => by omega⟩
    · next hmore =>
      have hoff : pos % 8192 = 0 := hpos.resolve_right hmore
      dsimp only at hcall
      rw [hoff, Nat.sub_zero] at hcall
      generalize hchunk : min 8192 remaining = chunk at hcall
      split at hcall
      · cases hcall
      · next bn r₁ g₁ hget =>
        obtain ⟨hfill, hfetch⟩ := fillBlock h hi hs hget
          (copyIn (g₁.block bn) 0 chunk fun i => data (pos + i))
        obtain ⟨hrest, hkept, hfilled⟩ := ih hfill.laid (hfill.evolves.geo.isIno.2 hi)
          hfill.sound (by omega) (by omega) hcall
        have hend : pos + chunk + (remaining - chunk) = pos + remaining := by omega
        rw [hend] at hfilled
        refine ⟨hfill.trans hrest, fun b hb => ?_, fun b hlo hhi => ?_⟩
        · rw [hkept b (by omega), hfetch, if_neg (by omega)]
        by_cases hthis : b = pos / 8192
        · -- the block of this round is not touched by the later ones
          have hstart : b * 8192 = pos := by
            rw [hthis]
            exact Nat.div_mul_cancel (Nat.dvd_of_mod_eq_zero hoff)
          have hbefore : b * 8192 < pos + chunk := by
            rw [hstart]
            omega
          refine ⟨bn, _, by rw [hkept b hbefore, hfetch, if_pos hthis], fun j hj hlt => ?_⟩
          rw [hstart] at hlt ⊢
          have hin : j < 0 + chunk := by
            rw [Nat.zero_add, ← hchunk]
            exact Nat.lt_min.2 ⟨hj, Nat.lt_of_add_lt_add_left hlt⟩
          rw [window_apply hj, Nat.zero_add]
          exact copyIn_inside (Nat.zero_le j) hin
        · exact hfilled b (by omega) hhi

/-- **Writing a file** that is not a directory. -/
theorem putFile_holds {data : Bytes} {len : UInt32} (h : Firm g) (hi : g.vol.IsIno ino)
    (hfile : ¬ g.vol.IsDir ino)
    (hcall : putLoop data len.toNat 0 len.toNat (g.readInode ino) g = .ok (r', g')) :
    Step {ino} g (g'.writeInode ino (r'.setSize len)) ∧
      ((g'.writeInode ino (r'.setSize len)).vol.inode ino).mode = (g.vol.inode ino).mode ∧
      (g'.writeInode ino (r'.setSize len)).vol.Holds ino data len := by
  rw [← vol_inode hi] at hcall
  obtain ⟨hfill, _, hbytes⟩ := putLoop_fills h.laid hi (by rw [Vol.setInode_self]; exact h.sound)
    (Nat.le_refl _) (Or.inl rfl) hcall
  rw [Nat.zero_add] at hbytes
  have hi' := hfill.evolves.geo.isIno.2 hi
  have hvol := writeInode_vol hfill.laid hi' (r'.setSize len)
  generalize hg : g'.writeInode ino (r'.setSize len) = g₂ at hvol
  have hlaid : Laid g₂.sb := by
    rw [← hg]
    exact hfill.laid
  have hrec : g₂.vol.inode ino = r'.setSize len := by rw [hvol, Vol.setInode_inode_same]
  have hmode : (g₂.vol.inode ino).mode = (g.vol.inode ino).mode := by
    rw [hrec]
    exact hfill.attrs.mode
  have hfetch : ∀ b, g₂.vol.fetch (g₂.vol.inode ino) b = g'.vol.fetch r' b := by
    intro b
    rw [hrec, hvol]
    exact (SamePtrs.setSize r' len).fetch_eq g'.vol b
  have hsound : Sound g₂.vol := by
    have hset := hfill.sound.setInode (i := ino) (r := r'.setSize len) fun s => Or.inl (by
      rw [(SamePtrs.setSize r' len).ptrOf_eq, Vol.setInode_ptr_same]
      rfl)
    rwa [Vol.setInode_setInode, ← hvol] at hset
  have hev : Evolves {ino} g.vol g₂.vol := by
    rw [hvol]
    exact hfill.evolves.trans (.setInode _ _ _)
  have hholds : g₂.vol.Holds ino data len := by
    refine ⟨by rw [hrec]; rfl, fun b hb => ?_⟩
    rw [hfetch]
    exact hbytes b (Nat.zero_le _) hb
  refine ⟨⟨h.evolve hlaid hsound hev (fun b hb => ?_) (fun hdir => ?_), hev, fun {k} hk => ?_⟩,
    hmode, hholds⟩
  · rw [hholds.size] at hb
    obtain ⟨bn, blk, hblk, _⟩ := hholds.bytes b (by unfold blocksOf at hb; omega)
    rw [hblk]
    exact Option.some_ne_none _
  · exact absurd ⟨hi, by rw [← hmode]; exact hdir.2⟩ hfile
  · rw [hvol, ← hg]
    exact (hfill.accounts hk).congr (Vol.setInode_geo _ _ _) rfl

end

end Region

end Mkfs

end LufiraFs
