import LufiraOS.Mkfs.View

/-!
# Directories under the host tool

The tool trusts the block numbers it finds: `add_dirent` uses every block of the
directory without asking whether there is one.  `Firm` is what makes this right:
ownership, no holes in any file, and no blocks behind the last one of a
directory.
-/

namespace LufiraFs

open ByteStore Vol

/-- The file `i` has all the blocks its size asks for. -/
def Vol.Filled (V : Vol) (i : Nat) : Prop :=
  ∀ b, b < blocksOf (V.inode i).size.toNat → V.fetch (V.inode i) b ≠ none

/-- The file `i` has no blocks behind the last one its size asks for. -/
def Vol.Tight (V : Vol) (i : Nat) : Prop :=
  ∀ b, blocksOf (V.inode i).size.toNat ≤ b → V.fetch (V.inode i) b = none

/-- A block that cannot be fetched is none. -/
theorem Sound.blockOf_of_fetch {V : Vol} (h : Sound V) {i b : Nat} (hi : V.IsIno i)
    (hnone : V.fetch (V.inode i) b = none) : blockOf V.block (V.inode i) b = 0 := by
  by_contra hne
  have hin := Sound.blockOf_inData (r := V.inode i) (by rw [setInode_self]; exact h) hi hne
  rw [fetch, if_pos hin] at hnone
  cases hnone

namespace Mkfs

/-- A block after entry `k` is filled by the tool. -/
theorem direntAt_putEntry {blk : Bytes} {k j : Nat} {ino : UInt32} {name : CStr} (hk : k < 128)
    (hj : j < 128) (hino : ino ≠ 0) (hname : name.length ≤ 59) (hshort : ShortAt blk j) :
    direntAt (window (Region.putEntry blk k ino name) 0 8192) j =
      if j = k then some (ino.toNat, name) else direntAt blk j := by
  refine direntAt_filled hk hj hino (Nat.lt_succ_of_le hname) (Nat.le_refl 60) hshort fun a ha => ?_
  rw [window_apply ha, Nat.zero_add, Region.putEntry, List.take_of_length_le hname]

namespace Region

/-- A region the tool can work on. -/
structure Firm (g : Region) : Prop where
  laid : Laid g.sb
  sound : Sound g.vol
  filled : ∀ {i}, g.vol.IsIno i → g.vol.Filled i
  tight : ∀ {d}, g.vol.IsDir d → g.vol.Tight d

/-- A step of the tool that touched the files in `S`. -/
structure Step (S : Set Nat) (g g' : Region) : Prop where
  firm : Firm g'
  evolves : Evolves S g.vol g'.vol
  accounts : ∀ {k}, Balanced k g.sb g.vol → Balanced k g'.sb g'.vol

section

variable {g g' g'' : Region} {S S' : Set Nat} {d : Nat} {name : CStr} {i b : Nat}

namespace Step

theorem refl (h : Firm g) (S : Set Nat) : Step S g g := ⟨h, .refl _ _, id⟩

theorem trans (h : Step S g g') (h' : Step S g' g'') : Step S g g'' :=
  ⟨h'.firm, h.evolves.trans h'.evolves, fun hk => h'.accounts (h.accounts hk)⟩

theorem mono (h : Step S g g') (hS : S ⊆ S') : Step S' g g' :=
  { h with evolves := h.evolves.mono hS }

theorem isIno (h : Step S g g') {i : Nat} : g'.vol.IsIno i ↔ g.vol.IsIno i := h.evolves.geo.isIno

end Step

section

variable (h : Firm g)

include h

/-- Only the touched files have to be looked at. -/
theorem Firm.evolve (hlaid : Laid g'.sb) (hsound : Sound g'.vol)
    (hev : Evolves {i} g.vol g'.vol) (hfilled : g'.vol.Filled i)
    (htight : g'.vol.IsDir i → g'.vol.Tight i) : Firm g' := by
  refine ⟨hlaid, hsound, fun {j} hj => ?_, fun {j} hj => ?_⟩
  · by_cases hji : j = i
    · subst hji
      exact hfilled
    have hj' := hev.geo.isIno.1 hj
    intro b hb
    rw [hev.inode hj' hji] at hb
    rw [hev.fetch_eq (dataStart_pos h.laid) hj' hji]
    exact h.filled hj' b hb
  by_cases hji : j = i
  · subst hji
    exact htight hj
  have hj' := hev.geo.isIno.1 hj.1
  intro b hb
  rw [hev.inode hj' hji] at hb
  rw [hev.fetch_eq (dataStart_pos h.laid) hj' hji]
  exact h.tight ⟨hj', by rw [← hev.inode hj' hji]; exact hj.2⟩ b hb

/-! ## Looking up -/

theorem blockOf_cases (hi : g.vol.IsIno i) (b : Nat) :
    (blockOf g.vol.block (g.vol.inode i) b = 0 ∧ g.vol.fetch (g.vol.inode i) b = none) ∨
    (g.vol.InData (blockOf g.vol.block (g.vol.inode i) b) ∧
      g.vol.fetch (g.vol.inode i) b = some (blockOf g.vol.block (g.vol.inode i) b,
        g.block (blockOf g.vol.block (g.vol.inode i) b))) := by
  by_cases hz : blockOf g.vol.block (g.vol.inode i) b = 0
  · left
    refine ⟨hz, if_neg fun hin => ?_⟩
    rw [hz] at hin
    exact vol_pos h.laid hin rfl
  right
  have hin := Sound.blockOf_inData (r := g.vol.inode i)
    (by rw [setInode_self]; exact h.sound) hi hz
  exact ⟨hin, by rw [fetch, if_pos hin, vol_block h.laid hin]⟩

theorem inodeGetBlock_blockOf {bn : Nat} {r : Inode} (hi : g.vol.IsIno i)
    (hcall : g.inodeGetBlock (g.vol.inode i) b false = .ok (bn, r, g')) :
    bn = blockOf g.vol.block (g.vol.inode i) b :=
  inodeGetBlock_lookup h.laid hi (by rw [setInode_self]; exact h.sound) hcall

section

variable (hd : g.vol.IsIno d)

include hd

theorem lookupBlocks_ok {n : Nat} {res : Option Nat}
    (hcall : g.lookupBlocks (g.vol.inode d) name b n = .ok res) :
    g.vol.lookupBlocks (g.vol.inode d) name b n = res := by
  induction n generalizing b with
  | zero =>
    rw [lookupBlocks] at hcall
    cases hcall
    rfl
  | succ n ih =>
    rw [lookupBlocks] at hcall
    split at hcall
    · cases hcall
    · next bn r g' hget =>
      obtain rfl := inodeGetBlock_blockOf h hd hget
      rw [Vol.lookupBlocks]
      rcases blockOf_cases h hd b with ⟨hz, hfetch⟩ | ⟨hin, hfetch⟩
      · rw [if_pos hz] at hcall
        rw [hfetch]
        exact ih hcall
      rw [if_neg (vol_pos h.laid hin)] at hcall
      rw [hfetch]
      dsimp only
      cases hentry : findEntry (g.block (blockOf g.vol.block (g.vol.inode d) b)) name 0 128 with
      | some i =>
        rw [hentry] at hcall
        exact Except.ok.inj hcall
      | none =>
        rw [hentry] at hcall
        exact ih hcall

/-- **`lookup_in_dir`** of the tool is the lookup of the volume. -/
theorem lookupInDir_ok {res : Option Nat}
    (hcall : g.lookupInDir d name = .ok res) : g.vol.lookupIn d name = res := by
  unfold lookupInDir at hcall
  rw [← vol_inode hd] at hcall
  dsimp only at hcall
  unfold lookupIn
  split at hcall
  · next hmode =>
    rw [if_neg (fun hc => hmode hc.2)]
    exact Except.ok.inj hcall
  · next hmode =>
    rw [if_pos ⟨hd, not_not.1 hmode⟩]
    exact lookupBlocks_ok h hd hcall

/-! ## Adding an entry -/

theorem addDirentBlocks_ok {n : Nat} {res : Option Region}
    (hn : b + n ≤ blocksOf (g.vol.inode d).size.toNat)
    (hcall : g.addDirentBlocks (g.vol.inode d) name i b n = .ok res) :
    (res = none ∧ ∀ c, b ≤ c → c < b + n →
      findUnused (g.block (blockOf g.vol.block (g.vol.inode d) c)) 0 128 = none) ∨
    ∃ c bn k, res = some (g.setBlock bn (putEntry (g.block bn) k (UInt32.ofNat i) name)) ∧
      c < blocksOf (g.vol.inode d).size.toNat ∧ g.vol.InData bn ∧
      bn = blockOf g.vol.block (g.vol.inode d) c ∧ findUnused (g.block bn) 0 128 = some k := by
  induction n generalizing b with
  | zero =>
    rw [addDirentBlocks] at hcall
    exact .inl ⟨(Except.ok.inj hcall).symm, fun c hlo hhi => by omega⟩
  | succ n ih =>
    rw [addDirentBlocks] at hcall
    split at hcall
    · cases hcall
    · next bn r g' hget =>
      obtain rfl := inodeGetBlock_blockOf h hd hget
      rcases blockOf_cases h hd b with ⟨_, hfetch⟩ | ⟨hin, _⟩
      · exact absurd hfetch (h.filled hd b (by omega))
      split at hcall
      · next k hfree =>
        exact .inr ⟨b, _, k, (Except.ok.inj hcall).symm, by omega, hin, rfl, hfree⟩
      · next hfull =>
        refine (ih (by omega) hcall).imp_left fun ⟨hres, hrest⟩ => ⟨hres, fun c hlo hhi => ?_⟩
        by_cases hcb : c = b
        · subst hcb
          exact hfull
        · exact hrest c (by omega) (by omega)

section

variable (hcall : g.addDirent d name i = .ok g')

include hcall

/-- **What `add_dirent` does when it returns**: it fills an unused entry, or grows
the directory by a block. -/
theorem addDirent_cases :
    (∃ c bn k, c < blocksOf (g.vol.inode d).size.toNat ∧ g.vol.InData bn ∧
      bn = blockOf g.vol.block (g.vol.inode d) c ∧ findUnused (g.block bn) 0 128 = some k ∧
      SameSuper g g' ∧ g'.sb = g.sb ∧ g'.vol = g.vol.setBlock bn
        (window (putEntry (g.block bn) k (UInt32.ofNat i) name) 0 8192)) ∨
    (∃ bn r' g₁, Growth d (slotsFor (blocksOf (g.vol.inode d).size.toNat)) (g.vol.inode d) r' g g₁ ∧
      bn ≠ 0 ∧ blockOf g₁.vol.block r' (blocksOf (g.vol.inode d).size.toNat) = bn ∧
      SameSuper g g' ∧ g'.sb = g₁.sb ∧ g'.vol = (g₁.vol.setBlock bn
          (window (putEntry (g₁.vol.block bn) 0 (UInt32.ofNat i) name) 0 8192)).setInode d
        (r'.setSize (UInt32.ofNat ((blocksOf (g.vol.inode d).size.toNat + 1) * 8192))) ∧
      ∀ n, n < blocksOf (g.vol.inode d).size.toNat * 128 → g.vol.entryAt d n ≠ none) := by
  have hself : Sound (g.vol.setInode d (g.vol.inode d)) := by
    rw [setInode_self]
    exact h.sound
  unfold addDirent at hcall
  rw [← vol_inode hd] at hcall
  dsimp only at hcall
  split at hcall
  · cases hcall
  · next g₁ hblocks =>
    left
    cases hcall
    rcases addDirentBlocks_ok h hd (by omega) hblocks with
      ⟨hnone, _⟩ | ⟨c, bn, k, hsome, hc, hin, hbn, hk⟩
    · cases hnone
    · cases hsome
      exact ⟨c, bn, k, hc, hin, hbn, hk, setBlock_super (vol_pos h.laid hin) _, rfl,
        setBlock_vol h.laid hin _⟩
  · next hblocks =>
    right
    have hfull : ∀ n, n < blocksOf (g.vol.inode d).size.toNat * 128 → g.vol.entryAt d n ≠ none := by
      intro n hn
      rcases addDirentBlocks_ok h hd (by omega) hblocks with
        ⟨_, hused⟩ | ⟨_, _, _, hsome, _⟩
      · rcases blockOf_cases h hd (n / 128) with ⟨_, hfetch⟩ | ⟨_, hfetch⟩
        · exact absurd hfetch (h.filled hd _ (by omega))
        have hne := findUnused_none (hused (n / 128) (by omega) (by omega)) (n % 128)
          (by omega) (by omega)
        simp [entryAt, entryIn, hn, hfetch, direntAt, hne]
      · cases hsome
    split at hcall
    · cases hcall
    · next bn r' g₁ hget =>
      obtain ⟨hgrow, hne, hblock⟩ := inodeGetBlock_growth h.laid hd hself hget
      cases hcall
      have hd₁ : g₁.vol.IsIno d := hgrow.isIno.2 hd
      have hin : g₁.vol.InData bn := by
        have hrange := hgrow.gains.sound.blockOf_inData
          (b := blocksOf (g.vol.inode d).size.toNat) hd₁
        rw [hblock] at hrange
        exact hrange hne
      have hsize : r'.size = (g.vol.inode d).size := by simpa using hgrow.gains.attrs.size
      have hput := setBlock_vol hgrow.laid hin (putEntry (g₁.block bn) 0 (UInt32.ofNat i) name)
      have hi' : (g₁.setBlock bn (putEntry (g₁.block bn) 0 (UInt32.ofNat i) name)).vol.IsIno d := by
        rw [hput]
        exact hd₁
      refine ⟨bn, r', g₁, hgrow, hne, hblock, fun a ha => ?_, rfl, ?_, hfull⟩
      · rw [writeInode_super (g := g₁.setBlock bn _) hgrow.laid hi' _ a ha,
          setBlock_super hne _ a ha,
          hgrow.super a ha]
      · rw [writeInode_vol (g := g₁.setBlock bn _) hgrow.laid hi', hput, hsize,
          vol_block hgrow.laid hin]

/-- **`add_dirent`** touches the directory it adds to. -/
theorem addDirent_step :
    Step {d} g g' ∧ (g'.vol.inode d).mode = (g.vol.inode d).mode := by
  have h0 := dataStart_pos h.laid
  rcases addDirent_cases h hd hcall with
    ⟨c, bn, k, hc, hin, hbn, _, _, hsb, hvol⟩ | ⟨bn, r', g₁, hgrow, hne, hblock, _, hsb, hvol, _⟩
  · have hself : Sound (g.vol.setInode d (g.vol.inode d)) := by
      rw [setInode_self]
      exact h.sound
    have hne : blockOf g.vol.block (g.vol.inode d) c ≠ 0 := hbn ▸ vol_pos h.laid hin
    generalize window (putEntry (g.block bn) k (UInt32.ofNat i) name) 0 8192 = blk at hvol
    obtain ⟨hsound, hev⟩ := hself.rewrite hd hne (.refl _) blk
    rw [← hbn] at hsound hev
    have hrec : (g.vol.setBlock bn blk).setInode d (g.vol.inode d) = g'.vol := by
      rw [hvol, setBlock_setInode, setInode_self]
    rw [hrec] at hsound
    rw [← hvol] at hev
    have hinode : g'.vol.inode = g.vol.inode := by
      rw [hvol]
      rfl
    have hfetch : ∀ b, g'.vol.fetch (g'.vol.inode d) b = if b = c then some (bn, blk)
        else g.vol.fetch (g.vol.inode d) b := by
      intro b
      rw [hinode, hvol]
      exact h.sound.fetch_setBlock hd h0 hin hbn _ b
    refine ⟨⟨h.evolve (hsb ▸ h.laid) hsound hev ?_ ?_, hev, ?_⟩, by rw [hinode]⟩
    · intro b hb
      rw [hinode] at hb
      rw [hfetch]
      split
      · simp
      · exact h.filled hd b hb
    · intro hdir b hb
      rw [hinode] at hb
      rw [hfetch, if_neg (by omega)]
      exact h.tight ⟨hd, by rw [← hinode]; exact hdir.2⟩ b hb
    intro k hk
    rw [hvol, hsb]
    exact hk.congr (setBlock_geo _ _ _) rfl
  · have hd₁ : g₁.vol.IsIno d := hgrow.isIno.2 hd
    generalize window (putEntry (g₁.vol.block bn) 0 (UInt32.ofNat i) name) 0 8192 = blk at hvol
    obtain ⟨hsound, hev⟩ := hgrow.gains.sound.rewrite hd₁ (hblock.symm ▸ hne)
      (.setSize r' (UInt32.ofNat ((blocksOf (g.vol.inode d).size.toNat + 1) * 8192))) blk
    rw [hblock] at hsound hev
    rw [← hvol] at hsound
    have hall : Evolves {d} g.vol g'.vol := by
      rw [hvol]
      exact ((Evolves.of_setInode hgrow.gains.evolves).trans hev).trans (Evolves.setInode _ _ _)
    have hrec : g'.vol.inode d =
        r'.setSize (UInt32.ofNat ((blocksOf (g.vol.inode d).size.toNat + 1) * 8192)) := by
      rw [hvol, setInode_inode_same]
    have hmode : (g'.vol.inode d).mode = (g.vol.inode d).mode := by
      have hsame : r'.mode = (g.vol.inode d).mode := by simpa using hgrow.gains.attrs.mode
      rw [hrec]
      exact hsame
    have hsize : blocksOf (g'.vol.inode d).size.toNat =
        blocksOf (g.vol.inode d).size.toNat + 1 := by
      rw [hrec]
      exact blocksOf_grow (hblock.symm ▸ hne)
    have hfetch : ∀ b, g'.vol.fetch (g'.vol.inode d) b =
        if b = blocksOf (g.vol.inode d).size.toNat then some (bn, blk)
        else g.vol.fetch (g.vol.inode d) b := by
      intro b
      rw [hrec, hvol]
      exact hgrow.gains.fetch_grow h0 hd hne hblock _ b
    refine ⟨⟨h.evolve (hsb ▸ hgrow.laid) hsound hall ?_ ?_, hall, ?_⟩, hmode⟩
    · intro b hb
      rw [hsize] at hb
      rw [hfetch]
      split
      · simp
      · exact h.filled hd b (by omega)
    · intro hdir b hb
      rw [hsize] at hb
      rw [hfetch, if_neg (by omega)]
      exact h.tight ⟨hd, by rw [← hmode]; exact hdir.2⟩ b (by omega)
    intro k hk
    rw [hvol, hsb]
    exact (hgrow.accounts hk).congr ⟨rfl, rfl, rfl, rfl⟩ rfl

theorem addDirent_super : SameSuper g g' := by
  rcases addDirent_cases h hd hcall with
    ⟨_, _, _, _, _, _, _, hsuper, _⟩ | ⟨_, _, _, _, _, _, hsuper, _⟩
  · exact hsuper
  · exact hsuper

end

end

/-- **`add_dirent`** fills one unused position of a directory. -/
theorem addDirent_enters (hd : g.vol.IsDir d) (hshort : g.vol.ShortNames d)
    (hname : name.length ≤ 59) (hi0 : i ≠ 0) (hi : i < 4294967296)
    (hcall : g.addDirent d name i = .ok g') : ∃ n, Enters d n i name g.vol g'.vol := by
  have h0 := dataStart_pos h.laid
  have hino := ofNat_ne_zero hi0 hi
  rcases addDirent_cases h hd.1 hcall with
    ⟨c, bn, k, hc, hin, hbn, hk, _, _, hvol⟩ | ⟨bn, r', g₁, hgrow, hne, hblock, _, _, hvol, _⟩
  · obtain ⟨_, hklt, hunused⟩ := findUnused_some hk
    have hblock := vol_block h.laid hin
    refine ⟨c * 128 + k, hvol ▸ h.sound.enters_write hd.1 h0 hin hbn hc (by omega)
      (by rw [hblock, hunused]) fun j hj => ?_⟩
    rw [hblock, direntAt_putEntry (by omega) hj hino hname
      (hshort.shortAt hc hj (hblock ▸ fetch_of_blockOf hin hbn)), toNat_ofNat_lt hi]
  · -- a directory has no block behind its last one, so the new block is zeroed
    have hnone := h.sound.blockOf_of_fetch hd.1 (h.tight hd _ (Nat.le_refl _))
    have hzeros : g₁.vol.block bn = zeros := by
      obtain ⟨s, hs, hslot, hptr⟩ := exists_slot_of_blockOf (hblock.symm ▸ hne)
      have hfresh := hgrow.gains.fresh (s := s) hslot
      rw [setInode_ptr_same, setInode_ptr_same, hptr, hblock, ← blockOf_eq hs] at hfresh
      exact hfresh hnone hne
    rw [hzeros] at hvol
    refine ⟨blocksOf (g.vol.inode d).size.toNat * 128, hvol ▸ enters_grow
      (hgrow.gains.entryAt_grow h0 hd.1 hne hblock _) fun j hj => ?_⟩
    rw [direntAt_putEntry (by omega) hj hino hname fun _ _ hused => by simp at hused,
      toNat_ofNat_lt hi, direntAt_zeros]

end

end

end Region

end Mkfs

end LufiraFs
