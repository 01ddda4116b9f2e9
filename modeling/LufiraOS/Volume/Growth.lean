import LufiraOS.Volume.Ownership

/-!
# How files gain and lose blocks

The steps by which a file gains and loses blocks, on top of `Sound.attach` and
`Sound.shrink`: a fresh block number goes into a direct slot, the indirect slot
or an entry of the indirect block; a block number is dropped and its mark
cleared.

`Gains i T V V'` is what a growing file can rely on: its record keeps
everything but the block numbers in the slots `T`, the blocks it had keep their
contents, and the blocks it has gained are zeroed.
-/

namespace LufiraFs

open ByteStore Vol

variable {b : Nat} {r r' : Inode}

theorem toNat_ofNat_lt (hb : b < 4294967296) : (UInt32.ofNat b).toNat = b := by
  rw [UInt32.toNat_ofNat']
  exact Nat.mod_eq_of_lt hb

theorem ofNat_ne_zero (h0 : b ≠ 0) (hb : b < 4294967296) : UInt32.ofNat b ≠ 0 := by
  intro hz
  have hzero := congrArg UInt32.toNat hz
  rw [toNat_ofNat_lt hb] at hzero
  exact h0 hzero

@[simp] theorem window_zeros (off len : Nat) : window zeros off len = zeros := by
  funext i
  simp [window]

/-- Two records hold the same block numbers. -/
structure SamePtrs (r r' : Inode) : Prop where
  direct : r'.direct = r.direct
  indirect : r'.indirect = r.indirect

theorem SamePtrs.refl (r : Inode) : SamePtrs r r := ⟨rfl, rfl⟩

theorem SamePtrs.setSize (r : Inode) (size : UInt32) : SamePtrs r (r.setSize size) := ⟨rfl, rfl⟩

theorem SamePtrs.ptrOf_eq (h : SamePtrs r r') (block : Nat → Bytes) (s : Slot) :
    ptrOf block r' s = ptrOf block r s := by
  cases s <;> simp [ptrOf, h.direct, h.indirect]

/-- A record without block numbers. -/
theorem ptrOf_of_none (hd : r.direct = fun _ => 0) (hi : r.indirect = 0)
    (block : Nat → Bytes) (s : Slot) : ptrOf block r s = 0 := by
  cases s <;> simp [ptrOf, hd, hi]

namespace Sound

variable {V : Vol} {i b : Nat}

/-- A new direct pointer shows in its slot only. -/
theorem setDirect_ptr_ne (V : Vol) (i : Nat) {k : Fin 12} (v : UInt32) {s : Slot}
    (hs : s ≠ .direct k) :
    (V.setInode i ((V.inode i).setDirect k v)).ptr i s = V.ptr i s := by
  rw [setInode_ptr_same]
  cases s with
  | direct k' =>
    have hk : k' ≠ k := fun hk => hs (by rw [hk])
    simp [ptr, ptrOf, Inode.setDirect, hk]
  | indirect => rfl
  | entry e => rfl

/-- So does an indirect block that is all zero, where there was none. -/
theorem setIndirect_ptr_ne {s : Slot} (hlt : b < 4294967296) (hempty : (V.inode i).indirect = 0)
    (hzero : V.block b = zeros) (hs : s ≠ .indirect) :
    (V.setInode i ((V.inode i).setIndirect (UInt32.ofNat b))).ptr i s = V.ptr i s := by
  rw [setInode_ptr_same]
  cases s with
  | direct k => rfl
  | indirect => exact absurd rfl hs
  | entry e => simp [ptr, ptrOf, Inode.setIndirect, toNat_ofNat_lt hlt, hempty, hzero]

/-- Storing a fresh block in an empty direct slot. -/
theorem attachDirect (h : Sound V) (hb : Fresh V b) (hlt : b < 4294967296) {k : Fin 12} :
    Sound (V.setInode i ((V.inode i).setDirect k (UInt32.ofNat b))) := by
  refine h.attach i (.direct k) hb (V.setInode_geo _ _) rfl ?_ ?_
  · rw [setInode_ptr_same]
    simp [ptrOf, Inode.setDirect, toNat_ofNat_lt hlt]
  intro j s _ hat
  by_cases hji : j = i
  · subst hji
    exact setDirect_ptr_ne V j _ fun hs => hat ⟨rfl, hs⟩
  · exact setInode_ptr_ne V _ s hji

/-- Storing a fresh zeroed block in an empty indirect slot. -/
theorem attachIndirect (h : Sound V) (hb : Fresh V b) (hlt : b < 4294967296)
    (hempty : (V.inode i).indirect = 0) (hzero : V.block b = zeros) :
    Sound (V.setInode i ((V.inode i).setIndirect (UInt32.ofNat b))) := by
  refine h.attach i .indirect hb (V.setInode_geo _ _) rfl ?_ ?_
  · rw [setInode_ptr_same]
    exact toNat_ofNat_lt hlt
  intro j s _ hat
  by_cases hji : j = i
  · subst hji
    exact setIndirect_ptr_ne hlt hempty hzero fun hs => hat ⟨rfl, hs⟩
  · exact setInode_ptr_ne V _ s hji

/-- The entries of an indirect block after one of them is replaced. -/
theorem entry_putWord (blk : Bytes) (e e' : Fin 2048) (v : UInt32) :
    word32 (window (putWord blk (4 * e.val) v) 0 8192) (4 * e'.val) =
      if e' = e then v else word32 blk (4 * e'.val) := by
  rw [word32_window (by omega), Nat.zero_add]
  by_cases he : e' = e
  · subst he
    simp
  · rw [if_neg he, word32_putWord_disjoint (by omega)]

/-- Replacing the indirect block of `i` keeps the pointers of the other files. -/
theorem setIndirectBlock_ptr_ne (h : Sound V) (hi : V.IsIno i) (hne : (V.inode i).indirect ≠ 0)
    (blk : Bytes) {j : Nat} (hj : V.IsIno j) (hji : j ≠ i) (s : Slot) :
    (V.setBlock (V.inode i).indirect.toNat blk).ptr j s = V.ptr j s := by
  apply setBlock_ptr
  intro _ heq
  have hptr : V.ptr i .indirect ≠ 0 := fun h0 => hne (UInt32.toNat_inj.1 h0)
  exact hji (h.inj (t := .indirect) (s := .indirect) hi hj hptr heq.symm).1.symm

/-- The pointers of `i` after its indirect block is replaced. -/
theorem setIndirectBlock_ptr_same (hne : (V.inode i).indirect ≠ 0) (blk : Bytes) (s : Slot) :
    (V.setBlock (V.inode i).indirect.toNat blk).ptr i s =
      match s with
      | .entry e => (word32 blk (4 * e.val)).toNat
      | s => V.ptr i s := by
  cases s with
  | direct k => rfl
  | indirect => rfl
  | entry e => simp [ptr, ptrOf, hne]

/-- Replacing an entry of the indirect block of `i` keeps the other pointers of `i`. -/
theorem setEntry_ptr_ne (hne : (V.inode i).indirect ≠ 0) {e : Fin 2048} {s : Slot}
    (hs : s ≠ .entry e) (v : UInt32) : (V.setBlock (V.inode i).indirect.toNat (window
      (putWord (V.block (V.inode i).indirect.toNat) (4 * e.val) v) 0 8192)).ptr i s =
        V.ptr i s := by
  rw [setIndirectBlock_ptr_same hne]
  cases s with
  | direct k => rfl
  | indirect => rfl
  | entry e' =>
    have he : e' ≠ e := fun he => hs (by rw [he])
    simp only [entry_putWord, he, if_false]
    simp [ptr, ptrOf, hne]

/-- Replacing the indirect block of `i` touches `i` only. -/
theorem evolves_setIndirectBlock (h : Sound V) (hi : V.IsIno i) (blk : Bytes) :
    Evolves {i} V (V.setBlock (V.inode i).indirect.toNat blk) where
  geo := V.setBlock_geo _ _
  inode := fun _ _ => rfl
  block := fun {j s} hj hji hptr => by
    apply setBlock_block_ne
    intro heq
    exact hji (h.inj (t := .indirect) hj hi hptr heq).1

/-- Storing a fresh block in an empty entry of the indirect block. -/
theorem attachEntry (h : Sound V) (hb : Fresh V b) (hlt : b < 4294967296) (hi : V.IsIno i)
    (hne : (V.inode i).indirect ≠ 0) (e : Fin 2048) :
    Sound (V.setBlock (V.inode i).indirect.toNat (window
      (putWord (V.block (V.inode i).indirect.toNat) (4 * e.val) (UInt32.ofNat b)) 0 8192)) := by
  refine h.attach i (.entry e) hb (V.setBlock_geo _ _) rfl ?_ ?_
  · rw [setIndirectBlock_ptr_same hne]
    simp only [entry_putWord, if_true]
    exact toNat_ofNat_lt hlt
  intro j s hj hat
  by_cases hji : j = i
  · subst hji
    exact setEntry_ptr_ne hne (fun hs => hat ⟨rfl, hs⟩) _
  · exact setIndirectBlock_ptr_ne h hi hne _ hj hji s

/-- Dropping pointers and clearing the mark of one of the dropped blocks. -/
theorem release {V' : Vol} {s : Slot} (h : Sound V) (hgeo : V.SameGeo V') (hi : V.IsIno i)
    (hne : V.ptr i s ≠ 0)
    (hptr : ∀ j t, V.IsIno j → V'.ptr j t = V.ptr j t ∨ V'.ptr j t = 0)
    (hdrop : V'.ptr i s = 0) (hbit : V'.bit = V.bit) : Sound (V'.setBit (V.ptr i s) false) := by
  refine h.shrink ⟨hgeo.1, hgeo.2, hgeo.3, hgeo.4⟩ hptr ?_
  intro j t hj hne'
  have heq := (hptr j t hj).resolve_right hne'
  have hother : V'.ptr j t ≠ V.ptr i s := by
    intro hsame
    obtain ⟨rfl, rfl⟩ := h.inj hi hj hne (hsame.symm.trans heq)
    exact hne' hdrop
  rw [setBit_ptr, setBit_bit_ne _ _ hother, hbit, heq]
  exact h.used hj (heq ▸ hne')

/-- Dropping a direct pointer and clearing its mark. -/
theorem dropDirect (h : Sound V) (hi : V.IsIno i) {k : Fin 12} (hne : (V.inode i).direct k ≠ 0) :
    Sound ((V.setInode i ((V.inode i).setDirect k 0)).setBit
      ((V.inode i).direct k).toNat false) := by
  refine h.release (s := .direct k) ⟨rfl, rfl, rfl, rfl⟩ hi
    (fun h0 => hne (UInt32.toNat_inj.1 h0)) ?_ ?_ rfl
  · intro j t _
    by_cases hji : j = i
    · subst hji
      by_cases ht : t = .direct k
      · right
        rw [ht, setInode_ptr_same]
        simp [ptrOf, Inode.setDirect]
      · exact .inl (setDirect_ptr_ne V j 0 ht)
    · exact .inl (setInode_ptr_ne V _ t hji)
  · rw [setInode_ptr_same]
    simp [ptrOf, Inode.setDirect]

/-- Dropping the indirect pointer, and with it all entries, and clearing its
mark. -/
theorem dropIndirect (h : Sound V) (hi : V.IsIno i) (hne : (V.inode i).indirect ≠ 0) :
    Sound ((V.setInode i ((V.inode i).setIndirect 0)).setBit (V.inode i).indirect.toNat false) := by
  refine h.release (s := .indirect) ⟨rfl, rfl, rfl, rfl⟩ hi
    (fun h0 => hne (UInt32.toNat_inj.1 h0)) ?_ ?_ rfl
  · intro j t _
    by_cases hji : j = i
    · subst hji
      rw [setInode_ptr_same]
      cases t with
      | direct k => exact .inl rfl
      | indirect => exact .inr rfl
      | entry e =>
        right
        simp [ptrOf, Inode.setIndirect]
    · exact .inl (setInode_ptr_ne V _ t hji)
  · rw [setInode_ptr_same]
    rfl

/-- Dropping an entry of the indirect block and clearing its mark. -/
theorem dropEntry (h : Sound V) (hi : V.IsIno i) (hind : (V.inode i).indirect ≠ 0)
    {e : Fin 2048} (hne : V.ptr i (.entry e) ≠ 0) :
    Sound ((V.setBlock (V.inode i).indirect.toNat (window
      (putWord (V.block (V.inode i).indirect.toNat) (4 * e.val) 0) 0 8192)).setBit
        (V.ptr i (.entry e)) false) := by
  refine h.release (s := .entry e) ⟨rfl, rfl, rfl, rfl⟩ hi hne ?_ ?_ rfl
  · intro j t hj
    by_cases hji : j = i
    · subst hji
      by_cases ht : t = .entry e
      · right
        rw [ht, setIndirectBlock_ptr_same hind]
        simp only [entry_putWord, if_true]
        rfl
      · exact .inl (setEntry_ptr_ne hind ht 0)
    · exact .inl (setIndirectBlock_ptr_ne h hi hind _ hj hji t)
  · rw [setIndirectBlock_ptr_same hind]
    simp only [entry_putWord, if_true]
    rfl

end Sound

/-- The blocks of a file are in the data area. -/
theorem Sound.blockOf_inData {V : Vol} {i : Nat} (h : Sound (V.setInode i r))
    (hi : V.IsIno i) (hne : blockOf V.block r b ≠ 0) : V.InData (blockOf V.block r b) := by
  obtain ⟨s, _, _, hptr⟩ := exists_slot_of_blockOf hne
  have hrange := h.range (i := i) (s := s) hi
  rw [setInode_ptr_same, hptr] at hrange
  exact hrange hne

/-- Rewriting a data block of a file whose record is a copy, and replacing the
copy by one with the same block numbers. -/
theorem Sound.rewrite {V : Vol} {i : Nat} (h : Sound (V.setInode i r))
    (hi : V.IsIno i) (hne : blockOf V.block r b ≠ 0) (hp : SamePtrs r r') (blk : Bytes) :
    Sound ((V.setBlock (blockOf V.block r b) blk).setInode i r') ∧
      Evolves {i} V (V.setBlock (blockOf V.block r b) blk) := by
  obtain ⟨s, _, hslot, hptr⟩ := exists_slot_of_blockOf hne
  have hptr' : (V.setInode i r).ptr i s = blockOf V.block r b := by
    rw [setInode_ptr_same, hptr]
  obtain ⟨hsound, hev, _⟩ := h.writeData (i := i) (s := s) blk hi hslot (hptr' ▸ hne)
  rw [hptr'] at hsound hev
  refine ⟨?_, .of_setInode (r := r) hev⟩
  have hset := hsound.setInode (i := i) (r := r') fun s => Or.inl (by
    rw [hp.ptrOf_eq, ← setBlock_setInode, setInode_ptr_same]
    rfl)
  rwa [← setBlock_setInode, setInode_setInode] at hset

/-! ## Growing files -/

/-- Two records agree on everything but their block numbers. -/
structure SameAttrs (r r' : Inode) : Prop where
  mode : r'.mode = r.mode
  size : r'.size = r.size
  linksCount : r'.linksCount = r.linksCount
  uid : r'.uid = r.uid
  gid : r'.gid = r.gid
  perm : r'.perm = r.perm

theorem SameAttrs.refl (r : Inode) : SameAttrs r r := ⟨rfl, rfl, rfl, rfl, rfl, rfl⟩

theorem SameAttrs.trans {r'' : Inode} (h : SameAttrs r r') (h' : SameAttrs r' r'') :
    SameAttrs r r'' :=
  ⟨h'.1.trans h.1, h'.2.trans h.2, h'.3.trans h.3, h'.4.trans h.4, h'.5.trans h.5, h'.6.trans h.6⟩

/-- The slots that `inode_get_block` may fill for the `b`-th block. -/
def slotsFor (b : Nat) : Set Slot := { s | s = .indirect ∨ slotOf b = some s }

/-- From `V` to `V'` the file `i` has gained blocks in the slots `T`, and
nothing else has happened to any file. -/
structure Gains (i : Nat) (T : Set Slot) (V V' : Vol) : Prop where
  sound : Sound V'
  evolves : Evolves {i} V V'
  attrs : SameAttrs (V.inode i) (V'.inode i)
  keep : ∀ {s}, V.ptr i s ≠ 0 → V'.ptr i s = V.ptr i s
  only : ∀ {s}, s ∉ T → V'.ptr i s = V.ptr i s
  data : ∀ {s}, s ≠ .indirect → V.ptr i s ≠ 0 → V'.block (V.ptr i s) = V.block (V.ptr i s)
  fresh : ∀ {s}, s ≠ .indirect → V.ptr i s = 0 → V'.ptr i s ≠ 0 →
    V'.block (V'.ptr i s) = zeros

namespace Gains

variable {i b : Nat} {T T' : Set Slot} {V V' V'' : Vol}

theorem refl (h : Sound V) (i : Nat) (T : Set Slot) : Gains i T V V where
  sound := h
  evolves := .refl _ _
  attrs := .refl _
  keep := fun _ => rfl
  only := fun _ => rfl
  data := fun _ _ => rfl
  fresh := fun _ h0 hne => absurd h0 hne

theorem trans (h : Gains i T V V') (h' : Gains i T V' V'') : Gains i T V V'' where
  sound := h'.sound
  evolves := h.evolves.trans h'.evolves
  attrs := h.attrs.trans h'.attrs
  keep := fun {s} hne => by
    have hkeep := h.keep hne
    rw [h'.keep (hkeep ▸ hne), hkeep]
  only := fun hs => (h'.only hs).trans (h.only hs)
  data := fun {s} hs hne => by
    have hkeep := h.keep hne
    have hdata := h'.data hs (hkeep ▸ hne)
    rw [hkeep] at hdata
    exact hdata.trans (h.data hs hne)
  fresh := fun {s} hs h0 hne => by
    by_cases hmid : V'.ptr i s = 0
    · exact h'.fresh hs hmid hne
    · rw [h'.keep hmid, h'.data hs hmid]
      exact h.fresh hs h0 hmid

theorem mono (h : Gains i T V V') (hT : T ⊆ T') : Gains i T' V V' :=
  { h with only := fun hs => h.only fun hin => hs (hT hin) }

/-- Allocating a block gives it to nobody yet. -/
theorem alloc (h : Sound V) (hin : V.InData b) (h0 : b ≠ 0) (hb : V.bit b = false)
    (i : Nat) (hi : V.IsIno i) (T : Set Slot) :
    Gains i T V ((V.setBit b true).setBlock b zeros) := by
  obtain ⟨hsound, _, hev⟩ := h.alloc zeros hin h0 hb
  have hptr : ∀ s, ((V.setBit b true).setBlock b zeros).ptr i s = V.ptr i s :=
    hev.ptr_eq hi (Set.notMem_empty i)
  exact
    { sound := hsound
      evolves := hev.mono (Set.empty_subset _)
      attrs := .refl _
      keep := fun _ => hptr _
      only := fun _ => hptr _
      data := fun _ hne => hev.block hi (Set.notMem_empty i) hne
      fresh := fun _ h0 hne => absurd h0 (hptr _ ▸ hne) }

section

variable (h : Sound V) (hb : Fresh V b) (hlt : b < 4294967296) (hzero : V.block b = zeros)

include h hb hlt hzero

/-- A fresh zeroed block goes into an empty direct slot. -/
theorem attachDirect {k : Fin 12} (hempty : (V.inode i).direct k = 0) :
    Gains i {.direct k} V (V.setInode i ((V.inode i).setDirect k (UInt32.ofNat b))) := by
  have hother := fun s => Sound.setDirect_ptr_ne V i (UInt32.ofNat b) (s := s) (k := k)
  have hslot : V.ptr i (.direct k) = 0 := by simp [ptr, ptrOf, hempty]
  exact
    { sound := h.attachDirect hb hlt
      evolves := Evolves.setInode V i _
      attrs := by
        rw [setInode_inode_same]
        exact ⟨rfl, rfl, rfl, rfl, rfl, rfl⟩
      keep := fun {s} hne => hother s fun hs => hne (hs ▸ hslot)
      only := fun {s} hs => hother s hs
      data := fun _ _ => rfl
      fresh := fun {s} _ h0 hne => by
        by_cases hs : s = .direct k
        · subst hs
          rw [setInode_block, setInode_ptr_same]
          simpa [ptrOf, Inode.setDirect, toNat_ofNat_lt hlt] using hzero
        · exact absurd h0 (hother s hs ▸ hne) }

/-- A fresh zeroed block becomes the indirect block. -/
theorem attachIndirect (hempty : (V.inode i).indirect = 0) :
    Gains i {.indirect} V (V.setInode i ((V.inode i).setIndirect (UInt32.ofNat b))) := by
  have hother := fun s => Sound.setIndirect_ptr_ne (s := s) hlt hempty hzero
  have hslot : V.ptr i .indirect = 0 := by simp [ptr, ptrOf, hempty]
  exact
    { sound := h.attachIndirect hb hlt hempty hzero
      evolves := Evolves.setInode V i _
      attrs := by
        rw [setInode_inode_same]
        exact ⟨rfl, rfl, rfl, rfl, rfl, rfl⟩
      keep := fun {s} hne => hother s fun hs => hne (hs ▸ hslot)
      only := fun {s} hs => hother s hs
      data := fun _ _ => rfl
      fresh := fun {s} hs h0 hne => absurd h0 (hother s hs ▸ hne) }

/-- A fresh zeroed block goes into an empty entry of the indirect block. -/
theorem attachEntry (hi : V.IsIno i) (hne : (V.inode i).indirect ≠ 0)
    {e : Fin 2048} (hempty : word32 (V.block (V.inode i).indirect.toNat) (4 * e.val) = 0) :
    Gains i {.entry e} V (V.setBlock (V.inode i).indirect.toNat (window
      (putWord (V.block (V.inode i).indirect.toNat) (4 * e.val) (UInt32.ofNat b)) 0 8192)) := by
  have hother := fun s (hs : s ≠ Slot.entry e) => Sound.setEntry_ptr_ne hne hs (UInt32.ofNat b)
  have hslot : V.ptr i (.entry e) = 0 := by simp [ptr, ptrOf, hne, hempty]
  exact
    { sound := h.attachEntry hb hlt hi hne e
      evolves := h.evolves_setIndirectBlock hi _
      attrs := .refl _
      keep := fun {s} hnz => hother s fun hs => hnz (hs ▸ hslot)
      only := fun {s} hs => hother s hs
      data := fun {s} hs hnz =>
        setBlock_block_ne V _ (h.indirect_ne hi hi hs hnz).symm
      fresh := fun {s} _ h0 hnz => by
        by_cases hs : s = .entry e
        · subst hs
          have hnew : b ≠ (V.inode i).indirect.toNat := fun heq =>
            hb.free (s := .indirect) hi heq.symm
          rw [Sound.setIndirectBlock_ptr_same hne]
          simp only [Sound.entry_putWord, if_true, toNat_ofNat_lt hlt]
          rw [setBlock_block_ne V _ hnew, hzero]
        · exact absurd h0 (hother s hs ▸ hnz) }

end

end Gains

end LufiraFs
