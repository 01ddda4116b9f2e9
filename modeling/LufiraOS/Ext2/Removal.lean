import LufiraOS.Ext2.Durable

/-!
# Removing a name

`ext2_unlink` takes the entry out before it looks at what the entry leads to, and it tells a
directory by the type in the entry, which an image without the FILETYPE feature does not have.
-/

namespace Ext2

open Image List

variable {g : Geometry} {s : Image} {name : List UInt8}

namespace Image

/-- The inode that an entry leads to. -/
def leadsTo (g : Geometry) (s : Image) (e : Ptr × Option Nat × Nat) : Ptr :=
  s.inodePtr g (s.rd32 (e.1.add e.2.2))

/-- The bytes that change when an entry is taken out: the length of the entry before it, or its
own inode number. -/
def Edited (e : Ptr × Option Nat × Nat) (p : Ptr) : Prop :=
  match e.2.1 with
  | some prev => ∃ k < 2, p = ((e.1.add prev).add 4).add k
  | none => ∃ k < 4, p = (e.1.add e.2.2).add k

/-- The inode that an entry leads to is not read from the bytes that change when the entry is taken
out: whatever they are, it is an empty directory or it is not. -/
def Apart (g : Geometry) (s : Image) (e : Ptr × Option Nat × Nat) : Prop :=
  ∀ t : Image, (∀ p, ¬ Edited e p → t.load p = s.load p) →
    t.dirIsEmpty g (t.inodePtr g (s.rd32 (e.1.add e.2.2))) = s.dirIsEmpty g (s.leadsTo g e)

/-- What `ext2_unlink` is for, where it must not remove. -/
structure RemovesRight (g : Geometry) (depth : Nat) (s : Image) (parentIno : Nat)
    (name : List UInt8) : Prop where
  unchanged : (s.unlink g depth parentIno name).1 = -1 →
    ∀ p, (s.unlink g depth parentIno name).2.load p = s.load p
  refused : ∀ e, s.findDirent g (s.inodePtr g parentIno) name = some e →
    s.isDir (s.leadsTo g e) = true → s.dirIsEmpty g (s.leadsTo g e) = false →
    (s.unlink g depth parentIno name).1 = -1

end Image

theorem load_put (fields : List (Ptr × List UInt8)) (off len : Nat) (p : Ptr) :
    (s.put g fields off len).load p = (fields.foldl (fun s f => s.store f.1 f.2) s).load p := by
  unfold put markDirty
  split <;> cases p <;> rfl

theorem rd16_put (p : Ptr) (v off len : Nat) :
    (s.put g [(p, le 2 v)] off len).rd16 p = v % 2 ^ 16 := by
  simp only [rd16, load_put]
  cases p <;> simp [load, store, Image.set, le, Ptr.add] <;> omega

theorem rd32_put_zero (p : Ptr) (off len : Nat) : (s.put g [(p, le 4 0)] off len).rd32 p = 0 := by
  simp only [rd32, rd16, load_put]
  cases p <;> simp [load, store, Image.set, le, Ptr.add, Function.update_apply]

theorem load_store_of_ne {p q : Ptr} {bs : List UInt8} (h : ∀ k < bs.length, q ≠ p.add k) :
    (s.store p bs).load q = s.load q := by
  induction bs generalizing s p with
  | nil => rfl
  | cons b bs ih =>
    rw [store, ih fun k hk => ?_]
    · have hq := h 0 (by simp)
      clear ih h
      cases p <;> cases q <;> simp_all [load, Image.set, Ptr.add]
    · have hq := h (k + 1) (by simpa using hk)
      cases p <;> grind [Ptr.add]

/-- Taking an entry out leaves the other bytes. -/
theorem load_removeDirent {e : Ptr × Option Nat × Nat} {p : Ptr} (h : ¬ Edited e p) :
    (s.removeDirent g e).load p = s.load p := by
  unfold Edited at h
  unfold removeDirent
  cases hprev : e.2.1 with
  | some prev =>
    rw [hprev] at h
    rw [load_put]
    exact load_store_of_ne fun k hk heq => h ⟨k, by simpa [le] using hk, heq⟩
  | none =>
    rw [hprev] at h
    rw [load_put]
    exact load_store_of_ne fun k hk heq => h ⟨k, by simpa [le] using hk, heq⟩

/-- Taking an entry out changes the image. -/
theorem removeDirent_changes {e : Ptr × Option Nat × Nat} {dir : Ptr}
    (h : s.findDirent g dir name = some e) : ∃ p, (s.removeDirent g e).load p ≠ s.load p := by
  by_contra hsame
  push Not at hsame
  have hread : ∀ p, (s.removeDirent g e).rd16 p = s.rd16 p := fun p => by
    rw [rd16, rd16, hsame, hsame]
  have hlen := recLen_of_mem_dirents (mem_of_find?_eq_some h)
  have hlt := rd16_lt s ((e.1.add e.2.2).add 4)
  cases hprev : e.2.1 with
  | some prev =>
    have hnew := hread ((e.1.add prev).add 4)
    rw [removeDirent, hprev] at hnew
    rw [rd16_put] at hnew
    omega
  | none =>
    have hzero : (s.removeDirent g e).rd32 (e.1.add e.2.2) = 0 := by
      rw [removeDirent, hprev]
      exact rd32_put_zero ..
    have hnamed := find?_some h
    rw [rd32, hread, hread, ← rd32] at hzero
    simp [isNamed, hzero] at hnamed

/-- An entry that is found is refused if it says that it is a directory and that is not empty. -/
theorem unlink_eq_neg_one_iff (depth : Nat) {parentIno : Nat} {e : Ptr × Option Nat × Nat}
    (hdir : s.isDir (s.inodePtr g parentIno) = true)
    (hfind : s.findDirent g (s.inodePtr g parentIno) name = some e) (hapart : s.Apart g e) :
    (s.unlink g depth parentIno name).1 = -1 ↔
      s.load ((e.1.add e.2.2).add 7) = 2 ∧ s.dirIsEmpty g (s.leadsTo g e) = false := by
  rw [← hapart (s.removeDirent g e) fun p hp => load_removeDirent hp]
  unfold unlink
  simp only [hdir, hfind, Bool.true_eq_false, if_false]
  by_cases htype : s.load ((e.1.add e.2.2).add 7) = 2
  · by_cases hempty : (s.removeDirent g e).dirIsEmpty g
        ((s.removeDirent g e).inodePtr g (s.rd32 (e.1.add e.2.2))) = false <;>
      simp [htype, hempty]
  · simp [htype]

/-- An entry that is refused is taken out all the same. -/
theorem unlink_changes {depth parentIno : Nat} {e : Ptr × Option Nat × Nat}
    (hdir : s.isDir (s.inodePtr g parentIno) = true)
    (hfind : s.findDirent g (s.inodePtr g parentIno) name = some e)
    (hminus : (s.unlink g depth parentIno name).1 = -1) :
    ∃ p, (s.unlink g depth parentIno name).2.load p ≠ s.load p := by
  have hsame : (s.unlink g depth parentIno name).2 = s.removeDirent g e := by
    unfold unlink at hminus ⊢
    simp only [hdir, hfind, Bool.true_eq_false, if_false] at hminus ⊢
    split at hminus
    · split at hminus
      · next htype hempty => rw [if_pos htype, if_pos hempty]
      · cases hminus
    · cases hminus
  rw [hsame]
  exact removeDirent_changes hfind

/-- `t` has the bytes of `s` in a range. -/
def Same (s t : Image) (p : Ptr) (n : Nat) : Prop := ∀ k < n, t.load (p.add k) = s.load (p.add k)

section

variable {t : Image} {p dir : Ptr} {n k : Nat}

theorem Same.rd16 (h : Same s t p n) (hk : k + 2 ≤ n) : t.rd16 (p.add k) = s.rd16 (p.add k) := by
  rw [Image.rd16, Image.rd16, add_add, h k (by omega), h (k + 1) (by omega)]

theorem Same.rd32 (h : Same s t p n) (hk : k + 4 ≤ n) : t.rd32 (p.add k) = s.rd32 (p.add k) := by
  rw [Image.rd32, Image.rd32, add_add, h.rd16 (by omega), h.rd16 (by omega)]

/-- The bytes in which a directory of twelve direct blocks at most is looked up are the same. -/
structure SameDir (g : Geometry) (s t : Image) (dir : Ptr) : Prop where
  super : Same s t (.image 1024) 8
  inode : Same s t dir 100
  mapped : s.hasExtents dir = false
  direct : (s.rd32 (dir.add 4) + g.blockSize - 1) % 2 ^ 32 / g.blockSize ≤ 12
  blocks : ∀ k < 12, Same s t (s.blkPtr g (s.iBlock dir k)) (g.blockSize + 10)

theorem Same.entriesFrom (h : Same s t p (g.blockSize + 10)) (turns : Nat) (prev : Option Nat)
    (off : Nat) : t.entriesFrom g p turns prev off = s.entriesFrom g p turns prev off := by
  induction turns generalizing prev off with
  | zero => rfl
  | succ turns ih =>
    unfold Image.entriesFrom
    split
    · simp only [add_add, h.rd16 (k := off + 4) (by omega), ih]
    · rfl

theorem SameDir.blockAt (h : SameDir g s t dir) (hk : k < 12) :
    t.blockAt g dir k = s.blockAt g dir k ∧ s.blockAt g dir k = s.iBlock dir k := by
  have hextents : t.hasExtents dir = false := by
    rw [hasExtents, h.inode.rd32 (by omega)]
    exact h.mapped
  have hblock : t.iBlock dir k = s.iBlock dir k := h.inode.rd32 (by omega)
  simp [Image.blockAt, hextents, h.mapped, hk, hblock]

theorem SameDir.dirents (h : SameDir g s t dir) : t.dirents g dir = s.dirents g dir := by
  have hcount : t.blocksCount = s.blocksCount := h.super.rd32 (k := 4) (by omega)
  have hptr : ∀ b, t.blkPtr g b = s.blkPtr g b := fun b => by rw [blkPtr, blkPtr, hcount]
  unfold Image.dirents
  rw [h.inode.rd32 (by omega)]
  refine flatMap_congr fun bi hbi => ?_
  have hlt : bi < 12 := by
    have := mem_range.1 hbi
    have := h.direct
    omega
  obtain ⟨hsame, hblock⟩ := h.blockAt hlt
  simp only [hsame, hptr, hblock, (h.blocks bi hlt).entriesFrom]

theorem mem_entriesFrom_lt {e : Option Nat × Nat} {turns off : Nat} {prev : Option Nat}
    (he : e ∈ s.entriesFrom g p turns prev off) : e.2 < g.blockSize := by
  induction turns generalizing prev off with
  | zero => cases he
  | succ turns ih => grind [Image.entriesFrom]

/-- An entry lies in one of the twelve blocks. -/
theorem SameDir.mem_dirents (h : SameDir g s t dir) {e : Ptr × Option Nat × Nat}
    (he : e ∈ s.dirents g dir) :
    ∃ k < 12, e.1 = s.blkPtr g (s.iBlock dir k) ∧ e.2.2 < g.blockSize := by
  obtain ⟨bi, hbi, he⟩ := mem_flatMap.1 he
  have hlt : bi < 12 := by
    have := mem_range.1 hbi
    have := h.direct
    omega
  dsimp only at he
  split at he
  · cases he
  · obtain ⟨x, hx, rfl⟩ := mem_map.1 he
    exact ⟨bi, hlt, by rw [(h.blockAt hlt).2], mem_entriesFrom_lt hx⟩

theorem all_congr_of_mem {α : Type} {l : List α} {f f' : α → Bool} (h : ∀ a ∈ l, f a = f' a) :
    l.all f = l.all f' := by
  rw [Bool.eq_iff_iff, all_eq_true, all_eq_true]
  exact forall₂_congr fun a ha => by rw [h a ha]

/-- Such a directory is empty in both images or in none. -/
theorem SameDir.dirIsEmpty (h : SameDir g s t dir) : t.dirIsEmpty g dir = s.dirIsEmpty g dir := by
  have hnamed : ∀ e ∈ s.dirents g dir, ∀ name : List UInt8, name.length ≤ 2 →
      t.isNamed (e.1.add e.2.2) name = s.isNamed (e.1.add e.2.2) name ∧
        t.rd32 (e.1.add e.2.2) = s.rd32 (e.1.add e.2.2) := by
    intro e he name hname
    obtain ⟨k, hk, hptr, hoff⟩ := h.mem_dirents he
    have hsame := h.blocks k hk
    rw [← hptr] at hsame
    have hino := hsame.rd32 (k := e.2.2) (by omega)
    refine ⟨?_, hino⟩
    unfold isNamed
    rw [hino, add_add, hsame _ (by omega)]
    refine congrArg _ (all_congr_of_mem fun i hi => ?_)
    have := mem_range.1 hi
    rw [add_add, hsame _ (by omega)]
  unfold Image.dirIsEmpty
  rw [h.dirents]
  refine all_congr_of_mem fun e he => ?_
  dsimp only
  rw [(hnamed e he [46] (by simp)).1, (hnamed e he [46, 46] (by simp)).1,
    (hnamed e he [] (by simp)).2]

/-- No byte of a range changes when the entry is taken out. -/
def Outside (e : Ptr × Option Nat × Nat) (p : Ptr) (n : Nat) : Prop := ∀ k < n, ¬ Edited e (p.add k)

/-- A directory of twelve direct blocks at most is apart from an entry outside the superblock, its
group descriptor, its inode and its blocks. -/
theorem apart_of_direct {e : Ptr × Option Nat × Nat} (hsuper : Outside e (.image 1024) 44)
    (hgroup : Outside e (groupPtr g ((s.rd32 (e.1.add e.2.2) - 1) / s.inodesPerGroup)) 12)
    (hinode : Outside e (s.leadsTo g e) 100) (hmapped : s.hasExtents (s.leadsTo g e) = false)
    (hdirect : (s.rd32 ((s.leadsTo g e).add 4) + g.blockSize - 1) % 2 ^ 32 / g.blockSize ≤ 12)
    (hblocks : ∀ k < 12,
      Outside e (s.blkPtr g (s.iBlock (s.leadsTo g e) k)) (g.blockSize + 10)) : s.Apart g e := by
  intro t hsame
  have hof : ∀ {p n}, Outside e p n → Same s t p n := fun h k hk => hsame _ (h k hk)
  have hcount : t.inodesCount = s.inodesCount := (hof hsuper).rd32 (k := 0) (by omega)
  have hper : t.inodesPerGroup = s.inodesPerGroup := (hof hsuper).rd32 (k := 40) (by omega)
  have hptr : t.inodePtr g (s.rd32 (e.1.add e.2.2)) = s.leadsTo g e := by
    unfold leadsTo inodePtr
    rw [hcount, hper]
    dsimp only
    rw [(hof hgroup).rd32 (by omega)]
  rw [hptr]
  exact SameDir.dirIsEmpty ⟨fun k hk => hof hsuper k (by omega), hof hinode, hmapped, hdirect,
    fun k hk => hof (hblocks k hk)⟩

end

/-- An empty directory `d` in the root. -/
def emptyDirImage : Image := Run.run (call smallGeometry 1) smallImage [.mkdir 2 [100]]

/-- A file in a directory `d` of the root. -/
def nestedImage : Image :=
  Run.run (call smallGeometry 1) smallImage [.mkdir 2 [100], .create 4 [120]]

end Ext2
