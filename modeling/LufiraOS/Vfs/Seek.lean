import LufiraOS.Vfs.Duplicates

/-!
# Where a seek leads

`lufirafs_file_seek` adds in 32 bits and clamps to the size that was cached when the descriptor was
opened.  The position a caller means is a sum of integers, clamped to the size the file has now.
-/

namespace Vfs

open LufiraFs ByteStore

/-- The position a seek by `d` means, in a file of `size` bytes at offset `o`. -/
def seekTarget (o size : Nat) (d : Int) : (whence : Nat) → Option Int
  | 0 => some d
  | 1 => some (o + d)
  | 2 => some (size + d)
  | _ => none

/-- When the sum in 32 bits, clamped to the cached size, is the position that is meant: it is not
negative and fits an `int`, and either the cached size is the size of the file and the sum does not
wrap to something smaller, or the cached size is another one that does not matter here.  A negative
position goes unnoticed only where the offset stays all ones. -/
def SeekExact (o cached size : Nat) (d : Int) (whence : Nat) : Prop :=
  ∀ t t', seekTarget o size d whence = some t → seekTarget o cached d whence = some t' →
    (0 ≤ t ∧ min t size < 2147483648 ∧
      (cached = size ∧ (t < 4294967296 ∨ size ≤ t % 4294967296) ∨
        cached ≠ size ∧ min t size ≤ cached ∧
          (t' % 4294967296 = min t size ∨ cached = min t size ∧ cached ≤ t' % 4294967296))) ∨
    (t < 0 ∧ o = 4294967295 ∧ cached = 4294967295 ∧ t' % 4294967296 = 4294967295)

namespace Sys

variable {s : Sys} {slot : Nat} {f : File} {inode : VInode}

/-- A seek does what is meant in a file of `size` bytes: it fails in front of the file, and
otherwise leads to the position, or to the end of the file if that comes first. -/
def SeeksTo (s : Sys) (slot : Nat) (f : File) (size : Nat) (d : Int) (whence : Nat) : Prop :=
  ∀ t, seekTarget f.offset size d whence = some t →
    s.lufirafsFileSeek slot f d whence = if t < 0 then (-1, s)
      else (min t size, s.setFile slot (some { f with offset := (min t size).toNat }))

/-- What the code computes. -/
theorem lufirafsFileSeek_eq (hinode : f.inode = some inode) {d t : Int} {whence : Nat}
    (ht : seekTarget f.offset inode.size d whence = some t) :
    s.lufirafsFileSeek slot f d whence =
      (toInt (min inode.size (t % 4294967296).toNat), s.setFile slot
        (some { f with offset := min inode.size (t % 4294967296).toNat })) := by
  have hpos : ∀ c u : Nat, (if c < u then c else u) = min c u := by
    intro c u
    split_ifs <;> omega
  match whence, ht with
  | 0, ht =>
    cases ht
    simp only [lufirafsFileSeek, hinode, hpos, low32]
  | 1, ht =>
    cases ht
    have hsum : (f.offset + low32 d) % 4294967296 = ((f.offset + d) % 4294967296).toNat := by
      unfold low32
      omega
    simp only [lufirafsFileSeek, hinode, hpos, hsum]
  | 2, ht =>
    cases ht
    have hsum : (inode.size + low32 d) % 4294967296 = ((inode.size + d) % 4294967296).toNat := by
      unfold low32
      omega
    simp only [lufirafsFileSeek, hinode, hpos, hsum]

theorem setFile_offset_iff (slot : Nat) (f : File) (a b : Nat) :
    s.setFile slot (some { f with offset := a }) = s.setFile slot (some { f with offset := b }) ↔
      a = b := by
  constructor
  · intro h
    have hfile := congrFun (congrArg Sys.files h) slot
    simpa [setFile] using hfile
  · rintro rfl
    rfl

/-- The target computed with another size. -/
theorem seekTarget_other {o size : Nat} {d t : Int} {whence : Nat}
    (ht : seekTarget o size d whence = some t) (c : Nat) :
    ∃ t', seekTarget o c d whence = some t' ∧ (t' = t ∨ t' = t - size + c) := by
  match whence, ht with
  | 0, ht => exact ⟨t, ht, Or.inl rfl⟩
  | 1, ht => exact ⟨t, ht, Or.inl rfl⟩
  | 2, ht =>
    cases ht
    exact ⟨c + d, rfl, Or.inr (by omega)⟩

theorem toInt_eq_iff {p : Nat} (hp : p < 4294967296) (m : Int) :
    toInt p = m ↔ (p < 2147483648 ∧ (p : Int) = m) ∨
      (2147483648 ≤ p ∧ (p : Int) = m + 4294967296) := by
  rw [toInt, Nat.mod_eq_of_lt hp]
  split_ifs <;> omega

/-- **When a seek leads where it should.** -/
theorem seeksTo_iff (hfile : s.files slot = some f) (hinode : f.inode = some inode)
    (hc : inode.size < 4294967296) (size : Nat) (d : Int) (whence : Nat) :
    s.SeeksTo slot f size d whence ↔ SeekExact f.offset inode.size size d whence := by
  have hself : s = s.setFile slot (some { f with offset := f.offset }) := by
    rw [setFile, ← hfile, Function.update_eq_self]
  constructor
  · intro h t t' ht ht'
    have hseek := h t ht
    obtain ⟨t₁, ht₁, hother⟩ := seekTarget_other ht inode.size
    obtain rfl := Option.some.inj (ht₁.symm.trans ht')
    rw [lufirafsFileSeek_eq hinode ht'] at hseek
    split_ifs at hseek with hneg
    · rw [Prod.mk.injEq, toInt_eq_iff (by omega)] at hseek
      nth_rewrite 2 [hself] at hseek
      rw [setFile_offset_iff] at hseek
      omega
    · rw [Prod.mk.injEq, toInt_eq_iff (by omega), setFile_offset_iff] at hseek
      omega
  intro h t ht
  obtain ⟨t', ht', hother⟩ := seekTarget_other ht inode.size
  have hexact := h t t' ht ht'
  rw [lufirafsFileSeek_eq hinode ht']
  split_ifs with hneg
  · rw [Prod.mk.injEq, toInt_eq_iff (by omega)]
    nth_rewrite 2 [hself]
    rw [setFile_offset_iff]
    omega
  · rw [Prod.mk.injEq, toInt_eq_iff (by omega), setFile_offset_iff]
    omega

/-- The file `sharedFile` has open, which is empty. -/
def emptyFile : File := ⟨3, some ⟨.regular, 0, 2, .lufira ⟨2, false, 0⟩⟩, 0, 6, some .lufiraFile⟩

theorem sharedFile_files : sharedFile.files 3 = some emptyFile := by decide +kernel

theorem seeksTo_iff_sharedFile : sharedFile.SeeksTo 3 emptyFile 0 5 0 := by
  refine (seeksTo_iff sharedFile_files rfl (by decide) 0 5 0).2 ?_
  rintro t t' ⟨⟩ ⟨⟩
  decide

/-- In an empty file a seek to `-1` succeeds. -/
theorem seek_before_start : sharedFile.files 3 = some emptyFile ∧
    (sharedFile.fs.readInode 2).map Inode.size = some 0 ∧
    ¬ sharedFile.SeeksTo 3 emptyFile 0 (-1) 0 := by
  refine ⟨sharedFile_files, by decide +kernel, fun h => ?_⟩
  have hres : (sharedFile.lufirafsFileSeek 3 emptyFile (-1) 0).1 = 0 := rfl
  rw [h (-1) rfl] at hres
  exact absurd hres (by decide)

end Sys

end Vfs
