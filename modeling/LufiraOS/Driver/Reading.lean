import LufiraOS.Driver.Paths
import LufiraOS.Volume.Content

/-!
# Reading files

`lufirafs_read` delivers what the file holds when nothing fails.
-/

namespace LufiraFs

open ByteStore

namespace Mount

section

variable {fs : Mount} {ino : Nat} {data : Bytes} {len : UInt32}

/-- **The loop of `lufirafs_read`** delivers the bytes of the file. -/
theorem readLoop_holds (h : fs.Ready) (henv : fs.env = Env.allOk)
    (hholds : fs.vol.Holds ino data len) {fuel pos remaining : Nat} (hfuel : remaining ≤ fuel)
    (hend : pos + remaining ≤ len.toNat) :
    readLoop (fs.vol.inode ino) fuel pos remaining fs = (bytesFrom data pos remaining, fs) := by
  induction fuel generalizing pos remaining with
  | zero =>
    obtain rfl : remaining = 0 := by omega
    rfl
  | succ fuel ih =>
    rw [readLoop]
    split
    · next hzero => rw [hzero, bytesFrom_zero]
    · next hmore =>
      dsimp only
      generalize hchunk : min (8192 - pos % 8192) remaining = chunk
      have hle : chunk ≤ remaining := by omega
      obtain ⟨bn, blk, hfetch, hbytes⟩ := hholds.chunk (show pos < len.toNat by omega)
        (show pos % 8192 + chunk ≤ 8192 by omega) (by omega)
      have hlt := len.toNat_lt
      have hnext : (pos + chunk) % 4294967296 = pos + chunk := Nat.mod_eq_of_lt (by omega)
      rw [fetchBlock_allOk h henv, hfetch, hnext]
      rw [hbytes, ih (by omega) (by omega), ← bytesFrom_add, Nat.add_sub_cancel' hle]

/-- **`lufirafs_read`** of a whole file. -/
theorem read_holds (h : fs.Ready) (henv : fs.env = Env.allOk) (hi : fs.vol.IsIno ino)
    (hholds : fs.vol.Holds ino data len) :
    fs.read ino 0 len.toNat = ((len.toNat : Int), bytesFrom data 0 len.toNat, fs) := by
  have hsmall := hholds.small h.dataStart_pos
  unfold read
  rw [readInode_some hi]
  dsimp only
  rw [hholds.size]
  split
  · next hzero =>
    have hlen : len.toNat = 0 := Nat.le_zero.1 hzero
    rw [hlen]
    rfl
  have hnot : ¬ len.toNat < (0 + len.toNat) % 4294967296 := by omega
  have hheap : fs.kmalloc = (true, fs) := by
    obtain ⟨e, hcall, hleads⟩ := kmalloc_eq fs
    rw [hcall, withEnv_of_allOk henv hleads, henv]
    rfl
  have hint : toInt len.toNat = (len.toNat : Int) := by
    unfold toInt
    rw [if_pos (by omega), Nat.mod_eq_of_lt (by omega)]
  rw [if_neg hnot, hheap]
  dsimp only
  rw [readLoop_holds h henv hholds (Nat.le_refl _) (by omega), hint]

end

end Mount

end LufiraFs
