import LufiraOS.Volume.Growth

/-!
# What a file holds

The bytes of a file, block by block, and as the list that a reader gets who goes
from position to position.
-/

namespace LufiraFs

open ByteStore

/-- The file `i` is `len` bytes long and its bytes are those of `data`. -/
structure Vol.Holds (V : Vol) (i : Nat) (data : Bytes) (len : UInt32) : Prop where
  size : (V.inode i).size = len
  bytes : ∀ b, b * 8192 < len.toNat → ∃ bn blk, V.fetch (V.inode i) b = some (bn, blk) ∧
    ∀ j, j < 8192 → b * 8192 + j < len.toNat → blk j = data (b * 8192 + j)

/-- The `n` bytes of `data` from `pos` on. -/
def bytesFrom (data : Bytes) (pos n : Nat) :
    List UInt8 := (List.range n).map fun i => data (pos + i)

theorem bytesFrom_zero (data : Bytes) (pos : Nat) : bytesFrom data pos 0 = [] := rfl

theorem bytesFrom_add (data : Bytes) (pos m n : Nat) :
    bytesFrom data pos (m + n) = bytesFrom data pos m ++ bytesFrom data (pos + m) n := by
  unfold bytesFrom
  rw [List.range_add, List.map_append, List.map_map]
  congr 1
  apply List.map_congr_left
  intro i _
  simp only [Function.comp_apply, Nat.add_assoc]

namespace Vol.Holds

variable {V V' : Vol} {i : Nat} {data : Bytes} {len : UInt32}

/-- What a file holds depends on its record and its blocks. -/
theorem congr (h : V.Holds i data len) (hrec : V'.inode i = V.inode i)
    (hfetch : ∀ b, V'.fetch (V'.inode i) b = V.fetch (V.inode i) b) : V'.Holds i data len where
  size := by rw [hrec, h.size]
  bytes := fun b hb => by
    rw [hfetch]
    exact h.bytes b hb

/-- The part of a block from `pos` on. -/
theorem chunk (h : V.Holds i data len) {pos n : Nat} (hpos : pos < len.toNat)
    (hblock : pos % 8192 + n ≤ 8192) (hend : pos + n ≤ len.toNat) :
    ∃ bn blk, V.fetch (V.inode i) (pos / 8192) = some (bn, blk) ∧
      ((List.range n).map fun j => blk (pos % 8192 + j)) = bytesFrom data pos n := by
  obtain ⟨bn, blk, hfetch, hbytes⟩ := h.bytes (pos / 8192) (by omega)
  refine ⟨bn, blk, hfetch, List.map_congr_left fun j hj => ?_⟩
  have hlt : j < n := List.mem_range.1 hj
  rw [hbytes _ (by omega) (by omega)]
  congr 1
  omega

/-- A file that has all its blocks is not too long. -/
theorem small (h : V.Holds i data len) (h0 : 0 < V.dataStart) : len.toNat ≤ 2060 * 8192 := by
  by_contra hbig
  obtain ⟨bn, blk, hfetch, _⟩ := h.bytes 2060 (by omega)
  obtain ⟨hin, hbn, _⟩ := Vol.fetch_some hfetch
  have hlo := hin.1
  obtain ⟨s, hs, _⟩ := exists_slot_of_blockOf (show blockOf V.block (V.inode i) 2060 ≠ 0 by omega)
  rw [slotOf_none (by omega) (by omega)] at hs
  cases hs

end Vol.Holds

end LufiraFs
