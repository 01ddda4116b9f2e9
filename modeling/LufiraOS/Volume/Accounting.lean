import LufiraOS.Volume.Layout

/-!
# Counting free blocks

The number of clear marks in the data area, and how it relates to the
`free_blocks` counter of the superblock.  Allocation and release move both by
one; a constant difference between them therefore stays.
-/

namespace LufiraFs

namespace Vol

variable {V : Vol} {b : Nat}

/-- The number of blocks of the data area that are marked free. -/
def clearCount (V : Vol) : Nat :=
  ((Finset.Ico V.dataStart V.totalBlocks).filter fun b => V.bit b = false).card

theorem clearCount_congr {V' : Vol} (hgeo : V.SameGeo V') (hbit : V'.bit = V.bit) :
    V'.clearCount = V.clearCount := by
  simp only [clearCount, hgeo.dataStart, hgeo.totalBlocks, hbit]

/-- Marking a clear block used. -/
theorem clearCount_setBit_true (hin : V.InData b) (hb : V.bit b = false) :
    (V.setBit b true).clearCount + 1 = V.clearCount := by
  have hmem : b ∈ (Finset.Ico V.dataStart V.totalBlocks).filter fun b => V.bit b = false := by
    rw [Finset.mem_filter, Finset.mem_Ico]
    exact ⟨hin, hb⟩
  have herase : (Finset.Ico V.dataStart V.totalBlocks).filter
        (fun c => (V.setBit b true).bit c = false) =
      ((Finset.Ico V.dataStart V.totalBlocks).filter fun c => V.bit c = false).erase b := by
    ext c
    by_cases hc : c = b
    · subst hc
      simp
    · simp [hc]
  show (Finset.filter _ (Finset.Ico V.dataStart V.totalBlocks)).card + 1 = _
  rw [herase, Finset.card_erase_add_one hmem]
  rfl

/-- Marking a used block free. -/
theorem clearCount_setBit_false (hin : V.InData b) (hb : V.bit b = true) :
    (V.setBit b false).clearCount = V.clearCount + 1 := by
  have hback : (V.setBit b false).setBit b true = V := by
    simp [setBit, ← hb]
  have hcount := clearCount_setBit_true (V := V.setBit b false) (b := b) hin (by simp)
  rw [hback] at hcount
  exact hcount.symm

/-- Every block of the data area may be free. -/
theorem clearCount_le (V : Vol) : V.clearCount ≤ V.totalBlocks - V.dataStart := by
  have h := Finset.card_filter_le (Finset.Ico V.dataStart V.totalBlocks) fun b => V.bit b = false
  rwa [Nat.card_Ico] at h

/-- A used block of the data area leaves room in the count. -/
theorem clearCount_lt (hin : V.InData b) (hb : V.bit b = true) :
    V.clearCount < V.totalBlocks - V.dataStart := by
  have hnext := clearCount_setBit_false hin hb
  have hle := (V.setBit b false).clearCount_le
  have hgeo : (V.setBit b false).totalBlocks - (V.setBit b false).dataStart =
      V.totalBlocks - V.dataStart := rfl
  omega

end Vol

/-- The counter `free_blocks` is `k` more than the number of clear marks; the
excess is small enough for the counter never to wrap. -/
structure Balanced (k : Nat) (sb : Superblock) (V : Vol) : Prop where
  count : sb.freeBlocks.toNat = V.clearCount + k
  small : k ≤ V.dataStart

namespace Balanced

variable {k : Nat} {sb : Superblock} {V V' : Vol}

theorem congr (h : Balanced k sb V) (hgeo : V.SameGeo V') (hbit : V'.bit = V.bit) :
    Balanced k sb V' where
  count := by rw [Vol.clearCount_congr hgeo hbit, h.count]
  small := by rw [hgeo.dataStart]; exact h.small

/-- Allocation takes a block from the marks and from the counter. -/
theorem take (h : Balanced k sb V) {b : Nat} (hin : V.InData b) (hb : V.bit b = false) :
    Balanced k sb.takeBlock (V.setBit b true) where
  count := by
    have hcount := Vol.clearCount_setBit_true hin hb
    have hfree := h.count
    have hpos : 0 < sb.freeBlocks.toNat := by omega
    have hone : (1 : UInt32) ≤ sb.freeBlocks := by
      rw [UInt32.le_iff_toNat_le]
      exact hpos
    rw [Superblock.takeBlock, if_pos hpos]
    rw [UInt32.toNat_sub_of_le _ _ hone]
    show sb.freeBlocks.toNat - 1 = _
    omega
  small := h.small

/-- Release gives a block back to the marks and to the counter. -/
theorem give (h : Balanced k sb V) {b : Nat} (hin : V.InData b) (hb : V.bit b = true)
    (htotal : V.totalBlocks < 4294967295) :
    Balanced k sb.giveBlock (V.setBit b false) where
  count := by
    have hcount := Vol.clearCount_setBit_false hin hb
    have hroom := Vol.clearCount_lt hin hb
    have hfree := h.count
    have hsmall := h.small
    have hlt : sb.freeBlocks.toNat + 1 < 4294967296 := by omega
    show (sb.freeBlocks + 1).toNat = _
    rw [UInt32.toNat_add]
    show (sb.freeBlocks.toNat + 1) % 4294967296 = _
    rw [Nat.mod_eq_of_lt hlt]
    omega
  small := h.small

end Balanced

end LufiraFs
