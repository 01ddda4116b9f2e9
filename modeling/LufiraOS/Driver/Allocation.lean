import LufiraOS.Driver.Runs

/-!
# What `alloc_block` finds

The scan from the cursor to the end and the scan from the start of the data area to the cursor
together see every block, so with memory for the zeroed buffer `alloc_block` fails only when every
block is in use.
-/

namespace LufiraFs

open ByteStore

namespace Mount

variable {fs : Mount}

/-- What `alloc_block` is for, when nothing fails: it returns a clear block `b` of the data area, or
`0` if there is none, marks that block alone and writes zeros into that block alone. -/
structure Allocates (fs : Mount) (b : Nat) (fs' : Mount) : Prop where
  full : b = 0 ↔ ∀ c, fs.vol.InData c → fs.vol.bit c = true
  clear : b ≠ 0 → fs.vol.InData b ∧ fs.vol.bit b = false
  bit : ∀ c, fs'.vol.bit c = if b ≠ 0 ∧ c = b then true else fs.vol.bit c
  disk : ∀ a, fs'.disk a =
    if b ≠ 0 ∧ (fs.lbaOffset.toNat + b * 16) * 512 ≤ a ∧
      a < (fs.lbaOffset.toNat + b * 16) * 512 + 8192 then 0 else fs.disk a
  cursor : fs.dataStart ≤ fs'.nextFreeBlock ∧ fs'.nextFreeBlock ≤ fs.totalBlocks

/-- Marking a block touches the image and the dirty flags only. -/
theorem blockBitmapSet_eq (fs : Mount) (b : Nat) (u : Bool) : ∃ image dirty,
    fs.blockBitmapSet b u = { fs with image := image, dirty := dirty } := by
  unfold blockBitmapSet markDirty
  split
  · exact ⟨_, fs.dirty, rfl⟩
  · exact ⟨_, _, rfl⟩

/-- With memory `claimBlock` succeeds, and zeros are written into the block. -/
theorem claimBlock_disk (h : fs.Ready) (hheap : fs.env.heap 0 = true) {b : Nat}
    (hin : fs.vol.InData b) : (fs.claimBlock b).1 = b ∧ (fs.claimBlock b).2.disk =
      copyIn fs.disk ((fs.lbaOffset.toNat + b * 16) * 512) 8192 zeros := by
  obtain ⟨image, dirty, hset⟩ := blockBitmapSet_eq fs b true
  have hlba : (fs.lbaOffset.toNat + b * 16) % 4294967296 = fs.lbaOffset.toNat + b * 16 := by
    have := h.fits
    have hb : b < fs.totalBlocks := hin.2
    exact Nat.mod_eq_of_lt (by omega)
  have hdata : ¬ (b < fs.sb.dataStart.toNat ∨ fs.sb.totalBlocks.toNat ≤ b) := by
    have hb : fs.sb.dataStart.toNat ≤ b := hin.1
    have hb' : b < fs.sb.totalBlocks.toNat := hin.2
    omega
  unfold claimBlock
  simp only [hset, kmalloc, hheap, writeDataBlock, dataStart, totalBlocks, if_neg hdata, lbaOf,
    hlba, diskWriteSectors, h.io.2 0, if_true, writeSuperblock, markDirty, true_and]
  split <;> rfl

/-- **Block allocation.** -/
theorem allocates_allocBlock (h : fs.Ready) (hheap : fs.env.heap 0 = true) :
    fs.Allocates fs.allocBlock.1 fs.allocBlock.2 := by
  rcases allocBlock_scan h with ⟨heq, hall⟩ | ⟨b, hin, hclear, heq⟩
  · rw [heq]
    exact ⟨⟨fun _ => hall, fun _ => rfl⟩, fun hne => absurd rfl hne, by simp, by simp,
      h.cursorLo, h.cursorHi⟩
  obtain ⟨hres, hdisk⟩ := claimBlock_disk h hheap hin
  have hb := h.data_pos hin
  obtain ⟨fs', hclaim, -⟩ | ⟨fs', hclaim, hbec⟩ := claimBlock_cases h hin hclear
  · rw [hclaim] at hres
    exact absurd hres.symm hb
  rw [hclaim] at hdisk
  rw [heq, hclaim]
  have hgeo : fs'.dataStart = fs.dataStart ∧ fs'.totalBlocks = fs.totalBlocks :=
    ⟨congrArg Vol.dataStart hbec.vol, congrArg Vol.totalBlocks hbec.vol⟩
  refine ⟨⟨fun h0 => absurd h0 hb, fun hall => ?_⟩, fun _ => ⟨hin, hclear⟩, fun c => ?_,
    fun a => ?_, hgeo.1 ▸ hbec.ready.cursorLo, hgeo.2 ▸ hbec.ready.cursorHi⟩
  · rw [hall b hin] at hclear
    cases hclear
  · rw [hbec.vol, Vol.setBlock_bit]
    by_cases hc : c = b
    · simp [hc, hb]
    · simp [hc]
  · rw [hdisk, copyIn]
    simp [hb]

/-- The first block of an empty region. -/
theorem allocates_allocBlock_blank :
    blankMount.allocBlock.1 = 7 ∧ blankMount.Allocates 7 blankMount.allocBlock.2 := by
  have hfirst : blankMount.allocBlock.1 = 7 := by decide
  exact ⟨hfirst, hfirst ▸ allocates_allocBlock blankMount_ready rfl⟩

end Mount

end LufiraFs
