import LufiraOS.Volume.Growth

/-!
# From bytes to volumes

`volOf` reads a volume from the metadata bytes and the device bytes of a
formatted region.  Every write the driver or the host tool performs on such a
region, of a bitmap bit, an inode record, the superblock or a data block, is one
update of the volume: this is where the byte layout, the bitmap arithmetic and
the sector addresses are dealt with, once for both programs.
-/

namespace LufiraFs

open ByteStore

/-- The superblock with other counters. -/
def Superblock.withFree (sb : Superblock) (blocks inodes : UInt32) : Superblock :=
  { sb with freeBlocks := blocks, freeInodes := inodes }

/-- The counters are not part of the layout. -/
theorem Laid.withFree {sb : Superblock} (h : Laid sb) (blocks inodes : UInt32) :
    Laid (sb.withFree blocks inodes) :=
  ⟨h.1, h.2, h.3, h.4, h.5, h.6, h.7, h.8, h.9, h.10, h.11⟩

theorem withFree_takeBlock (sb : Superblock) :
    ∃ blocks inodes, sb.takeBlock = sb.withFree blocks inodes := by
  unfold Superblock.takeBlock
  split
  · exact ⟨sb.freeBlocks - 1, sb.freeInodes, rfl⟩
  · exact ⟨sb.freeBlocks, sb.freeInodes, rfl⟩

theorem withFree_giveBlock (sb : Superblock) :
    ∃ blocks inodes, sb.giveBlock = sb.withFree blocks inodes :=
  ⟨sb.freeBlocks + 1, sb.freeInodes, rfl⟩

theorem withFree_takeInode (sb : Superblock) :
    ∃ blocks inodes, sb.takeInode = sb.withFree blocks inodes := by
  unfold Superblock.takeInode
  split
  · exact ⟨sb.freeBlocks, sb.freeInodes - 1, rfl⟩
  · exact ⟨sb.freeBlocks, sb.freeInodes, rfl⟩

theorem withFree_giveInode (sb : Superblock) :
    ∃ blocks inodes, sb.giveInode = sb.withFree blocks inodes :=
  ⟨sb.freeBlocks, sb.freeInodes + 1, rfl⟩

/-- The bitmap at `base`, for the block numbers below `total`. -/
def bitIn (m : Bytes) (base total : Nat) : Nat → Bool :=
  fun b => if b < total then bitAt m base b else false

/-- The inode table at `base` with `count` records. -/
def inodeIn (m : Bytes) (base count : Nat) : Nat → Inode :=
  fun i => if i = 0 ∨ count < i then Inode.zero
    else Inode.ofBytes m ((base + (i - 1) * 76) % 4294967296)

/-- The blocks from `lo` to `hi` of the region that starts at sector `lba`. -/
def blockIn (disk : Bytes) (lba lo hi : Nat) : Nat → Bytes :=
  fun b => if lo ≤ b ∧ b < hi then window disk ((lba + b * 16) % 4294967296 * 512) 8192
    else zeros

/-- The volume with superblock `sb`, whose metadata is `image` and whose data
blocks are on `disk` from sector `lba` on. -/
def volOf (sb : Superblock) (image disk : Bytes) (lba : Nat) : Vol where
  dataStart := sb.dataStart.toNat
  totalBlocks := sb.totalBlocks.toNat
  inodeCount := sb.inodeCount.toNat
  rootInode := sb.rootInode.toNat
  bit := bitIn image (sb.bitmapStart.toNat * 8192) sb.totalBlocks.toNat
  inode := inodeIn image (sb.inodeTableStart.toNat * 8192) sb.inodeCount.toNat
  block := blockIn disk lba sb.dataStart.toNat sb.totalBlocks.toNat

/-! ## What the views depend on -/

theorem bitIn_congr {m m' : Bytes} {base total : Nat}
    (h : ∀ b, b < total → m' (base + b / 8) = m (base + b / 8)) :
    bitIn m' base total = bitIn m base total := by
  funext b
  unfold bitIn
  split
  · next hb => rw [bitAt, bitAt, h b hb]
  · rfl

theorem inodeIn_congr {m m' : Bytes} {base count : Nat} (h : ∀ i k, 1 ≤ i → i ≤ count → k < 76 →
      m' ((base + (i - 1) * 76) % 4294967296 + k) = m ((base + (i - 1) * 76) % 4294967296 + k)) :
    inodeIn m' base count = inodeIn m base count := by
  funext i
  unfold inodeIn
  split
  · rfl
  · next hi => exact Inode.ofBytes_congr fun k hk => h i k (by omega) (by omega) hk

theorem blockIn_congr {disk disk' : Bytes} {lba lo hi : Nat}
    (h : ∀ b k, lo ≤ b → b < hi → k < 8192 → disk' ((lba + b * 16) % 4294967296 * 512 + k) =
        disk ((lba + b * 16) % 4294967296 * 512 + k)) :
    blockIn disk' lba lo hi = blockIn disk lba lo hi := by
  funext b
  unfold blockIn
  split
  · next hb => exact window_congr fun k hk => h b k hb.1 hb.2 hk
  · rfl

section

variable {sb : Superblock} {image disk : Bytes} {lba : Nat} {b : Nat}

/-- Where the record of an inode is in the metadata. -/
theorem inodeOff_lt (h : Laid sb) {i : Nat} (hi : i ≤ 512) :
    (sb.inodeTableStart.toNat * 8192 + (i - 1) * 76) % 4294967296 =
      (1 + sb.bitmapBlocks.toNat) * 8192 + (i - 1) * 76 := by
  have hroom := h.room
  have htotal := h.total
  have hdata := h.dataStart
  have hlt : (1 + sb.bitmapBlocks.toNat) * 8192 + (i - 1) * 76 < 4294967296 := by omega
  rw [h.inodeTableStart]
  exact Nat.mod_eq_of_lt hlt

/-- The bit of a block of the region lies in front of the inode table. -/
theorem bitmap_lt (h : Laid sb) (hb : b < sb.totalBlocks.toNat) :
    sb.bitmapStart.toNat * 8192 + b / 8 < (1 + sb.bitmapBlocks.toNat) * 8192 := by
  have hcov := h.bitmapCovers
  rw [h.bitmapStart]
  omega

/-- The sectors of a block of a region that the sector numbers can address. -/
theorem lba_eq (hfits : lba + sb.totalBlocks.toNat * 16 ≤ 4294967296)
    (hb : b < sb.totalBlocks.toNat) : (lba + b * 16) % 4294967296 = lba + b * 16 := by
  have hlt : lba + b * 16 < 4294967296 := by omega
  exact Nat.mod_eq_of_lt hlt

/-- Metadata bytes outside the metadata blocks do not count. -/
theorem volOf_image_congr (h : Laid sb) {image' : Bytes}
    (himg : ∀ a, 8192 ≤ a → a < sb.dataStart.toNat * 8192 → image' a = image a) :
    volOf sb image' disk lba = volOf sb image disk lba := by
  have hdata := h.dataStart
  unfold volOf
  congr 1
  · apply bitIn_congr
    intro b hb
    have hlt := bitmap_lt h hb
    have hle : (1 + sb.bitmapBlocks.toNat) * 8192 ≤ sb.dataStart.toNat * 8192 :=
      Nat.mul_le_mul_right _ (by omega)
    have hstart : 8192 ≤ sb.bitmapStart.toNat * 8192 := by rw [h.bitmapStart]
    exact himg _ (Nat.le_add_right_of_le hstart) (Nat.lt_of_lt_of_le hlt hle)
  apply inodeIn_congr
  intro i k _ hi hk
  have hcount := h.inodeCount
  rw [inodeOff_lt h (by omega)]
  apply himg <;> omega

/-- Device bytes outside the data blocks do not count. -/
theorem volOf_disk_congr (hfits : lba + sb.totalBlocks.toNat * 16 ≤ 4294967296) {disk' : Bytes}
    (hdisk : ∀ a, (lba + sb.dataStart.toNat * 16) * 512 ≤ a →
      a < (lba + sb.totalBlocks.toNat * 16) * 512 → disk' a = disk a) :
    volOf sb image disk' lba = volOf sb image disk lba := by
  unfold volOf
  congr 1
  apply blockIn_congr
  intro b k hlo hhi hk
  rw [lba_eq hfits hhi]
  apply hdisk <;> omega

/-- The data blocks are the same on a device that has the region at another place. -/
theorem volOf_moved {disk' : Bytes} {lba' : Nat}
    (hfits : lba + sb.totalBlocks.toNat * 16 ≤ 4294967296)
    (hfits' : lba' + sb.totalBlocks.toNat * 16 ≤ 4294967296)
    (hdisk : ∀ a, a < sb.totalBlocks.toNat * 8192 → disk' (lba' * 512 + a) = disk (lba * 512 + a)) :
    volOf sb image disk' lba' = volOf sb image disk lba := by
  unfold volOf
  congr 1
  funext b
  unfold blockIn
  split
  · next hb =>
    rw [lba_eq hfits hb.2, lba_eq hfits' hb.2]
    funext k
    by_cases hk : k < 8192
    · have hbyte := hdisk (b * 8192 + k) (by omega)
      rw [window_apply hk, window_apply hk, Nat.add_mul, Nat.add_mul, Nat.mul_assoc]
      rwa [Nat.add_assoc, Nat.add_assoc]
    · simp only [window, if_neg hk]
  · rfl

/-- The view depends on the extent of the region only. -/
theorem volOf_laid_congr {sb' : Superblock} (h : Laid sb) (h' : Laid sb')
    (hdata : sb'.dataStart.toNat = sb.dataStart.toNat)
    (htotal : sb'.totalBlocks.toNat = sb.totalBlocks.toNat) :
    volOf sb' image disk lba = volOf sb image disk lba := by
  have htable : sb'.inodeTableStart.toNat = sb.inodeTableStart.toNat := by
    have hd := h.dataStart
    have hd' := h'.dataStart
    rw [h.inodeTableStart, h'.inodeTableStart]
    omega
  simp only [volOf, hdata, htotal, htable, h.bitmapStart, h'.bitmapStart, h.inodeCount,
    h'.inodeCount, h.rootInode, h'.rootInode]

/-! ## The elementary writes -/

/-- A bitmap write is one update of the volume. -/
theorem volOf_setBit (h : Laid sb) (hb : b < sb.totalBlocks.toNat) (u : Bool) :
    volOf sb (setBitAt image (sb.bitmapStart.toNat * 8192) b u) disk lba =
      (volOf sb image disk lba).setBit b u := by
  unfold volOf Vol.setBit
  congr 1
  · funext c
    by_cases hcb : c = b
    · subst hcb
      simp [bitIn, hb, bitAt_setBitAt]
    · simp [bitIn, bitAt_setBitAt, hcb]
  apply inodeIn_congr
  intro i k _ hi hk
  have hlt := bitmap_lt h hb
  have hcount := h.inodeCount
  rw [inodeOff_lt h (by omega)]
  apply setBitAt_outside
  omega

/-- Writing block 0 with other counters does not change the volume. -/
theorem volOf_superblock (h : Laid sb) (blocks inodes : UInt32) (bytes : Bytes) :
    volOf (sb.withFree blocks inodes) (copyIn image 0 8192 bytes) disk lba =
      volOf sb image disk lba := by
  have hcongr : volOf sb (copyIn image 0 8192 bytes) disk lba = volOf sb image disk lba :=
    volOf_image_congr h fun a hlo _ => copyIn_outside (by omega)
  rw [← hcongr]
  rfl

/-- Writing an inode record is one update of the volume. -/
theorem volOf_setInode (h : Laid sb) {i : Nat} (h1 : 1 ≤ i) (hi : i ≤ sb.inodeCount.toNat)
    (r : Inode) :
    volOf sb (copyIn image
        ((sb.inodeTableStart.toNat * 8192 + (i - 1) * 76) % 4294967296) 76 r.bytes) disk lba =
      (volOf sb image disk lba).setInode i r := by
  have hcount := h.inodeCount
  unfold volOf Vol.setInode
  congr 1
  · apply bitIn_congr
    intro b hb
    have hlt := bitmap_lt h hb
    rw [inodeOff_lt h (by omega)]
    apply copyIn_outside
    omega
  funext j
  by_cases hji : j = i
  · subst hji
    have hvalid : ¬ (j = 0 ∨ sb.inodeCount.toNat < j) := by omega
    rw [Function.update_self, inodeIn, if_neg hvalid, Inode.ofBytes_copyIn]
  rw [Function.update_of_ne hji]
  show inodeIn _ _ _ j = inodeIn _ _ _ j
  unfold inodeIn
  split
  · rfl
  apply Inode.ofBytes_congr
  intro k hk
  rw [inodeOff_lt h (by omega), inodeOff_lt h (by omega)]
  apply copyIn_outside
  omega

/-- Writing a data block is one update of the volume. -/
theorem volOf_setBlock (hfits : lba + sb.totalBlocks.toNat * 16 ≤ 4294967296)
    (hlo : sb.dataStart.toNat ≤ b) (hhi : b < sb.totalBlocks.toNat) (buf : Bytes) :
    volOf sb image (copyIn disk ((lba + b * 16) % 4294967296 * 512) 8192 buf) lba =
      (volOf sb image disk lba).setBlock b (window buf 0 8192) := by
  unfold volOf Vol.setBlock
  congr 1
  funext c
  by_cases hcb : c = b
  · subst hcb
    rw [Function.update_self, blockIn, if_pos ⟨hlo, hhi⟩, window_copyIn_same]
  rw [Function.update_of_ne hcb]
  show blockIn _ _ _ _ c = blockIn _ _ _ _ c
  unfold blockIn
  split
  · next hc =>
    apply window_copyIn_disjoint
    rw [lba_eq hfits hhi, lba_eq hfits hc.2]
    omega
  · rfl

end

end LufiraFs
