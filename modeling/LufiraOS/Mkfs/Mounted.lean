import LufiraOS.Mkfs.Format
import LufiraOS.Driver.Sync
import LufiraOS.Driver.Tree

/-!
# A region of the tool in the kernel

The kernel mounts what the tool has left on the disk.  The mount and the region
stand for the same volume, so that what the tool establishes is where runs of
the kernel start.
-/

namespace LufiraFs

open ByteStore

namespace Mkfs

/-- The region of `size` bytes at sector `lba` of the disk is `image`, and the
sector numbers reach to its end. -/
structure Stored (disk : Bytes) (lba size : UInt32) (image : Bytes) : Prop where
  fits : lba.toNat * 512 + size.toNat ≤ 4294967296 * 512
  bytes : ∀ a, a < size.toNat → disk (lba.toNat * 512 + a) = image a

section

variable {disk image : Bytes} {lba size : UInt32} {env : Env} {fs : Mount}

section

variable (h : Stored disk lba size image)

include h

/-- The superblock that the kernel reads. -/
theorem Stored.superblock (hsize : 8192 ≤ size.toNat) :
    Superblock.ofBytes (window disk (lba.toNat * 512) 8192) = (Region.load image).sb := by
  apply Superblock.ofBytes_congr
  intro a ha
  rw [window_apply ha, h.bytes a (by omega)]

/-- **The mount of a region** stands for the volume of the region. -/
theorem Stored.mounted (hlaid : Laid (Region.load image).sb)
    (hsize : (Region.load image).sb.totalBlocks.toNat * 8192 ≤ size.toNat) (hio : env.IoOk)
    (hinit : initMount disk lba env = some fs) :
    fs.Ready ∧ env.Leads fs.env ∧ fs.sb = (Region.load image).sb ∧
      fs.vol = (Region.load image).vol := by
  have hroom := hlaid.room
  have hfits := h.fits
  have hfits' : lba.toNat + (Region.load image).sb.totalBlocks.toNat * 16 ≤ 4294967296 := by omega
  obtain ⟨hsb, hlba, hdisk, hcursor, hleads, himage⟩ :=
    initMount_spec (h.superblock (by omega)) hlaid hfits' hinit
  refine ⟨⟨hsb ▸ hlaid, ?_, ?_, ?_, hleads.ioOk hio⟩, hleads, hsb, ?_⟩
  · show fs.lbaOffset.toNat + fs.sb.totalBlocks.toNat * 16 ≤ _
    rw [hlba, hsb]
    exact hfits'
  · show fs.sb.dataStart.toNat ≤ _
    rw [hcursor, hsb]
  · show _ ≤ fs.sb.totalBlocks.toNat
    rw [hcursor, hsb]
    omega
  have hmeta : volOf (Region.load image).sb fs.image disk lba.toNat =
      volOf (Region.load image).sb image disk lba.toNat :=
    volOf_image_congr hlaid fun a _ ha => by rw [himage a ha, h.bytes a (by omega)]
  rw [Mount.vol, hsb, hlba, hdisk, hmeta]
  refine volOf_moved (Region.fits hlaid) hfits' fun a ha => ?_
  rw [h.bytes a (by omega), Nat.zero_mul, Nat.zero_add]
  rfl

/-- The mount of a freshly formatted region. -/
theorem Stored.formatted (hformat : format size = .ok image)
    (hio : env.IoOk) (hinit : initMount disk lba env = some fs) :
    fs.Ready ∧ env.Leads fs.env ∧ fs.sb = (Region.load image).sb ∧
      fs.vol = (Region.load image).vol := by
  obtain ⟨htidy, htotal, _⟩ := format_ok hformat
  refine h.mounted htidy.firm.laid ?_ hio hinit
  rw [htotal, UInt32.toNat_div]
  exact Nat.div_mul_le_self _ _

theorem Stored.tidy (hformat : format size = .ok image)
    (hinit : initMount disk lba Env.allOk = some fs) : Mount.Tidy fs := by
  obtain ⟨htidy, _⟩ := format_ok hformat
  obtain ⟨hready, hleads, _, hvol⟩ := h.formatted hformat Env.allOk_ioOk hinit
  refine ⟨hready, hleads.allOk, ?_, ?_⟩ <;> rw [hvol]
  · exact htidy.firm.sound
  · exact htidy.orderly

end

end

end Mkfs

/-- **The directory tree.**  Mount a freshly formatted region and perform any path
operations that create in directories and do not remove under the name `"."`,
with nothing failing: the tree is well formed. -/
theorem treeOk_of_run {disk image : Bytes} {lba size : UInt32} {fs : Mount}
    (hformat : Mkfs.format size = .ok image) (hstored : Mkfs.Stored disk lba size image)
    (hinit : initMount disk lba Env.allOk = some fs) (ops : List Mount.PathOp)
    (hops : Run.Meets Mount.execPath Mount.Proper fs ops) :
    (Run.run Mount.execPath fs ops).vol.TreeOk := by
  have hrun : Mount.Tidy (Run.run Mount.execPath fs ops) :=
    Run.Meets.invariant (I := Mount.Tidy) (fun _ op h hop => h.execPath op hop) hops
      (hstored.tidy hformat hinit)
  exact hrun.orderly.tree

/-- The region that formatting 16 blocks leaves. -/
def smallImage : Bytes :=
  match Mkfs.format 131072 with
  | .ok image => image
  | .error _ => zeros

theorem smallImage_eq : Mkfs.format 131072 = .ok smallImage := by
  have hok : (match Mkfs.format 131072 with | .ok _ => true | .error _ => false) = true := by
    decide +kernel
  unfold smallImage
  cases hformat : Mkfs.format 131072 with
  | ok image => rfl
  | error e =>
    rw [hformat] at hok
    cases hok

theorem smallImage_stored : Mkfs.Stored smallImage 0 131072 smallImage :=
  ⟨by decide, fun a _ => congrArg smallImage (Nat.zero_add a)⟩

/-- The mount of `smallImage`, alone on its disk. -/
def smallMount : Mount := (initMount smallImage 0 Env.allOk).getD blankMount

theorem smallMount_eq : initMount smallImage 0 Env.allOk = some smallMount := by
  obtain ⟨htidy, _⟩ := Mkfs.format_ok smallImage_eq
  obtain ⟨fs, hfs⟩ := Option.isSome_iff_exists.1
    (initMount_isSome (smallImage_stored.superblock (by decide)) htidy.firm.laid)
  rw [smallMount, hfs]
  rfl

theorem smallMount_tidy : smallMount.Tidy := smallImage_stored.tidy smallImage_eq smallMount_eq

theorem smallMount_heapOk : smallMount.HeapOk := by
  intro n
  rw [smallMount_tidy.env]
  rfl

theorem dirChar_ne_zero : (100 : UInt8) ≠ 0 := by decide

/-- `"/d"`. -/
def dirPath : CStr := [slash, ⟨100, dirChar_ne_zero⟩]

/-- A directory, a file in it, and the file removed by its name from the directory. -/
theorem treeOk_of_run_small : Run.Meets Mount.execPath Mount.Proper smallMount
      [.mkdir 1 dirPath 0 0, .create 2 dirPath.tail 0 0, .unlink 2 dirPath.tail] ∧
    (Run.run Mount.execPath smallMount
      [.mkdir 1 dirPath 0 0, .create 2 dirPath.tail 0 0, .unlink 2 dirPath.tail]).vol.TreeOk := by
  refine ⟨?hops, treeOk_of_run smallImage_eq smallImage_stored smallMount_eq _ ?hops⟩
  decide +kernel

/-- An entry that names a free inode breaks the tree. -/
theorem not_treeOk_of_dangling {V : Vol} {d n i : Nat} {name : CStr} (hd : V.IsDir d)
    (hentry : V.entryAt d n = some (i, name)) (hfree : ¬ V.Live i) : ¬ V.TreeOk :=
  fun htree => hfree (htree.target hd hentry)

/-- Removing `"/d/."` frees the inode of the directory; the entry `"d"` of the root
is left behind. -/
theorem treeOk_not_invariant :
    Mkfs.format 131072 = .ok smallImage ∧ initMount smallImage 0 Env.allOk = some smallMount ∧
      ¬ (Run.run Mount.execPath smallMount
        [.mkdir 1 dirPath 0 0, .unlink 1 (dirPath ++ slash :: dot)]).vol.TreeOk := by
  refine ⟨smallImage_eq, smallMount_eq, not_treeOk_of_dangling (d := 1) (n := 2) ?_
    (?_ : _ = some (2, dirPath.tail)) ?_⟩
  all_goals decide +kernel

end LufiraFs
