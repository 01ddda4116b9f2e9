import LufiraOS.Mkfs.Commands
import LufiraOS.Mkfs.Mounted

/-!
# The counters of the superblock

`cmd_format` writes the superblock before `add_dirent` takes a block for the
entries of the root, and never again.  From then on every allocation and every
release moves the counter and the marks together, in the tool and in the kernel,
so the counter of free blocks stays one too large.
-/

namespace LufiraFs

open ByteStore Mkfs.Region

/-- The number of slots of the inode table that are free. -/
def Vol.freeSlots (V : Vol) : Nat :=
  ((Finset.Icc 1 V.inodeCount).filter fun i => (V.inode i).mode = modeFree).card

/-- The counters of the superblock agree with the marks and the inode table. -/
def Counted (sb : Superblock) (V : Vol) : Prop :=
  sb.freeBlocks.toNat = V.clearCount ∧ sb.freeInodes.toNat = V.freeSlots

theorem Balanced.not_counted {sb : Superblock} {V : Vol} (h : Balanced 1 sb V) :
    ¬ Counted sb V := by
  intro hcounted
  have hcount := h.count
  rw [hcounted.1] at hcount
  omega

namespace Mkfs

theorem Leads.trans {image image' image'' : Bytes} (h : Leads image image')
    (h' : Leads image' image'') : Leads image image'' := ⟨h.step.trans h'.step, h'.sane⟩

/-- A run of commands none of which is a `put` onto a directory. -/
theorem Leads.run {image : Bytes} {cmds : List ToolOp} (h : Leads image image)
    (hcmds : Run.Meets execTool (fun image op => op.Sparing image) image cmds) :
    Leads image (Run.run execTool image cmds) :=
  Run.Meets.invariant (I := Leads image)
    (fun _ op hlead hop => hlead.trans (execTool_leads hlead.step.firm hlead.sane op hop)) hcmds h

end Mkfs

/-- A call of the driver on a mounted region. -/
inductive KernelOp where
  | op (o : Op)
  | sync

namespace Mount

/-- Perform one call and forget its result. -/
def execKernel (fs : Mount) : KernelOp → Mount
  | .op o => fs.exec o
  | .sync => fs.sync

theorem execKernel_step {fs : Mount} (h : fs.Ready) (hs : Sound fs.vol) (op : KernelOp) :
    ∃ S, Step S fs (fs.execKernel op) := by
  cases op with
  | op o => exact exec_step h hs o
  | sync => exact ⟨∅, .ofBecomes (sync_becomes h) hs (.refl _ _) rfl rfl⟩

/-- The excess of the counter is an invariant of every run. -/
theorem run_balanced {fs : Mount} {k : Nat} (h : fs.Ready) (hs : Sound fs.vol)
    (hk : Balanced k fs.sb fs.vol) (ops : List KernelOp) :
    Balanced k (Run.run execKernel fs ops).sb (Run.run execKernel fs ops).vol := by
  have hstep : ∀ fs op, (fs.Ready ∧ Sound fs.vol ∧ Balanced k fs.sb fs.vol) →
      (execKernel fs op).Ready ∧ Sound (execKernel fs op).vol ∧
        Balanced k (execKernel fs op).sb (execKernel fs op).vol := by
    rintro fs op ⟨h, hs, hk⟩
    obtain ⟨S, hstep⟩ := execKernel_step h hs op
    exact ⟨hstep.ready, hstep.sound, hstep.accounts hk⟩
  exact (Run.invariant (I := fun fs : Mount => fs.Ready ∧ Sound fs.vol ∧ Balanced k fs.sb fs.vol)
    hstep ⟨h, hs, hk⟩ ops).2.2

end Mount

/-- **The counters never agree.**  On a formatted region, after any commands of the
tool that do not put a file onto a directory, and after any calls of the kernel
that mounts it, the counter of free blocks is not the number of clear marks. -/
theorem freeBlocks_never_counted {size : UInt32} {image : Bytes}
    (hformat : Mkfs.format size = .ok image) {cmds : List Mkfs.ToolOp}
    (hcmds : Run.Meets Mkfs.execTool (fun image op => op.Sparing image) image cmds)
    {image' : Bytes} (himage : image' = Run.run Mkfs.execTool image cmds) :
    ¬ Counted (Mkfs.Region.load image').sb (Mkfs.Region.load image').vol ∧
      ∀ {disk lba env fs}, Mkfs.Stored disk lba size image' → env.IoOk →
        initMount disk lba env = some fs → ∀ ops : List KernelOp,
        ¬ Counted (Run.run Mount.execKernel fs ops).sb (Run.run Mount.execKernel fs ops).vol := by
  obtain ⟨htidy, htotal, hbalanced⟩ := Mkfs.format_ok hformat
  have hlead := (Mkfs.Leads.refl htidy.firm htidy.orderly.sane).run hcmds
  rw [← himage] at hlead
  have hone := hlead.step.accounts hbalanced
  refine ⟨hone.not_counted, fun {disk lba env fs} hstored hio hinit ops => ?_⟩
  have hsize : (load image').sb.totalBlocks.toNat * 8192 ≤ size.toNat := by
    have hsame : (load image').sb.totalBlocks.toNat =
        (load image).sb.totalBlocks.toNat := hlead.step.evolves.geo.totalBlocks
    rw [hsame, htotal, UInt32.toNat_div]
    exact Nat.div_mul_le_self _ _
  obtain ⟨hready, _, hsb, hvol⟩ := hstored.mounted hlead.step.firm.laid hsize hio hinit
  refine (Mount.run_balanced hready ?_ ?_ ops).not_counted
  · rw [hvol]
    exact hlead.step.firm.sound
  · rw [hsb, hvol]
    exact hone

/-- A directory and a file in it, made by the tool. -/
theorem freeBlocks_never_counted_small :
    Run.Meets Mkfs.execTool (fun image op => op.Sparing image) smallImage
        [.mkdir dirPath, .put zeros 3 (dirPath ++ dirPath) 420] ∧
      ∃ image, image = Run.run Mkfs.execTool smallImage
        [.mkdir dirPath, .put zeros 3 (dirPath ++ dirPath) 420] ∧
        ¬ Counted (Mkfs.Region.load image).sb (Mkfs.Region.load image).vol := by
  have hput : (load (Mkfs.execTool smallImage (.mkdir dirPath))).FileTarget
      (dirPath ++ dirPath) := by
    decide +kernel
  have hcmds : Run.Meets Mkfs.execTool (fun image op => op.Sparing image) smallImage
      [.mkdir dirPath, .put zeros 3 (dirPath ++ dirPath) 420] := ⟨trivial, hput, trivial⟩
  exact ⟨hcmds, _, rfl, (freeBlocks_never_counted smallImage_eq hcmds rfl).1⟩

/-- A freshly formatted region of 16 blocks has 8 clear marks and counts 9. -/
theorem smallImage_not_counted :
    Mkfs.format 131072 = .ok smallImage ∧
      ¬ Counted (Mkfs.Region.load smallImage).sb (Mkfs.Region.load smallImage).vol := by
  have hcounter : (load smallImage).sb.freeBlocks.toNat = 9 := by decide +kernel
  have hclear : (load smallImage).vol.clearCount = 8 := by decide +kernel
  refine ⟨smallImage_eq, fun hcounted => ?_⟩
  have hsame := hcounted.1
  rw [hcounter, hclear] at hsame
  omega

end LufiraFs
