import LufiraOS.Mkfs.Content

/-!
# The commands of the host tool

`mkdir` and `put` on a region that `format` made.  A `put` onto a directory
replaces the blocks with its entries by the contents of a file; every other
command leaves a region that the tool can work on.
-/

namespace LufiraFs

open ByteStore

namespace Mkfs

namespace Region

section

variable {g g₁ g' : Region} {parent ino : Nat} {name path : CStr} {data : Bytes}
  {len perm : UInt32}

theorem writeSuperblock_step (h : Firm g) : Step ∅ g g.writeSuperblock := by
  have hvol := writeSuperblock_vol h.laid
  refine ⟨⟨h.laid, ?_, ?_, ?_⟩, ?_, fun {k} hk => ?_⟩ <;> rw [hvol]
  · exact h.sound
  · exact h.filled
  · exact h.tight
  · exact .refl _ _
  · exact hk

/-- The next command finds the region that the last one wrote back. -/
theorem load_image (g : Region) : load g.writeSuperblock.image = g.writeSuperblock :=
  load_writeSuperblock g

/-- **The inode that `cmd_put` writes to** is there already, or it is a new file. -/
theorem putTarget_cases (h : Firm g) (hV : Sane g.vol) (hp : g.vol.Live parent)
    (hname : name.length ≤ 59) (hcall : g.putTarget parent name perm = .ok (ino, g')) :
    (g' = g ∧ g.lookupInDir parent name = .ok (some ino)) ∨
    (g.vol.lookupIn parent name = none ∧ Step {parent, ino} g g' ∧
      Makes parent ino name g.vol g'.vol ∧ (g'.vol.inode ino).mode = modeFile) := by
  obtain ⟨res, hlook, hcall⟩ := bind_ok hcall
  cases res with
  | some i =>
    cases hcall
    exact .inl ⟨rfl, hlook⟩
  | none =>
    obtain ⟨⟨j, g₁⟩, halloc, hcall⟩ := bind_ok hcall
    obtain ⟨g₂, hadd, hcall⟩ := bind_ok hcall
    obtain ⟨rfl, rfl⟩ := Prod.mk.inj (Except.ok.inj hcall)
    obtain ⟨hcount, hvol, hi, hfree⟩ := allocInode_step h halloc
    obtain ⟨hfresh, hrec⟩ := writeInode_fresh hcount.firm (hvol ▸ hi)
      (r := { Inode.zero with mode := modeFile, linksCount := 1, perm := perm }) rfl rfl rfl
    have hone : Step {j} g _ := (hcount.mono (Set.empty_subset _)).trans hfresh
    have hfile : modeFile ≠ modeDir := by decide
    obtain ⟨hstep, hmakes, hnode⟩ := attach_makes h hV hone hi hfree
      (by rw [hrec]; exact (by decide : modeFile ≠ modeFree)) hp hname
      (fun hd => absurd (hd.2.symm.trans (by rw [hrec])) hfile.symm) hadd
    exact .inr ⟨lookupInDir_ok h hp.1 hlook, hstep, hmakes, by rw [hnode, hrec]⟩

/-- The destination of `cmd_put` is not a directory. -/
def FileTarget (g : Region) (path : CStr) : Prop :=
  match g.splitPath path with
  | .error _ => True
  | .ok (parent, name, g) =>
    match g.lookupInDir parent name with
    | .error _ | .ok none => True
    | .ok (some ino) => ¬ g.vol.IsDir ino

instance (g : Region) (path : CStr) : Decidable (g.FileTarget path) := by
  unfold FileTarget
  split
  · exact isTrue trivial
  · split
    · exact isTrue trivial
    · exact isTrue trivial
    · infer_instance

theorem FileTarget.not_isDir (h : g.FileTarget path)
    (hsplit : g.splitPath path = .ok (parent, name, g₁))
    (hlook : g₁.lookupInDir parent name = .ok (some ino)) : ¬ g₁.vol.IsDir ino := by
  unfold FileTarget at h
  rw [hsplit] at h
  dsimp only at h
  rwa [hlook] at h

/-- What the three parts of `cmd_put` are. -/
theorem cmdPut_parts (hcall : g.cmdPut data len path perm = .ok g') :
    ∃ parent name g₁ ino g₂ r g₃, g.splitPath path = .ok (parent, name, g₁) ∧
      g₁.putTarget parent name perm = .ok (ino, g₂) ∧
      putLoop data len.toNat 0 len.toNat (g₂.readInode ino) g₂ = .ok (r, g₃) ∧
      g' = (g₃.writeInode ino (r.setSize len)).writeSuperblock := by
  obtain ⟨⟨parent, name, g₁⟩, hsplit, hcall⟩ := bind_ok hcall
  obtain ⟨⟨ino, g₂⟩, htarget, hcall⟩ := bind_ok hcall
  obtain ⟨⟨r, g₃⟩, hloop, hcall⟩ := bind_ok hcall
  exact ⟨parent, name, g₁, ino, g₂, r, g₃, hsplit, htarget, hloop, (Except.ok.inj hcall).symm⟩

/-- **`cmd_put`** onto something else than a directory. -/
theorem cmdPut_sane (h : Firm g) (hV : Sane g.vol) (hfile : g.FileTarget path)
    (hcall : g.cmdPut data len path perm = .ok g') : Step Set.univ g g' ∧ Sane g'.vol := by
  obtain ⟨parent, name, g₁, ino, g₂, r, g₃, hsplit, htarget, hloop, rfl⟩ := cmdPut_parts hcall
  obtain ⟨hstep₁, hV₁, hp, hname⟩ := splitPath_sane h hV hsplit
  have hfirm₁ := hstep₁.firm
  obtain ⟨hstep₂, hV₂, hi, hnot⟩ : Step Set.univ g₁ g₂ ∧ Sane g₂.vol ∧ g₂.vol.Live ino ∧
      ¬ g₂.vol.IsDir ino := by
    rcases putTarget_cases hfirm₁ hV₁ hp hname htarget with
      ⟨rfl, hlook⟩ | ⟨_, hstep, hmakes, hmode⟩
    · exact ⟨.refl hfirm₁ _, hV₁, hV₁.lookupIn (lookupInDir_ok hfirm₁ hp.1 hlook),
        hfile.not_isDir hsplit hlook⟩
    · refine ⟨hstep.mono (Set.subset_univ _), hmakes.sane hV₁ (dataStart_pos hfirm₁.laid) hp hname,
        hmakes.live_new, fun hd => ?_⟩
      exact absurd (hmode.symm.trans hd.2) (by decide)
  obtain ⟨hstep₃, hmode, _⟩ := putFile_holds hstep₂.firm hi.1 hnot hloop
  have hV₃ := hV₂.keep (dataStart_pos hstep₂.firm.laid) hstep₃.evolves hmode hnot
  have hlast := writeSuperblock_step hstep₃.firm
  refine ⟨((hstep₁.trans hstep₂).trans (hstep₃.mono (Set.subset_univ _))).trans
    (hlast.mono (Set.subset_univ _)), ?_⟩
  rw [writeSuperblock_vol hstep₃.firm.laid]
  exact hV₃

end

end Region

/-! ## Runs of commands -/

/-- A command on an existing region. -/
inductive ToolOp where
  | mkdir (path : CStr)
  | put (data : Bytes) (len : UInt32) (path : CStr) (perm : UInt32)

/-- Run a command; one that gives up does not write the region back. -/
def execTool (image : Bytes) : ToolOp → Bytes
  | .mkdir path =>
    match mkdir image path with
    | .ok image' => image'
    | .error _ => image
  | .put data len path perm =>
    match put image data len path perm with
    | .ok image' => image'
    | .error _ => image

/-- The command is not a `put` onto a directory. -/
def ToolOp.Sparing (image : Bytes) : ToolOp → Prop
  | .mkdir _ => True
  | .put _ _ path _ => (Region.load image).FileTarget path

/-- A command leads from one region to a region that the tool can work on. -/
structure Leads (image image' : Bytes) : Prop where
  step : Region.Step Set.univ (Region.load image) (Region.load image')
  sane : Sane (Region.load image').vol

theorem Leads.refl {image : Bytes} (h : Region.Firm (Region.load image))
    (hV : Sane (Region.load image).vol) : Leads image image := ⟨.refl h _, hV⟩

/-- **One command** that is not a `put` onto a directory. -/
theorem execTool_leads {image : Bytes} (h : Region.Firm (Region.load image))
    (hV : Sane (Region.load image).vol) (op : ToolOp) (hop : op.Sparing image) :
    Leads image (execTool image op) := by
  cases op with
  | mkdir path =>
    rw [execTool]
    split
    · next image' hcall =>
      obtain ⟨⟨ino, g⟩, hensure, hcall⟩ := bind_ok hcall
      cases hcall
      obtain ⟨hstep, hV', _⟩ := Region.ensureDirPath_sane h hV hensure
      have hlast := Region.writeSuperblock_step hstep.firm
      refine ⟨?_, ?_⟩ <;> rw [Region.load_image]
      · exact hstep.trans (hlast.mono (Set.subset_univ _))
      · rw [Region.writeSuperblock_vol hstep.firm.laid]
        exact hV'
    · exact .refl h hV
  | put data len path perm =>
    rw [execTool]
    split
    · next image' hcall =>
      obtain ⟨g, hput, hcall⟩ := bind_ok hcall
      cases hcall
      obtain ⟨hstep, hV'⟩ := Region.cmdPut_sane h hV hop hput
      obtain ⟨_, _, _, _, _, _, g₃, _, _, _, rfl⟩ := Region.cmdPut_parts hput
      refine ⟨?_, ?_⟩ <;> rw [Region.load_image]
      · exact hstep
      · exact hV'
    · exact .refl h hV

end Mkfs

end LufiraFs
