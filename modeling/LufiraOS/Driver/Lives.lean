import LufiraOS.Driver.Paths
import LufiraOS.Volume.Tree

/-!
# Live files stay live

Only `lufirafs_unlink` ends the life of a file, and only of the one it removes:
every other call leaves the mode of each used inode as it is, the failing paths
of `lufirafs_create` included, which give back the slot they have taken.
-/

namespace LufiraFs

open ByteStore

namespace Mount

variable {fs fs' fs'' : Mount} {S : Set Nat} {ino : Nat} {r : Inode}

/-- Every file that was in use still is. -/
def KeepsFiles (fs fs' : Mount) : Prop := ∀ j, fs.vol.Live j → fs'.vol.Live j

theorem KeepsFiles.trans (h : KeepsFiles fs fs') (h' : KeepsFiles fs' fs'') :
    KeepsFiles fs fs'' := fun j hj => h' j (h j hj)

theorem KeepsFiles.of_vol (h : fs'.vol = fs.vol) : KeepsFiles fs fs' := by
  intro j hj
  rw [h]
  exact hj

/-- A step keeps the files in use if it keeps the modes of those it touches. -/
theorem Step.keepsFiles (h : Step S fs fs')
    (hmode : ∀ j ∈ S, fs.vol.Live j → (fs'.vol.inode j).mode = (fs.vol.inode j).mode) :
    KeepsFiles fs fs' := by
  intro j hj
  exact (h.evolves.live_iff fun hS => hmode j hS hj).2 hj

/-! ## The copy of the record -/

theorem indirectGetBlock_mode (fs : Mount) (r : Inode) (idx : Nat) (create : Bool) :
    (fs.indirectGetBlock r idx create).2.1 = r := by
  unfold indirectGetBlock
  grind

theorem inodeGetBlock_mode (fs : Mount) (r : Inode) (b : Nat) (create : Bool) :
    (fs.inodeGetBlock r b create).2.1.mode = r.mode := by
  unfold inodeGetBlock
  split
  · split
    · split
      split <;> rfl
    · rfl
  split
  · rfl
  split
  · split
    · split
      split
      · rfl
      · rw [indirectGetBlock_mode]
        rfl
    · rfl
  · rw [indirectGetBlock_mode]

theorem writeLoop_mode (src : Bytes) (fuel pos remaining done : Nat) (r : Inode) (fs : Mount) :
    (writeLoop src fuel pos remaining done r fs).2.2.1.mode = r.mode := by
  induction fuel generalizing pos remaining done r fs with
  | zero => rfl
  | succ fuel ih =>
    have hget := inodeGetBlock_mode fs r (pos / 8192) true
    by_cases hrem : remaining = 0
    · simp [writeLoop, hrem]
    by_cases h0 : (fs.inodeGetBlock r (pos / 8192) true).1 = 0
    · simp [writeLoop, hrem, h0, hget]
    · simp only [writeLoop, hrem, h0, if_false]
      rw [ih, hget]

theorem truncateLoop_mode (b n : Nat) (r : Inode) (ind : Option Bytes) (dirty : Bool) (fs : Mount) :
    (truncateLoop b n r ind dirty fs).1.mode = r.mode := by
  induction n generalizing b r ind dirty fs with
  | zero => rfl
  | succ n ih =>
    unfold truncateLoop
    split
    split
    · exact ih _ _ _ _ _
    split
    · rw [ih]
      rfl
    split <;> exact ih _ _ _ _ _

theorem shrink_mode (fs : Mount) (r : Inode) (newSize : Nat) :
    (fs.shrink r newSize).1.mode = r.mode := by
  unfold shrink
  dsimp only
  generalize fs.loadIndirect _ _ = loaded
  obtain ⟨ind, fs₁⟩ := loaded
  generalize hloop : truncateLoop (blocksOf newSize) _ r ind false fs₁ = done
  have hmode : done.1.mode = r.mode := by
    rw [← hloop]
    exact truncateLoop_mode _ _ _ _ _ _
  split <;> exact hmode

/-! ## The calls -/

theorem mode_writeInode (h : fs.Ready) (hi : fs.vol.IsIno ino) (r : Inode) :
    ((fs.writeInode ino r).vol.inode ino).mode = r.mode := by
  rw [(writeInode_becomes h hi r).vol, Vol.setInode_inode_same]

section

variable (h : fs.Ready) (hs : Sound fs.vol)

include h hs

/-- **`lufirafs_write`** keeps the files in use. -/
theorem write_keepsFiles (ino offset : Nat) (src : Bytes)
    (count : Nat) : KeepsFiles fs (fs.write ino offset src count).2 := by
  refine (write_step h hs ino offset src count).keepsFiles ?_
  rintro _ rfl hlive
  rename_i ino
  rcases write_cases h hs hlive.1 offset src count with
    ⟨e, heq, -⟩ | ⟨fs₀, r, fs', size, heq, rfl, hedit⟩
  · rw [heq]
    rfl
  · rw [heq, mode_writeInode hedit.ready (hedit.evolves.geo.isIno.2 hlive.1)]
    exact writeLoop_mode _ _ _ _ _ _ _

/-- **`lufirafs_truncate`** keeps the files in use. -/
theorem truncate_keepsFiles (ino newSize : Nat) : KeepsFiles fs (fs.truncate ino newSize).2 := by
  refine (truncate_step h hs ino newSize).keepsFiles ?_
  rintro _ rfl hlive
  rename_i ino
  unfold truncate
  rw [readInode_some hlive.1]
  dsimp only
  split
  · obtain ⟨r, fs', heq, hedit⟩ := shrink_edit h hs hlive.1 newSize
    have hmode := shrink_mode fs (fs.vol.inode ino) newSize
    rw [heq] at hmode ⊢
    rw [mode_writeInode hedit.ready (hedit.evolves.geo.isIno.2 hlive.1)]
    exact hmode
  · rw [mode_writeInode h hlive.1]
    rfl

/-- `add_dirent` keeps the mode of its directory. -/
theorem addDirent_mode (d : Nat) (name : CStr) (i : Nat) :
    ((fs.addDirent d name i).2.vol.inode d).mode = (fs.vol.inode d).mode := by
  rcases addDirent_cases h hs d name i with
    ⟨e, heq, _⟩ | ⟨r', fs₁, heq, _, hdraft⟩ | ⟨c, bn, k, fs₁, heq, _, _, _, _, _, hbec⟩ |
      ⟨bn, r', fs₁, fs₂, heq, _, hdraft, _, _, hbec⟩
  · rw [heq]
    rfl
  · rw [heq, hdraft.table]
  · rw [heq, hbec.vol]
    rfl
  · rw [heq, hbec.vol, Vol.setInode_inode_same]
    have hmode := hdraft.gains.attrs.mode
    rw [Vol.setInode_inode_same, Vol.setInode_inode_same] at hmode
    exact hmode

theorem addDirent_keepsFiles (d : Nat) (name : CStr) (i : Nat) :
    KeepsFiles fs (fs.addDirent d name i).2 := by
  obtain ⟨ok, fs', heq, hstep⟩ := addDirent_step h hs d name i
  have hmode := addDirent_mode h hs d name i
  rw [heq] at hmode ⊢
  refine hstep.keepsFiles ?_
  rintro _ rfl _
  exact hmode

end

/-- `remove_dirent` leaves the inode table alone. -/
theorem removeDirent_keepsFiles (h : fs.Ready) (d : Nat) (name : CStr) :
    KeepsFiles fs (fs.removeDirent d name).2 := by
  rcases removeDirent_cases h d name with ⟨e, heq, _⟩ | ⟨c, bn, k, fs', heq, _, _, _, _, _, hbec⟩
  · rw [heq]
    exact .of_vol rfl
  intro j hj
  rw [heq, hbec.vol]
  exact hj

/-- What happens to a free slot is of no account for the files in use. -/
theorem Step.keepsFiles_of_free (h : Step {ino} fs fs')
    (hfree : (fs.vol.inode ino).mode = modeFree) : KeepsFiles fs fs' := by
  refine h.keepsFiles ?_
  rintro _ rfl hlive
  exact absurd hfree hlive.2

section

variable (h : fs.Ready) (hs : Sound fs.vol)

include h hs

theorem addDots_keepsFiles (ino parentIno : Nat) (mode : UInt32) :
    KeepsFiles fs (fs.addDots ino parentIno mode).2 := by
  unfold addDots
  split
  · have hone := addDirent_keepsFiles h hs ino dot ino
    obtain ⟨ok, fs₁, hadd, hstep⟩ := addDirent_step h hs ino dot ino
    rw [hadd] at hone ⊢
    cases ok with
    | false => exact hone
    | true => exact hone.trans (addDirent_keepsFiles hstep.ready hstep.sound ino dotDot parentIno)
  · exact .of_vol rfl

/-- The parent keeps its mode; the slot was free, and is given back on failure. -/
theorem createInode_keepsFiles (hi : fs.vol.IsIno ino)
    (hfree : (fs.vol.inode ino).mode = modeFree) (parentIno : Nat) (name : CStr)
    (mode uid gid perm : UInt32) :
    KeepsFiles fs (fs.createInode parentIno name mode uid gid perm ino).2 := by
  have hwrite : Step {ino} fs (fs.writeInode ino (newInode mode uid gid perm)) :=
    .ofBecomes (writeInode_becomes h hi _)
      (hs.setInode fun _ => Or.inr (ptrOf_of_none rfl rfl _ _)) (.setInode _ _ _) rfl rfl
  have hdotsKeep := addDots_keepsFiles hwrite.ready hwrite.sound ino parentIno mode
  obtain ⟨ok, fs₁, hdots, hstep⟩ := addDots_step hwrite.ready hwrite.sound ino parentIno mode
  have hone := hwrite.trans hstep
  rw [hdots] at hdotsKeep
  have hkeep₁ : KeepsFiles fs fs₁ := (hwrite.keepsFiles_of_free hfree).trans hdotsKeep
  -- giving the slot back ends no file that was there before
  have hgiveBack : ∀ {fs₂}, fs₂.Ready → fs₂.vol.IsIno ino → KeepsFiles fs fs₂ →
      KeepsFiles fs (fs₂.freeInodeSlot ino) := by
    intro fs₂ h₂ hi₂ hkeep j hj
    have hne : j ≠ ino := by
      rintro rfl
      exact hj.2 hfree
    have hj₂ := hkeep j hj
    rw [(freeInodeSlot_becomes h₂ hi₂).vol]
    exact ⟨hj₂.1, by rw [Vol.setInode_inode_ne _ _ hne]; exact hj₂.2⟩
  unfold createInode
  simp only [hdots]
  cases ok with
  | false => exact hgiveBack hone.ready (hone.isIno.2 hi) hkeep₁
  | true =>
    have haddKeep := addDirent_keepsFiles hone.ready hone.sound parentIno name ino
    obtain ⟨ok₂, fs₂, hadd, hlink⟩ := addDirent_step hone.ready hone.sound parentIno name ino
    rw [hadd] at haddKeep
    simp only [hadd]
    cases ok₂ with
    | false =>
      exact hgiveBack hlink.ready (hlink.isIno.2 (hone.isIno.2 hi)) (hkeep₁.trans haddKeep)
    | true => exact hkeep₁.trans haddKeep

/-- **`lufirafs_create`** keeps the files in use. -/
theorem create_keepsFiles (parentIno : Nat) (name : CStr) (mode uid gid perm : UInt32) :
    KeepsFiles fs (fs.create parentIno name mode uid gid perm).2 := by
  rcases create_cases h parentIno name mode uid gid perm with
    ⟨res, e, heq, -⟩ | ⟨ino, fs₁, heq, hi, hfree, hbec, -⟩
  · rw [heq]
    exact .of_vol rfl
  have hvol := hbec.vol
  rw [heq]
  exact (KeepsFiles.of_vol hvol).trans (createInode_keepsFiles hbec.ready (hvol ▸ hs)
    (hvol ▸ hi) (hvol ▸ hfree) parentIno name mode uid gid perm)

/-- **`lufirafs_unlink`** keeps every file but the one it removes. -/
theorem unlink_live (parentIno : Nat) (name : CStr) {j : Nat}
    (hne : (fs.lookupInDir parentIno name).1 ≠ some j) (hj : fs.vol.Live j) :
    (fs.unlink parentIno name).2.vol.Live j := by
  rcases unlink_cases h parentIno name with
    ⟨res, e, heq, -⟩ | ⟨ino, e, heq, hleads, hi, -, hlook, -⟩
  · rw [heq]
    exact hj
  have hother : j ∉ ({ino} : Set Nat) := fun hmem =>
    hne (by rw [hlook, Set.mem_singleton_iff.1 hmem])
  obtain ⟨hfreed, _⟩ := releaseInode_step (h.withEnv hleads) hs hi
  rw [heq]
  exact removeDirent_keepsFiles hfreed.ready parentIno name j
    ((hfreed.evolves.live_iff fun hS => absurd hS hother).2 hj)

end

/-! ## Reading -/

theorem readLoop_uses (fs : Mount) (r : Inode) (fuel pos remaining : Nat) :
    Uses fs (readLoop r fuel pos remaining fs).2 := by
  induction fuel generalizing pos remaining fs with
  | zero => exact .refl fs
  | succ fuel ih =>
    unfold readLoop
    split
    · exact .refl fs
    · exact (fs.fetchBlock_uses r _).trans (ih _ _ _)

/-- **`lufirafs_read`** changes nothing but the environment. -/
theorem read_uses (fs : Mount) (ino offset count : Nat) :
    Uses fs (fs.read ino offset count).2.2 := by
  unfold read
  split
  · exact .refl fs
  split
  · exact .refl fs
  dsimp only
  split
  · next heq => exact fs.kmalloc_uses.ofEq heq
  · next heq => exact (fs.kmalloc_uses.ofEq heq).trans (readLoop_uses _ _ _ _ _)

end Mount

end LufiraFs
