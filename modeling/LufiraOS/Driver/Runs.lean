import LufiraOS.Driver.Release
import LufiraOS.Lib.Run

/-!
# Block ownership over whole runs

Any sequence of `lufirafs_create`, `lufirafs_unlink`, `lufirafs_write` and
`lufirafs_truncate` calls, with any arguments and however their `kmalloc` calls
turn out.

The invariant has to speak about all slots of the inode table.  The calls take
any inode number and do not look at the mode, so a free slot with a stale block
number in it is as good as a live file to them: `staleMount` is a mount whose
live inodes are in order and on which one `lufirafs_truncate` of a free slot
releases the block of a live file.
-/

namespace LufiraFs

open ByteStore Inode

/-- One call of the driver. -/
inductive Op where
  | create (parentIno : UInt32) (name : CStr) (mode uid gid perm : UInt32)
  | unlink (parentIno : UInt32) (name : CStr)
  | write (ino offset : UInt32) (src : Bytes) (count : UInt32)
  | truncate (ino newSize : UInt32)

namespace Mount

/-- Perform one call and forget its result. -/
def exec (fs : Mount) : Op → Mount
  | .create parentIno name mode uid gid perm =>
    (fs.create parentIno.toNat name mode uid gid perm).2
  | .unlink parentIno name => (fs.unlink parentIno.toNat name).2
  | .write ino offset src count => (fs.write ino.toNat offset.toNat src count.toNat).2
  | .truncate ino newSize => (fs.truncate ino.toNat newSize.toNat).2

/-- Whatever the call, ownership is kept. -/
theorem exec_step {fs : Mount} (h : fs.Ready) (hs : Sound fs.vol) (op : Op) :
    ∃ S, Step S fs (fs.exec op) := by
  cases op with
  | create parentIno name mode uid gid perm =>
    obtain ⟨ino, hstep⟩ := create_step h hs parentIno.toNat name mode uid gid perm
    exact ⟨_, hstep⟩
  | unlink parentIno name =>
    obtain ⟨ino, hstep⟩ := unlink_step h hs parentIno.toNat name
    exact ⟨_, hstep⟩
  | write ino offset src count => exact ⟨_, write_step h hs _ _ _ _⟩
  | truncate ino newSize => exact ⟨_, truncate_step h hs _ _⟩

/-- Whatever the calls, ownership is kept. -/
theorem run_sound {fs : Mount} (h : fs.Ready) (hs : Sound fs.vol) (ops : List Op) :
    (Run.run exec fs ops).Ready ∧ Sound (Run.run exec fs ops).vol := by
  refine Run.invariant (I := fun fs : Mount => fs.Ready ∧ Sound fs.vol) ?_ ⟨h, hs⟩ ops
  rintro fs op ⟨hready, hsound⟩
  obtain ⟨S, hstep⟩ := exec_step hready hsound op
  exact ⟨hstep.ready, hstep.sound⟩

end Mount

/-- Block ownership among the inodes in use. -/
structure OwnsBlocks (V : Vol) : Prop where
  range : ∀ {i s}, V.Live i → V.ptr i s ≠ 0 → V.InData (V.ptr i s)
  used : ∀ {i s}, V.Live i → V.ptr i s ≠ 0 → V.bit (V.ptr i s) = true
  inj : ∀ {i s j t}, V.Live i → V.Live j → V.ptr i s ≠ 0 →
    V.ptr i s = V.ptr j t → i = j ∧ s = t

theorem Sound.ownsBlocks {V : Vol} (h : Sound V) : OwnsBlocks V where
  range := fun hi hne => h.range hi.1 hne
  used := fun hi hne => h.used hi.1 hne
  inj := fun hi hj hne heq => h.inj hi.1 hj.1 hne heq

/-- **Block ownership.**  From every formatted mount on which the slots of the
inode table, the free ones included, own their blocks, every run of calls leads
to such a mount; in particular the inodes in use own their blocks. -/
theorem ownsBlocks_of_run {fs : Mount} (h : fs.Ready) (hs : Sound fs.vol) (ops : List Op) :
    Sound (Run.run Mount.exec fs ops).vol ∧ OwnsBlocks (Run.run Mount.exec fs ops).vol := by
  obtain ⟨_, hsound⟩ := Mount.run_sound h hs ops
  exact ⟨hsound, hsound.ownsBlocks⟩

/-- A region of sixteen blocks with an empty inode table. -/
def blankMount : Mount where
  image := zeros
  sb := computeLayout 16 (Superblock.ofBytes zeros)
  dirty := fun _ => false
  lbaOffset := 0
  nextFreeBlock := 7
  disk := zeros
  env := Env.allOk

theorem blankMount_ready : blankMount.Ready where
  laid := computeLayout_laid (by decide) (by decide)
  fits := by decide
  cursorLo := by decide
  cursorHi := by decide
  io := Env.allOk_ioOk

theorem blankMount_inode (i : Nat) : blankMount.vol.inode i = Inode.zero := by
  show inodeIn zeros _ _ i = _
  unfold inodeIn
  split
  · rfl
  · exact ofBytes_zeros _

theorem blankMount_sound : Sound blankMount.vol := by
  have hptr : ∀ i s, blankMount.vol.ptr i s = 0 := by
    intro i s
    rw [Vol.ptr, blankMount_inode, ptrOf_zero]
  exact ⟨fun _ hne => absurd (hptr _ _) hne, fun _ hne => absurd (hptr _ _) hne,
    fun _ _ hne => absurd (hptr _ _) hne⟩

theorem ownsBlocks_of_run_blank :
    blankMount.Ready ∧ Sound blankMount.vol ∧
      OwnsBlocks (Run.run Mount.exec blankMount
        [.create 1 dot modeFile 0 0 420, .write 1 0 zeros 5, .truncate 1 0]).vol :=
  ⟨blankMount_ready, blankMount_sound,
    (ownsBlocks_of_run blankMount_ready blankMount_sound _).2⟩

/-- `blankMount` with a file in slot 2 that owns block 8, and the same block
number left in the free slot 3. -/
def staleMount : Mount :=
  let owner : Inode := { Inode.zero with mode := modeFile, size := 8192, linksCount := 1 }
  let stale : Inode := { Inode.zero with size := 8192 }
  ((blankMount.blockBitmapSet 8 true).writeInode 2 (owner.setDirect 0 8)).writeInode 3
    (stale.setDirect 0 8)

theorem staleMount_becomes : Mount.Becomes blankMount staleMount blankMount.sb
      (((blankMount.vol.setBit 8 true).setInode 2
        (({ Inode.zero with mode := modeFile, size := 8192, linksCount := 1 } : Inode).setDirect
          0 8)).setInode 3 (({ zero with size := 8192 } : Inode).setDirect 0 8)) := by
  have hmark := Mount.blockBitmapSet_becomes blankMount_ready (b := 8) (by decide) true
  have hfile := hmark.trans (Mount.writeInode_becomes hmark.ready (i := 2)
    (by rw [hmark.vol]; decide)
    (({ zero with mode := modeFile, size := 8192, linksCount := 1 } : Inode).setDirect 0 8))
  have hstale := hfile.trans (Mount.writeInode_becomes hfile.ready (i := 3)
    (by rw [hfile.vol, hmark.vol]; decide)
    (({ zero with size := 8192 } : Inode).setDirect 0 8))
  rw [hfile.vol, hmark.vol, hfile.sb, hmark.sb] at hstale
  exact hstale

theorem staleMount_ownsBlocks : OwnsBlocks staleMount.vol := by
  have hvol := staleMount_becomes.vol
  have hmode : ∀ i, i ≠ 2 → (staleMount.vol.inode i).mode = modeFree := by
    intro i hi
    rw [hvol]
    by_cases h3 : i = 3
    · subst h3
      rw [Vol.setInode_inode_same]
      rfl
    rw [Vol.setInode_inode_ne _ _ h3, Vol.setInode_inode_ne _ _ hi, Vol.setBit_inode,
      blankMount_inode]
    rfl
  have hlive : ∀ {i}, staleMount.vol.Live i → i = 2 := by
    intro i hi
    by_contra hne
    exact hi.2 (hmode i hne)
  have hptr : ∀ s, staleMount.vol.ptr 2 s = if s = .direct 0 then 8 else 0 := by
    intro s
    rw [hvol, Vol.setInode_ptr_ne _ _ _ (by decide), Vol.setInode_ptr_same]
    cases s with
    | direct k => by_cases hk : k = 0 <;> simp [ptrOf, setDirect, zero, hk]
    | indirect => simp [ptrOf, setDirect, zero]
    | entry e => simp [ptrOf, setDirect, zero]
  have hslot : ∀ {s}, staleMount.vol.ptr 2 s ≠ 0 → s = .direct 0 := by
    intro s hne
    by_contra hs
    exact hne (by rw [hptr, if_neg hs])
  constructor
  · intro i s hi hne
    obtain rfl := hlive hi
    rw [hslot hne, hptr]
    decide +kernel
  · intro i s hi hne
    obtain rfl := hlive hi
    rw [hslot hne, hptr]
    decide +kernel
  intro i s j t hi hj hne heq
  obtain rfl := hlive hi
  obtain rfl := hlive hj
  exact ⟨rfl, (hslot hne).trans (hslot (heq ▸ hne)).symm⟩

/-- Ownership among the inodes in use is not an invariant: truncating the free
slot 3 of `staleMount` clears the mark of a block of the file in slot 2. -/
theorem ownsBlocks_not_invariant :
    staleMount.Ready ∧ OwnsBlocks staleMount.vol ∧
      ¬ OwnsBlocks (Run.run Mount.exec staleMount [.truncate 3 0]).vol := by
  refine ⟨staleMount_becomes.ready, staleMount_ownsBlocks, fun h => ?_⟩
  have hlive : (Run.run Mount.exec staleMount [.truncate 3 0]).vol.Live 2 :=
    ⟨by decide +kernel, by decide +kernel⟩
  have hptr : (Run.run Mount.exec staleMount [.truncate 3 0]).vol.ptr 2 (.direct 0) = 8 := by
    decide +kernel
  have hused := h.used (s := .direct 0) hlive (by rw [hptr]; decide)
  rw [hptr] at hused
  exact absurd hused (by decide +kernel)

end LufiraFs
