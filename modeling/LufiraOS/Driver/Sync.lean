import LufiraOS.Driver.Durability

/-!
# Mounting and write-back

`lufirafs_init` establishes the write-back invariant, and `lufirafs_sync` leaves
no block dirty.  Together with the calls in between this gives durability: after
a sync the metadata on the device is the metadata in memory, and a new mount
reads it back.

The calls in between must not write a record that lies across a block boundary:
`writeInode_lost` is a run in which the second half of such a record does not
reach the device.
-/

namespace LufiraFs

open ByteStore Mount Superblock

variable {disk : Bytes} {lba : UInt32} {sb₀ : Superblock}

namespace Mount

variable {fs : Mount}

/-! ## Write-back -/

/-- What the loop of `lufirafs_sync` does: the blocks it passes are clean
afterwards, and no block has become dirty. -/
theorem syncLoop_durable (b n : Nat) (h : Durable sb₀ lba fs) (hn : b + n ≤ sb₀.dataStart.toNat) :
    Durable sb₀ lba (syncLoop b n fs) ∧ (syncLoop b n fs).image = fs.image ∧
      (syncLoop b n fs).sb = fs.sb ∧
      (∀ c, fs.dirty c = false → (syncLoop b n fs).dirty c = false) ∧
      (∀ c, b ≤ c → c < b + n → (syncLoop b n fs).dirty c = false) := by
  induction n generalizing b fs with
  | zero => exact ⟨h, rfl, rfl, fun _ hc => hc, fun c hlo hhi => by omega⟩
  | succ n ih =>
    have hfits := h.fits
    have hroom := h.laid.room
    unfold syncLoop
    split
    · have hlba : fs.lbaOf b * 512 = lba.toNat * 512 + b * 8192 := by
        rw [lbaOf, h.start, Nat.mod_eq_of_lt (by omega)]
        omega
      -- one block is written and its flag cleared
      have hflush : Durable sb₀ lba
          { (fs.diskWriteSectors (fs.lbaOf b) 16 (window fs.image (b * 8192) 8192)).2 with
            dirty := Function.update fs.dirty b false } := by
        refine ⟨h.1, h.2, h.3, h.4, h.5, fun k => h.6 _, h.7, ?_⟩
        have hbehind := h.behind.flush b
        simp only [diskWriteSectors, h.wr 0, if_true, hlba]
        exact hbehind
      obtain ⟨hdur, himage, hsb, hkeep, hdone⟩ := ih (b + 1) hflush (by omega)
      simp only [diskWriteSectors, h.wr 0, if_true] at hdur himage hsb hkeep hdone ⊢
      have hself : ∀ c, fs.dirty c = false → Function.update fs.dirty b false c = false := by
        intro c hc
        by_cases hcb : c = b
        · simp [hcb]
        · rwa [Function.update_of_ne hcb]
      refine ⟨hdur, himage, hsb, fun c hc => hkeep c (hself c hc), fun c hlo hhi => ?_⟩
      by_cases hcb : c = b
      · exact hkeep c (by simp [hcb])
      · exact hdone c (by omega) (by omega)
    · next hclean =>
      obtain ⟨hdur, himage, hsb, hkeep, hdone⟩ := ih (b + 1) h (by omega)
      refine ⟨hdur, himage, hsb, hkeep, fun c hlo hhi => ?_⟩
      by_cases hcb : c = b
      · subst hcb
        exact hkeep c (by simpa using hclean)
      · exact hdone c (by omega) (by omega)

/-- **`lufirafs_sync`** brings the metadata to the device. -/
theorem sync_durable (h : Durable sb₀ lba fs) :
    Durable sb₀ lba fs.sync ∧ fs.sync.image = fs.image ∧ fs.sync.sb = fs.sb ∧
      ∀ a, a < sb₀.dataStart.toNat * 8192 →
        fs.sync.disk (lba.toNat * 512 + a) = fs.sync.image a := by
  obtain ⟨hdur, himage, hsb, _, hclean⟩ := syncLoop_durable 0 fs.dataStart h
    (by rw [h.dataStart_eq]; omega)
  rw [h.dataStart_eq] at hdur himage hsb hclean
  rw [sync, h.dataStart_eq]
  exact ⟨hdur, himage, hsb, fun a ha =>
    hdur.behind.synced (fun b hb => hclean b (by omega) (by omega)) ha⟩

/-! ## Mounting -/

set_option maxRecDepth 4000 in
/-- The loop of `lufirafs_init` copies the sectors from `done` on. -/
theorem loadMeta_copies {total fuel done : Nat} {fs' : Mount}
    (hfuel : total ≤ done + fuel) (hfits : fs.lbaOffset.toNat + total ≤ 4294967296)
    (heq : loadMeta total fuel done fs = (true, fs')) :
    fs' = { fs with image := fs'.image, env := fs'.env } ∧
      fs.env.Leads fs'.env ∧
      (∀ a, a < done * 512 → fs'.image a = fs.image a) ∧
      (∀ a, done * 512 ≤ a → a < total * 512 →
        fs'.image a = fs.disk (fs.lbaOffset.toNat * 512 + a)) := by
  induction fuel generalizing done fs with
  | zero =>
    obtain rfl : fs = fs' := (Prod.mk.inj heq).2
    exact ⟨rfl, .refl _, fun _ _ => rfl, fun a hlo hhi => by omega⟩
  | succ fuel ih =>
    unfold loadMeta at heq
    split at heq
    · obtain rfl : fs = fs' := (Prod.mk.inj heq).2
      exact ⟨rfl, .refl _, fun _ _ => rfl, fun a hlo hhi => by omega⟩
    · next hmore =>
      have hsector : (fs.lbaOffset.toNat + done) % 4294967296 = fs.lbaOffset.toNat + done :=
        Nat.mod_eq_of_lt (by omega)
      generalize hchunk : min 255 (total - done) = chunk at heq
      have hpos : 0 < chunk ∧ chunk ≤ total - done := by omega
      simp only [diskReadSectors, hsector] at heq
      split at heq
      · simp at heq
      · next buf hread =>
        obtain ⟨hbuf, rfl⟩ := Prod.mk.inj hread
        split at hbuf
        · cases hbuf
          obtain ⟨hfs, henv, hold, hnew⟩ := ih (by omega) (by exact hfits) heq
          refine ⟨?_, .trans ⟨0, 1, 0, rfl⟩ henv, ?_, ?_⟩
          · rw [hfs]
          · intro a ha
            rw [hold a (by omega)]
            exact copyIn_outside (by omega)
          intro a hlo hhi
          by_cases ha : a < (done + chunk) * 512
          · rw [hold a ha]
            show copyIn _ _ _ _ a = _
            rw [copyIn_inside (by omega) (by omega), window_apply (by omega)]
            congr 1
            omega
          · exact hnew a (by omega) hhi
        · simp at hbuf

/-- The loop of `lufirafs_init` succeeds when the device can be read. -/
theorem loadMeta_ok (total fuel done : Nat) (fs : Mount) (hrd : ∀ n, fs.env.rd n = true) :
    ∃ fs', loadMeta total fuel done fs = (true, fs') ∧ fs'.env.heap = fs.env.heap := by
  induction fuel generalizing done fs with
  | zero => exact ⟨fs, rfl, rfl⟩
  | succ fuel ih =>
    unfold loadMeta
    split
    · exact ⟨fs, rfl, rfl⟩
    · simp only [diskReadSectors, hrd 0, if_true]
      exact ih _ _ fun n => hrd _

end Mount

set_option maxRecDepth 4000 in
section

variable (hsb : Superblock.ofBytes (window disk (lba.toNat * 512) 8192) = sb₀) (hlaid : Laid sb₀)

include hsb hlaid

/-- What a successful `lufirafs_init` of a formatted region delivers. -/
theorem initMount_spec {env : Env} {fs : Mount}
    (hfits : lba.toNat + sb₀.totalBlocks.toNat * 16 ≤ 4294967296)
    (hinit : initMount disk lba env = some fs) :
    fs.sb = sb₀ ∧ fs.lbaOffset = lba ∧ fs.disk = disk ∧ fs.nextFreeBlock = sb₀.dataStart.toNat ∧
      env.Leads fs.env ∧
      ∀ a, a < sb₀.dataStart.toNat * 8192 → fs.image a = disk (lba.toNat * 512 + a) := by
  have hroom := hlaid.room
  have hsectors : sb₀.dataStart.toNat * 16 % 4294967296 = sb₀.dataStart.toNat * 16 :=
    Nat.mod_eq_of_lt (by omega)
  unfold initMount at hinit
  simp only [diskReadSectors] at hinit
  split at hinit
  · simp at hinit
  · next buf fs₁ hread =>
    obtain ⟨hbuf, rfl⟩ := Prod.mk.inj hread
    split at hbuf
    · cases hbuf
      rw [hsb] at hinit
      split at hinit
      · simp at hinit
      split at hinit
      · simp at hinit
      split at hinit
      · simp at hinit
      · next fs₂ hmalloc =>
        obtain ⟨-, rfl⟩ := Prod.mk.inj hmalloc
        rw [hsectors] at hinit
        split at hinit
        · simp at hinit
        · next fs₃ hload =>
          obtain ⟨hfs, hleads, _, himage⟩ := loadMeta_copies (by omega)
            (by show lba.toNat + _ ≤ _; omega) hload
          split at hinit
          · simp at hinit
          · next fs₄ hmalloc' =>
            obtain ⟨-, rfl⟩ := Prod.mk.inj hmalloc'
            cases hinit
            rw [hfs]
            refine ⟨rfl, rfl, rfl, rfl, ?_, ?_⟩
            · exact (Env.Leads.trans ⟨1, 1, 0, rfl⟩ hleads).trans ⟨1, 0, 0, rfl⟩
            · intro a ha
              exact himage a (by omega) (by omega)
    · simp at hbuf

/-- `lufirafs_init` of a formatted region establishes the write-back invariant. -/
theorem initMount_durable {env : Env} {fs : Mount}
    (hfits : lba.toNat + sb₀.totalBlocks.toNat * 16 ≤ 4294967296)
    (hwr : ∀ n, env.wr n = true) (hinit : initMount disk lba env = some fs) :
    Mount.Durable sb₀ lba fs := by
  obtain ⟨hsb', hlba, hdisk, hcursor, henv, himage⟩ := initMount_spec hsb hlaid hfits hinit
  have hdata := hlaid.dataStart
  have hroom := hlaid.room
  refine ⟨hlaid, ⟨sb₀.freeBlocks, sb₀.freeInodes, by rw [hsb']; rfl⟩, hlba, hfits, ?_,
    fun n => ?_, ?_, ?_⟩
  · rw [hcursor]
    omega
  · obtain ⟨_, _, c, henv⟩ := henv
    rw [henv]
    exact hwr (n + c)
  · rw [hsb', ← hsb]
    apply ofBytes_congr
    intro a ha
    rw [himage a (by omega), window_apply ha]
  · intro b hb _ k hk
    rw [hdisk, himage _ (by omega), Nat.add_assoc]

/-- `lufirafs_init` succeeds on a formatted region that can be read. -/
theorem initMount_isSome : (initMount disk lba Env.allOk).isSome := by
  unfold initMount
  simp only [diskReadSectors, Env.allOk, if_true]
  rw [hsb, if_neg (by simp [hlaid.magic]), if_neg (by simp [hlaid.blockSize])]
  simp only [kmalloc]
  obtain ⟨fs', hload, hheap⟩ := loadMeta_ok
    (sb₀.dataStart.toNat * 16 % 4294967296) (sb₀.dataStart.toNat * 16 % 4294967296) 0
    { image := zeros, sb := sb₀, dirty := fun _ => false, lbaOffset := lba, nextFreeBlock := 0,
      disk := disk, env := { heap := fun _ => true, rd := fun _ => true, wr := fun _ => true } }
    (fun _ => rfl)
  rw [hload]
  have hok : fs'.env.heap 0 = true := by rw [hheap]
  simp [hok]

end

/-! ## Durability of whole runs -/

/-- A call that changes the metadata. -/
inductive MetaOp where
  | op (o : Op)
  | writeInode (ino : UInt32) (r : Inode)

namespace Mount

/-- Perform one call and forget its result. -/
def execMeta (fs : Mount) : MetaOp → Mount
  | .op o => fs.exec o
  | .writeInode ino r => fs.writeInode ino.toNat r

/-- The call writes no record that lies across a block boundary: neither the
inode it is given, nor the slot that a new inode would get, nor the inode that
the name to be removed stands for. -/
def Aligned (fs : Mount) : MetaOp → Prop
  | .op (.create parentIno _ _ _ _ _) => ¬ Straddles parentIno.toNat ∧
      ∀ ino, fs.scanFreeInode 1 fs.inodeCount = some ino → ¬ Straddles ino
  | .op (.unlink parentIno name) =>
    ∀ ino, (fs.lookupInDir parentIno.toNat name).1 = some ino → ¬ Straddles ino
  | .op (.write ino _ _ _) => ¬ Straddles ino.toNat
  | .op (.truncate ino _) => ¬ Straddles ino.toNat
  | .writeInode ino _ => ¬ Straddles ino.toNat

theorem execMeta_durable {fs : Mount} (op : MetaOp)
    (h : Durable sb₀ lba fs) (hok : fs.Aligned op) : Durable sb₀ lba (fs.execMeta op) := by
  cases op with
  | op o =>
    cases o with
    | create parentIno name mode uid gid perm => exact h.create hok.1 name mode uid gid perm hok.2
    | unlink parentIno name => exact h.unlink _ name hok
    | write ino offset src count => exact h.write hok _ _ _
    | truncate ino newSize => exact h.truncate hok _
  | writeInode ino r => exact h.writeInode hok r

end Mount

set_option maxRecDepth 4000 in
/-- **Durability.**  Mount a formatted region, perform any calls that write no
record across a block boundary, and sync, with all disk writes succeeding: the
metadata blocks on the device equal the ones in memory, and every new mount has
the same superblock, bitmap and inode table. -/
theorem metadata_durable {disk : Bytes} {lba : UInt32} {env : Env} {fs₀ : Mount}
    {sb₀ : Superblock} (hsb : Superblock.ofBytes (window disk (lba.toNat * 512) 8192) = sb₀)
    (hlaid : Laid sb₀) (hfits : lba.toNat + sb₀.totalBlocks.toNat * 16 ≤ 4294967296)
    (hwr : ∀ n, env.wr n = true) (hinit : initMount disk lba env = some fs₀)
    (ops : List MetaOp) (hok : Run.Meets Mount.execMeta Mount.Aligned fs₀ ops)
    {fs : Mount} (hfs : fs = (Run.run Mount.execMeta fs₀ ops).sync) :
    (∀ a, a < fs.dataStart * 8192 → fs.disk (lba.toNat * 512 + a) = fs.image a) ∧
      (initMount fs.disk lba Env.allOk).isSome ∧
      ∀ env' fs', initMount fs.disk lba env' = some fs' →
        fs'.sb = fs.sb ∧ fs'.vol.bit = fs.vol.bit ∧ fs'.vol.inode = fs.vol.inode := by
  have hrun : Mount.Durable sb₀ lba (Run.run execMeta fs₀ ops) :=
    Run.Meets.invariant (fun fs op => execMeta_durable op) hok
      (initMount_durable hsb hlaid hfits hwr hinit)
  obtain ⟨hdur, himage, hsbSync, hsynced⟩ := sync_durable hrun
  rw [← hfs] at hdur himage hsbSync hsynced
  have hdata := hdur.dataStart_eq
  have hpos := hlaid.dataStart
  obtain ⟨blocks, inodes, hcounters⟩ := hdur.counters
  have hsb' : ofBytes (window fs.disk (lba.toNat * 512) 8192) = fs.sb := by
    rw [← hdur.super]
    apply ofBytes_congr
    intro a ha
    rw [window_apply ha, hsynced a (by omega)]
  refine ⟨fun a ha => hsynced a (by rwa [hdata] at ha), initMount_isSome hsb' hdur.laid_sb, ?_⟩
  intro env' fs' hmount
  have hfits' : lba.toNat + fs.sb.totalBlocks.toNat * 16 ≤ 4294967296 := by
    rw [hcounters]
    exact hfits
  obtain ⟨hsame, hlba, hdisk, _, _, himage'⟩ := initMount_spec hsb' hdur.laid_sb hfits' hmount
  have hbytes : ∀ a, 8192 ≤ a → a < fs.sb.dataStart.toNat * 8192 → fs'.image a = fs.image a := by
    intro a _ hhi
    rw [himage' a hhi]
    refine hsynced a ?_
    rw [hcounters] at hhi
    exact hhi
  have hvol : volOf fs.sb fs'.image fs.disk lba.toNat = fs.vol := by
    rw [volOf_image_congr hdur.laid_sb hbytes, vol, hdur.start]
  refine ⟨hsame, ?_, ?_⟩
  · rw [vol, hsame, hlba, hdisk]
    exact congrArg Vol.bit hvol
  · rw [vol, hsame, hlba, hdisk]
    exact congrArg Vol.inode hvol

/-- A device with the superblock of a region of sixteen blocks at its start. -/
def blankDisk : Bytes := copyIn zeros 0 8192 (computeLayout 16 (Superblock.ofBytes zeros)).bytes

theorem blankDisk_superblock :
    Superblock.ofBytes (window blankDisk ((0 : UInt32).toNat * 512) 8192) =
      computeLayout 16 (Superblock.ofBytes zeros) := by
  rw [← ofBytes_copyIn zeros (computeLayout 16 (ofBytes zeros))]
  apply ofBytes_congr
  intro a ha
  rw [window_apply ha]
  simp [blankDisk]

/-- The mount of `blankDisk`. -/
def mountedBlank : Mount := (initMount blankDisk 0 Env.allOk).getD blankMount

theorem mountedBlank_eq : initMount blankDisk 0 Env.allOk = some mountedBlank := by
  obtain ⟨fs, hfs⟩ := Option.isSome_iff_exists.1
    (initMount_isSome blankDisk_superblock blankMount_ready.laid)
  rw [mountedBlank, hfs]
  rfl

theorem metadata_durable_blank :
    ∃ fs, fs = (Run.run Mount.execMeta mountedBlank
        [.writeInode 107 { Inode.zero with perm := 420 }, .op (.write 5 0 zeros 1)]).sync ∧
      ∀ a, a < fs.dataStart * 8192 → fs.disk (0 * 512 + a) = fs.image a := by
  have hok : Run.Meets execMeta Mount.Aligned mountedBlank
      [.writeInode 107 { Inode.zero with perm := 420 }, .op (.write 5 0 zeros 1)] :=
    ⟨show ¬ Straddles 107 by decide, show ¬ Straddles 5 by decide, trivial⟩
  exact ⟨_, rfl, (metadata_durable blankDisk_superblock blankMount_ready.laid
    (by decide) (fun _ => rfl) mountedBlank_eq _ hok rfl).1⟩

/-- The second half of a record across a block boundary is lost: inode 108 gets
new permissions, the mount is synced, and the device still has the old ones. -/
theorem writeInode_lost :
    ∃ fs a, fs = (Run.run Mount.execMeta mountedBlank
        [.writeInode 108 { Inode.zero with perm := 420 }]).sync ∧
      initMount blankDisk 0 Env.allOk = some mountedBlank ∧
      a < fs.dataStart * 8192 ∧ fs.disk (0 * 512 + a) ≠ fs.image a :=
  ⟨_, 2 * 8192 + 107 * 76 + 72, rfl, mountedBlank_eq, by decide +kernel, by decide +kernel⟩

end LufiraFs
