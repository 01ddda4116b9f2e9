import LufiraOS.Driver.Ownership

/-!
# Releasing blocks: unlink and truncate

Both operations clear the marks of blocks first and drop the pointers to them
later.  In between, ownership holds of the volume in which the pointers are
already gone: for `lufirafs_unlink` the volume without the record
(`Releasing`), for `lufirafs_truncate` the volume with the trimmed copies of
the record and of the indirect block (`Trimming`).
-/

namespace LufiraFs

open ByteStore Vol

namespace Mount

variable {fs₀ fs fs' : Mount} {ino : Nat} {r : Inode}

/-! ## Unlink -/

/-- The blocks in the slots `freed` of `ino` have been released.  Table and
blocks are still as they were in `fs₀`; without the record of `ino` ownership
holds, and its other blocks are still marked. -/
structure Releasing (ino : Nat) (freed : Set Slot) (fs₀ fs : Mount) : Prop where
  ready : fs.Ready
  used : fs₀.env.Leads fs.env
  geo : fs₀.vol.SameGeo fs.vol
  inode : fs.vol.inode = fs₀.vol.inode
  block : fs.vol.block = fs₀.vol.block
  sound : Sound (fs.vol.setInode ino Inode.zero)
  held : ∀ {s}, s ∉ freed → fs₀.vol.ptr ino s ≠ 0 → fs.vol.bit (fs₀.vol.ptr ino s) = true
  accounts : ∀ {k}, Balanced k fs₀.sb fs₀.vol → Balanced k fs.sb fs.vol

namespace Releasing

variable {freed freed' : Set Slot}

theorem start (h : fs.Ready) (hs : Sound fs.vol) (hi : fs.vol.IsIno ino) :
    Releasing ino ∅ fs fs where
  ready := h
  used := .refl _
  geo := .refl _
  inode := rfl
  block := rfl
  sound := hs.setInode fun _ => Or.inr (ptrOf_zero _ _)
  held := fun _ hne => hs.used hi hne
  accounts := id

theorem mono (h : Releasing ino freed fs₀ fs) (hsub : freed ⊆ freed') :
    Releasing ino freed' fs₀ fs :=
  { h with held := fun hs => h.held fun hin => hs (hsub hin) }

theorem withEnv (h : Releasing ino freed fs₀ fs) {e : Env} (he : fs.env.Leads e) :
    Releasing ino freed fs₀ (fs.withEnv e) :=
  { h with ready := h.ready.withEnv he, used := h.used.trans he }

/-- Releasing one more block. -/
theorem free (h : Releasing ino freed fs₀ fs) (hs : Sound fs₀.vol) (hi : fs₀.vol.IsIno ino)
    {s : Slot} (hfresh : s ∉ freed) (hne : fs₀.vol.ptr ino s ≠ 0) :
    Releasing ino (insert s freed) fs₀ (fs.freeDataBlock (fs₀.vol.ptr ino s)) := by
  have hin : fs.vol.InData (fs₀.vol.ptr ino s) := h.geo.inData.2 (hs.range hi hne)
  have hbec := freeDataBlock_becomes h.ready hin
  have hptr : ∀ j t, fs.vol.ptr j t = fs₀.vol.ptr j t := by
    intro j t
    simp only [ptr, h.inode, h.block]
  refine ⟨hbec.ready, h.used.trans hbec.used, ?_, ?_, ?_, ?_, ?_, ?_⟩
  · rw [hbec.vol]
    exact h.geo.trans (setBit_geo _ _ _)
  · rw [hbec.vol]
    exact h.inode
  · rw [hbec.vol]
    exact h.block
  · rw [hbec.vol]
    refine h.sound.clearBit fun j t hj => ?_
    by_cases hji : j = ino
    · subst hji
      rw [setInode_ptr_same, ptrOf_zero]
      exact hne.symm
    rw [setInode_ptr_ne _ _ _ hji, hptr]
    intro heq
    exact hji (hs.inj hi (h.geo.isIno.1 hj) hne heq.symm).1.symm
  · intro t ht hnz
    have hts : t ≠ s := fun hts => ht (by simp [hts])
    have hother : fs₀.vol.ptr ino t ≠ fs₀.vol.ptr ino s := fun heq =>
      hts (hs.inj hi hi hnz heq).2
    rw [hbec.vol, setBit_bit_ne _ _ hother]
    exact h.held (fun hin => ht (by simp [hin])) hnz
  · intro k hk
    have htotal := h.ready.laid.total
    rw [hbec.vol, hbec.sb]
    refine (h.accounts hk).give hin (h.held hfresh hne) ?_
    rw [vol_totalBlocks, totalBlocks]
    omega

end Releasing

/-- The slots of the data blocks below `b`. -/
def slotsBelow (b : Nat) : Set Slot := { s | ∃ c, c < b ∧ slotOf c = some s }

theorem slotsBelow_succ {b : Nat} {s : Slot} (h : slotOf b = some s) :
    insert s (slotsBelow b) ⊆ slotsBelow (b + 1) := by
  intro t ht
  rcases ht with rfl | ⟨c, hc, hslot⟩
  · exact ⟨b, by omega, h⟩
  · exact ⟨c, by omega, hslot⟩

theorem slotsBelow_mono {b c : Nat} (h : b ≤ c) : slotsBelow b ⊆ slotsBelow c :=
  fun _ ⟨d, hd, hslot⟩ => ⟨d, by omega, hslot⟩

/-- The block loop of `lufirafs_unlink`; a block that is not found because there
is no memory for the indirect block stays marked. -/
theorem releaseBlocks_releasing (hs : Sound fs₀.vol) (hi : fs₀.vol.IsIno ino) (b n : Nat)
    (h : Releasing ino (slotsBelow b) fs₀ fs) :
    Releasing ino (slotsBelow (b + n)) fs₀ (releaseBlocks (fs₀.vol.inode ino) b n fs) := by
  induction n generalizing b fs with
  | zero => exact h
  | succ n ih =>
    obtain ⟨bn, e, hget, hleads, hbn, _⟩ := inodeGetBlock_lookup h.ready (fs₀.vol.inode ino) b
    have henv := h.withEnv hleads
    rw [show b + (n + 1) = b + 1 + n by omega]
    simp only [releaseBlocks, hget]
    apply ih
    by_cases h0 : bn = 0
    · rw [if_pos h0]
      exact henv.mono (slotsBelow_mono (by omega))
    rw [if_neg h0]
    obtain rfl := hbn.resolve_left h0
    rw [h.block] at h0 ⊢
    obtain ⟨s, hslot, _, hptr⟩ := exists_slot_of_blockOf h0
    have hfresh : s ∉ slotsBelow b := by
      rintro ⟨c, hc, hslot'⟩
      have := slotOf_inj hslot hslot'
      omega
    rw [← hptr] at h0 ⊢
    exact (henv.free hs hi hfresh h0).mono (slotsBelow_succ hslot)

/-- Releasing an inode touches that inode and leaves its slot empty. -/
theorem releaseInode_step (h : fs.Ready) (hs : Sound fs.vol) (hi : fs.vol.IsIno ino) :
    Step {ino} fs (fs.releaseInode ino (fs.vol.inode ino)) ∧
      (fs.releaseInode ino (fs.vol.inode ino)).vol.inode ino = Inode.zero := by
  have hloop := releaseBlocks_releasing hs hi 0 (blocksOf (fs.vol.inode ino).size.toNat)
    ((Releasing.start h hs hi).mono (Set.empty_subset _))
  dsimp only [releaseInode]
  generalize releaseBlocks (fs.vol.inode ino) 0 (blocksOf (fs.vol.inode ino).size.toNat) fs = fs₁
    at hloop ⊢
  obtain ⟨freed, hind⟩ : ∃ freed, Releasing ino freed fs
      (if (fs.vol.inode ino).indirect = 0 then fs₁
        else fs₁.freeDataBlock (fs.vol.inode ino).indirect.toNat) := by
    split
    · exact ⟨_, hloop⟩
    · next hne =>
      have hfresh : Slot.indirect ∉ slotsBelow (0 + blocksOf (fs.vol.inode ino).size.toNat) := by
        rintro ⟨c, _, hslot⟩
        exact slotOf_ne_indirect hslot
      exact ⟨_, hloop.free hs hi (s := .indirect) hfresh fun h0 => hne (UInt32.toNat_inj.1 h0)⟩
  generalize (if (fs.vol.inode ino).indirect = 0 then fs₁
    else fs₁.freeDataBlock (fs.vol.inode ino).indirect.toNat) = fs₂ at hind ⊢
  have hslot := freeInodeSlot_becomes hind.ready (hind.geo.isIno.2 hi)
  refine ⟨⟨hslot.ready, hind.used.trans hslot.used, by rw [hslot.vol]; exact hind.sound, ?_, ?_⟩,
    ?_⟩
  · rw [hslot.vol]
    refine ⟨hind.geo.trans (setInode_geo _ _ _), ?_, ?_⟩
    · intro j _ hj
      rw [setInode_inode_ne _ _ hj, hind.inode]
    · intro j s _ _ _
      rw [setInode_block, hind.block]
  · intro k hk
    have hmoved := (hind.accounts hk).congr (setInode_geo fs₂.vol ino Inode.zero) rfl
    rw [hslot.vol, hslot.sb]
    exact ⟨hmoved.count, hmoved.small⟩
  · rw [hslot.vol, setInode_inode_same]

/-- **`lufirafs_unlink` behind its checks** touches the parent and the inode it
removes. -/
theorem unlinkInode_step (h : fs.Ready) (hs : Sound fs.vol) (hi : fs.vol.IsIno ino)
    (parentIno : Nat) (name : CStr) :
    Step {parentIno, ino} fs (fs.unlinkInode parentIno name ino (fs.vol.inode ino)) := by
  have hsub : ({ino} : Set Nat) ⊆ {parentIno, ino} := by simp
  have hsub' : ({parentIno} : Set Nat) ⊆ {parentIno, ino} := by simp
  obtain ⟨hfreed, _⟩ := releaseInode_step h hs hi
  exact (hfreed.mono hsub).trans
    ((removeDirent_step hfreed.ready hfreed.sound parentIno name).mono hsub')

/-- What `lufirafs_unlink` can do: fail and change nothing, or remove the inode
that the name was looked up to, which is not the root and, as far as the scan
could see, no directory with entries of its own. -/
theorem unlink_cases (h : fs.Ready) (parentIno : Nat) (name : CStr) :
    (∃ res e, fs.unlink parentIno name = (res, fs.withEnv e) ∧ fs.env.Leads e ∧ res ≠ 0) ∨
    (∃ ino e, fs.unlink parentIno name =
        (0, (fs.withEnv e).unlinkInode parentIno name ino (fs.vol.inode ino)) ∧
      fs.env.Leads e ∧ fs.vol.IsIno ino ∧ ino ≠ fs.rootInode ∧
      (fs.lookupInDir parentIno name).1 = some ino ∧
      (fs.env = Env.allOk → fs.vol.lookupIn parentIno name = some ino ∧
        ((fs.vol.inode ino).mode = modeDir →
          (countExtra ino (blocksOf (fs.vol.inode ino).size.toNat * 128 + 1) 0 fs).1 = 0))) := by
  by_cases hname : name = []
  · exact .inl ⟨-1, fs.env, by simp [unlink, hname], .refl _, by simp⟩
  obtain ⟨res, e, hlook, hleads, hres⟩ := lookupInDir_eq h parentIno name
  cases res with
  | none => exact .inl ⟨-1, e, by simp [unlink, hname, hlook], hleads, by simp⟩
  | some ino =>
    by_cases hroot : ino = (fs.withEnv e).rootInode
    · exact .inl ⟨-3, e, by simp [unlink, hname, hlook, hroot], hleads, by simp⟩
    by_cases hi : fs.vol.IsIno ino
    · have hread : (fs.withEnv e).readInode ino = some (fs.vol.inode ino) := readInode_some hi
      by_cases hmode : (fs.vol.inode ino).mode = modeDir
      · obtain ⟨extra, e', hcount, hleads'⟩ := ((fs.withEnv e).countExtra_uses ino
          (blocksOf (fs.vol.inode ino).size.toNat * 128 + 1) 0).pair
        by_cases hextra : 0 < extra
        · exact .inl ⟨-2, e', by simp [unlink, hname, hlook, hroot, hread, hmode, hcount, hextra],
            hleads.trans hleads', by simp⟩
        refine .inr ⟨ino, e',
          by simp [unlink, hname, hlook, hroot, hread, hmode, hcount, hextra],
          hleads.trans hleads', hi, hroot, by rw [hlook],
            fun henv => ⟨(hres henv).symm, fun _ => ?_⟩⟩
        rw [withEnv_of_allOk henv hleads] at hcount
        rw [hcount]
        omega
      · exact .inr ⟨ino, e, by simp [unlink, hname, hlook, hroot, hread, hmode], hleads, hi,
          hroot, by rw [hlook], fun henv => ⟨(hres henv).symm, fun hdir => absurd hdir hmode⟩⟩
    · have hread : (fs.withEnv e).readInode ino = none := readInode_none hi
      exact .inl ⟨-1, e, by simp [unlink, hname, hlook, hroot, hread], hleads, by simp⟩

/-- **`lufirafs_unlink`** touches the parent and the inode it removes. -/
theorem unlink_step (h : fs.Ready) (hs : Sound fs.vol) (parentIno : Nat) (name : CStr) :
    ∃ ino, Step {parentIno, ino} fs (fs.unlink parentIno name).2 := by
  rcases unlink_cases h parentIno name with
    ⟨res, e, heq, hleads, _⟩ | ⟨ino, e, heq, hleads, hi, _⟩
  · rw [heq]
    exact ⟨parentIno, .withEnv h hs hleads _⟩
  · rw [heq]
    exact ⟨ino, (Step.withEnv h hs hleads _).trans
      (unlinkInode_step (h.withEnv hleads) hs hi parentIno name)⟩

/-! ## Truncate -/

/-- The volume with a copy of the record of `ino`, and a copy of its indirect
block if there is one, in place. -/
def trimmed (V : Vol) (ino : Nat) (r : Inode) : Option Bytes → Vol
  | none => V.setInode ino r
  | some buf => (V.setBlock r.indirect.toNat (window buf 0 8192)).setInode ino r

theorem trimmed_inode (V : Vol) (ino : Nat) (r : Inode) (ind : Option Bytes) :
    (trimmed V ino r ind).inode ino = r := by
  cases ind <;> simp [trimmed]

theorem trimmed_setDirect (V : Vol) (ino : Nat) (r : Inode) (ind : Option Bytes) (k : Fin 12)
    (b : Nat) :
    trimmed (V.setBit b false) ino (r.setDirect k 0) ind =
      ((trimmed V ino r ind).setInode ino (r.setDirect k 0)).setBit b false := by
  cases ind <;> rw [trimmed, trimmed, setInode_setInode] <;> rfl

theorem trimmed_putWord (V : Vol) (ino : Nat) (r : Inode) (buf : Bytes) (off b : Nat) :
    trimmed (V.setBit b false) ino r (some (putWord buf off 0)) =
      ((trimmed V ino r (some buf)).setBlock r.indirect.toNat
        (window (putWord ((trimmed V ino r (some buf)).block r.indirect.toNat) off 0) 0
          8192)).setBit
          b false := by
  simp only [trimmed, setInode_block, setBlock_block_same, window_putWord]
  simp only [setBlock, setBit, setInode, Function.update_idem]

/-- `lufirafs_truncate` has looked at the blocks below `b`: marks of the released
blocks are cleared, the copies no longer refer to them, and the device still has
the old indirect block. -/
structure Trimming (ino b : Nat) (fs₀ : Mount) (r : Inode) (ind : Option Bytes) (dirty : Bool)
    (fs : Mount) : Prop where
  ready : fs.Ready
  used : fs₀.env.Leads fs.env
  geo : fs₀.vol.SameGeo fs.vol
  inode : fs.vol.inode = fs₀.vol.inode
  block : fs.vol.block = fs₀.vol.block
  indirect : r.indirect = (fs₀.vol.inode ino).indirect
  sound : Sound (trimmed fs.vol ino r ind)
  loaded : ∀ {buf}, ind = some buf → r.indirect ≠ 0
  ahead : ∀ {buf}, ind = some buf → ∀ e : Fin 2048, b ≤ e.val + 12 →
    word32 buf (4 * e.val) = word32 (fs₀.vol.block r.indirect.toNat) (4 * e.val)
  clean : ∀ {buf}, ind = some buf → dirty = false →
    window buf 0 8192 = fs₀.vol.block r.indirect.toNat
  accounts : ∀ {k}, Balanced k fs₀.sb fs₀.vol → Balanced k fs.sb fs.vol

namespace Trimming

variable {b : Nat} {ind : Option Bytes} {dirty : Bool}

section

variable (h : Trimming ino b fs₀ r ind dirty fs)

include h

theorem withEnv {e : Env} (he : fs.env.Leads e) :
    Trimming ino b fs₀ r ind dirty (fs.withEnv e) :=
  { h with ready := h.ready.withEnv he, used := h.used.trans he }

theorem skip {c : Nat} (hc : b ≤ c) :
    Trimming ino c fs₀ r ind dirty fs :=
  { h with ahead := fun hind e he => h.ahead hind e (by omega) }

/-- Releasing a block to which the copies refer, given the copies without it. -/
theorem release (hi : fs₀.vol.IsIno ino) {bn : Nat}
    {s : Slot} {r' : Inode} {ind' : Option Bytes} (dirty' : Bool)
    (hbn : (trimmed fs.vol ino r ind).ptr ino s = bn) (h0 : bn ≠ 0)
    (hsound : Sound (trimmed (fs.vol.setBit bn false) ino r' ind'))
    (hindirect : r'.indirect = r.indirect)
    (hloaded : ∀ {buf}, ind' = some buf → r.indirect ≠ 0)
    (hahead : ∀ {buf}, ind' = some buf → ∀ e : Fin 2048, b + 1 ≤ e.val + 12 →
      word32 buf (4 * e.val) = word32 (fs₀.vol.block r.indirect.toNat) (4 * e.val))
    (hclean : ∀ {buf}, ind' = some buf → dirty' = false →
      window buf 0 8192 = fs₀.vol.block r.indirect.toNat) :
    Trimming ino (b + 1) fs₀ r' ind' dirty' (fs.freeDataBlock bn) := by
  have hi' : (trimmed fs.vol ino r ind).IsIno ino := by
    cases ind <;> exact h.geo.isIno.2 hi
  have hin : fs.vol.InData bn := by
    have hrange := h.sound.range (s := s) hi'
    rw [hbn] at hrange
    cases ind <;> exact hrange h0
  have hbit : fs.vol.bit bn = true := by
    have hused := h.sound.used (s := s) hi'
    rw [hbn] at hused
    cases ind <;> exact hused h0
  have hbec := freeDataBlock_becomes h.ready hin
  have htotal := h.ready.laid.total
  refine ⟨hbec.ready, h.used.trans hbec.used, ?_, ?_, ?_, hindirect.trans h.indirect, ?_, ?_, ?_,
    ?_, ?_⟩
  · rw [hbec.vol]
    exact h.geo.trans (setBit_geo _ _ _)
  · rw [hbec.vol]
    exact h.inode
  · rw [hbec.vol]
    exact h.block
  · rw [hbec.vol]
    exact hsound
  · rw [hindirect]
    exact hloaded
  · rw [hindirect]
    exact hahead
  · rw [hindirect]
    exact hclean
  · intro k hk
    rw [hbec.vol, hbec.sb]
    refine (h.accounts hk).give hin hbit ?_
    rw [vol_totalBlocks, totalBlocks]
    omega

end

end Trimming

/-- The loop of `lufirafs_truncate`.  Without a copy of the indirect block it
does not reach the entries of an existing one. -/
theorem truncateLoop_trimming (hi : fs₀.vol.IsIno ino) (b n : Nat) {ind : Option Bytes}
    {dirty : Bool} (h : Trimming ino b fs₀ r ind dirty fs)
    (hreach : ind = none → r.indirect ≠ 0 → n = 0 ∨ b + n ≤ 12) :
    ∃ r' ind' dirty' fs', truncateLoop b n r ind dirty fs = (r', ind', dirty', fs') ∧
      Trimming ino (b + n) fs₀ r' ind' dirty' fs' := by
  induction n generalizing b fs r ind dirty with
  | zero => exact ⟨r, ind, dirty, fs, rfl, h⟩
  | succ n ih =>
    obtain ⟨bn, e, hget, hleads, hbn, _⟩ := inodeGetBlock_lookup h.ready r b
    have henv := h.withEnv hleads
    rw [show b + (n + 1) = b + 1 + n by omega]
    by_cases h0 : bn = 0
    · simp only [truncateLoop, hget, h0, if_true]
      exact ih (b + 1) (henv.skip (by omega)) fun hnone hne => by
        have := hreach hnone hne
        omega
    obtain rfl := hbn.resolve_left h0
    have htrim := henv.sound
    by_cases hb : b < 12
    · -- a direct block: the copy of the record is trimmed
      have hblock : blockOf fs.vol.block r b = (r.direct ⟨b, hb⟩).toNat := by
        rw [blockOf_eq (slotOf_direct hb)]
        rfl
      have hrec := trimmed_inode fs.vol ino r ind
      have hne : r.direct ⟨b, hb⟩ ≠ 0 := fun hz => h0 (by rw [hblock, hz]; rfl)
      have hdrop := htrim.dropDirect (i := ino) (k := ⟨b, hb⟩)
        (by cases ind <;> exact h.geo.isIno.2 hi) (by rw [vol_withEnv, hrec]; exact hne)
      simp only [vol_withEnv, hrec, ← hblock] at hdrop
      rw [← trimmed_setDirect] at hdrop
      have hnext := henv.release hi (s := .direct ⟨b, hb⟩) _
        (by rw [vol_withEnv, ptr, hrec, hblock]; rfl) h0 hdrop rfl henv.loaded
        (fun hind e he => henv.ahead hind e (by omega)) henv.clean
      simp only [truncateLoop, hget, h0, if_false, hb, dite_true]
      exact ih (b + 1) hnext fun hnone hne => by
        have := hreach hnone hne
        omega
    -- an entry: the copy of the indirect block is trimmed
    have hlt : b - 12 < 2048 := by
      by_contra hge
      exact h0 (by simp [blockOf, slotOf_none hb hge])
    have hindne : r.indirect ≠ 0 := by
      intro hz
      exact h0 (by rw [blockOf_eq (slotOf_entry hb hlt)]; simp [ptrOf, hz])
    have hblock : blockOf fs.vol.block r b =
        (word32 (fs₀.vol.block r.indirect.toNat) (4 * (b - 12))).toNat := by
      rw [blockOf_eq (slotOf_entry hb hlt), h.block]
      simp [ptrOf, hindne]
    cases ind with
    | none =>
      have := hreach rfl hindne
      omega
    | some buf =>
      have hrec := trimmed_inode fs.vol ino r (some buf)
      have hahead := h.ahead rfl ⟨b - 12, hlt⟩ (by show b ≤ b - 12 + 12; omega)
      have hptr : (trimmed fs.vol ino r (some buf)).ptr ino (.entry ⟨b - 12, hlt⟩) =
          blockOf fs.vol.block r b := by
        rw [hblock, ← hahead, trimmed, setInode_ptr_same]
        simp only [ptrOf, hindne, if_false, setBlock_block_same]
        rw [word32_window (by omega), Nat.zero_add]
      have hdrop := htrim.dropEntry (i := ino) (e := ⟨b - 12, hlt⟩) (h.geo.isIno.2 hi)
        (by rw [vol_withEnv, hrec]; exact hindne)
        (by rw [vol_withEnv, hptr]; exact h0)
      simp only [vol_withEnv, hrec, hptr] at hdrop
      rw [← trimmed_putWord] at hdrop
      have hnext := henv.release hi true hptr h0 hdrop rfl (fun _ => hindne)
        (fun {buf'} hbuf e he => by
          cases hbuf
          rw [word32_putWord_disjoint (by omega)]
          exact henv.ahead rfl e (by omega))
        (fun _ hdirty => by simp at hdirty)
      simp only [truncateLoop, hget, h0, if_false, hb, dite_false]
      exact ih (b + 1) hnext fun hnone => by simp at hnone

/-- Writing the trimmed copy of the indirect block back makes the trimmed volume
real. -/
theorem Trimming.writeBack {b : Nat} {ind : Option Bytes} {dirty : Bool}
    (h : Trimming ino b fs₀ r ind dirty fs) (hs : Sound fs₀.vol) (hi : fs₀.vol.IsIno ino) :
    Edit ino (fs₀.vol.inode ino) r fs₀ (fs.storeIndirect r.indirect.toNat ind dirty) := by
  have hsame : Evolves {ino} fs₀.vol fs.vol := by
    refine ⟨h.geo, fun _ _ => by rw [h.inode], fun _ _ _ => by rw [h.block]⟩
  have hstay : Sound (fs.vol.setInode ino r) →
      Edit ino (fs₀.vol.inode ino) r fs₀ fs := fun hsound =>
    ⟨h.ready, h.used, h.inode, hsound, hsame, h.accounts⟩
  cases ind with
  | none => exact hstay h.sound
  | some buf =>
    have hindne := h.loaded rfl
    cases dirty with
    | false =>
      apply hstay
      have hsound := h.sound
      have hsetBlock : fs.vol.setBlock r.indirect.toNat (window buf 0 8192) = fs.vol := by
        rw [h.clean rfl rfl, ← h.block, setBlock_self]
      rwa [trimmed, hsetBlock] at hsound
    | true =>
      have hin : fs.vol.InData r.indirect.toNat := by
        rw [h.geo.inData, h.indirect]
        refine hs.range (s := .indirect) hi fun h0 => hindne ?_
        rw [h.indirect]
        exact UInt32.toNat_inj.1 h0
      have hwrite := writeDataBlock_becomes h.ready hin buf
      have hother := hs.evolves_setIndirectBlock hi (window buf 0 8192)
      have hstore : fs.storeIndirect r.indirect.toNat (some buf) true =
          (fs.writeDataBlock r.indirect.toNat buf).2 := rfl
      rw [hstore]
      refine ⟨hwrite.ready, h.used.trans hwrite.used, ?_, ?_, ?_, ?_⟩
      · rw [hwrite.vol, setBlock_inode, h.inode]
      · rw [hwrite.vol]
        exact h.sound
      · rw [hwrite.vol]
        refine ⟨h.geo.trans (setBlock_geo _ _ _), ?_, ?_⟩
        · intro j _ _
          rw [setBlock_inode, h.inode]
        intro j s hj hji hne
        have hkeep := hother.block hj hji hne
        rw [← h.indirect] at hkeep
        simpa only [setBlock, h.block] using hkeep
      · intro k hk
        rw [hwrite.vol, hwrite.sb]
        exact (h.accounts hk).congr (setBlock_geo _ _ _) rfl

/-- Loading the copy of the indirect block; it is missing when it is not needed
or there is no memory for it. -/
theorem loadIndirect_trimming (h : fs.Ready) (hi : fs.vol.IsIno ino) (hr : fs.vol.inode ino = r)
    (hs : Sound (fs.vol.setInode ino r)) (b : Nat) {needed : Bool}
    (hneed : needed = true → r.indirect ≠ 0) :
    ∃ ind fs', fs.loadIndirect needed r.indirect.toNat = (ind, fs') ∧
      Trimming ino b fs r ind false fs' := by
  have hnone : ∀ {e}, fs.env.Leads e → Trimming ino b fs r none false (fs.withEnv e) :=
    fun he => ⟨h.withEnv he, he, .refl _, rfl, rfl, by rw [hr], hs,
      fun hbuf => by simp at hbuf, fun hbuf => by simp at hbuf, fun hbuf => by simp at hbuf, id⟩
  cases needed with
  | false => exact ⟨none, fs, by simp [loadIndirect], hnone (.refl _)⟩
  | true =>
    obtain ⟨e, hmalloc, hleads⟩ := fs.kmalloc_eq
    cases hok : fs.env.heap 0 with
    | false => exact ⟨none, _, by simp [loadIndirect, hmalloc, hok], hnone hleads⟩
    | true =>
      obtain ⟨e', hread, hleads'⟩ := readDataBlock_eq (h.withEnv hleads)
        (b := r.indirect.toNat) (indirect_inData hi hs (hneed rfl))
      have hbase := hnone (hleads.trans hleads')
      have hblk := vol_block_window fs r.indirect.toNat
      refine ⟨some (fs.vol.block r.indirect.toNat), fs.withEnv e',
        by simpa [loadIndirect, hmalloc, hok] using hread,
        { hbase with sound := ?_, loaded := ?_, ahead := ?_, clean := ?_ }⟩
      · rw [trimmed, hblk, vol_withEnv, setBlock_self]
        exact hs
      · exact fun _ => hneed rfl
      · intro buf hbuf e _
        cases hbuf
        rfl
      · intro buf hbuf _
        cases hbuf
        exact hblk

/-- The shrinking branch of `lufirafs_truncate` edits its copy. -/
theorem shrink_edit (h : fs.Ready) (hs : Sound fs.vol) (hi : fs.vol.IsIno ino) (newSize : Nat) :
    ∃ r' fs', fs.shrink (fs.vol.inode ino) newSize = (r', fs') ∧
      Edit ino (fs.vol.inode ino) r' fs fs' := by
  generalize hr : fs.vol.inode ino = r
  have hself : Sound (fs.vol.setInode ino r) := by
    rw [← hr, setInode_self]
    exact hs
  dsimp only [shrink]
  generalize blocksOf r.size.toNat = oldN
  generalize blocksOf newSize = newN
  generalize hneed : decide (r.indirect ≠ 0 ∧ 12 < oldN ∧ newN < oldN) = needed
  have hneeded : needed = true → r.indirect ≠ 0 := fun htrue =>
    (of_decide_eq_true (hneed.trans htrue)).1
  obtain ⟨ind, fs₁, hload, htrim⟩ := loadIndirect_trimming h hi hr hself newN hneeded
  simp only [hload]
  generalize hend : (if needed = true ∧ ind = none then max newN 12 else oldN) = loopEnd
  -- without a copy the loop stays away from the entries
  have hreach : ind = none → r.indirect ≠ 0 → loopEnd - newN = 0 ∨
      newN + (loopEnd - newN) ≤ 12 := by
    intro hind hne
    cases needed with
    | false =>
      have hnot : ¬ (r.indirect ≠ 0 ∧ 12 < oldN ∧ newN < oldN) := of_decide_eq_false hneed
      simp only [Bool.false_eq_true, false_and, if_false] at hend
      by_cases hlt : newN < oldN
      · by_cases h12 : 12 < oldN
        · exact absurd ⟨hne, h12, hlt⟩ hnot
        · omega
      · omega
    | true =>
      simp only [hind, and_self, if_true] at hend
      omega
  obtain ⟨r', ind', dirty', fs₂, hloop, htrim₂⟩ := truncateLoop_trimming hi newN
    (loopEnd - newN) htrim hreach
  have hstore := htrim₂.writeBack hs hi
  rw [hr] at hstore
  simp only [hloop]
  split
  · next hdrop =>
    -- the indirect block goes as well
    have hi₂ : (fs₂.storeIndirect r'.indirect.toNat ind' dirty').vol.IsIno ino :=
      hstore.evolves.geo.isIno.2 hi
    have hin := indirect_inData hi₂ hstore.sound hdrop.2
    have hbec := freeDataBlock_becomes hstore.ready hin
    have hsound := hstore.sound.dropIndirect (i := ino) hi₂ (by simpa using hdrop.2)
    have hused := hstore.sound.used (i := ino) (s := .indirect) hi₂
    rw [setInode_ptr_same] at hused
    simp only [setInode_inode_same, setInode_setInode] at hsound
    have htotal := hstore.ready.laid.total
    refine ⟨_, _, rfl, hbec.ready, hstore.used.trans hbec.used, ?_, ?_, ?_, ?_⟩
    · rw [hbec.vol]
      exact hstore.table
    · rw [hbec.vol]
      exact hsound
    · rw [hbec.vol]
      exact hstore.evolves.trans (.setBit _ _ _ _)
    intro k hk
    rw [hbec.vol, hbec.sb]
    refine (hstore.accounts hk).give hin (hused fun h0 => hdrop.2 (UInt32.toNat_inj.1 h0)) ?_
    rw [vol_totalBlocks, totalBlocks]
    omega
  · exact ⟨_, _, rfl, hstore⟩

/-- **`lufirafs_truncate`** touches the file it truncates. -/
theorem truncate_step (h : fs.Ready) (hs : Sound fs.vol) (ino newSize : Nat) :
    Step {ino} fs (fs.truncate ino newSize).2 := by
  unfold truncate
  by_cases hi : fs.vol.IsIno ino
  · rw [readInode_some hi]
    obtain ⟨r, fs', heq, hedit⟩ : ∃ r fs',
        (if newSize < (fs.vol.inode ino).size.toNat then fs.shrink (fs.vol.inode ino) newSize
          else (fs.vol.inode ino, fs)) = (r, fs') ∧ Edit ino (fs.vol.inode ino) r fs fs' := by
      split
      · exact shrink_edit h hs hi newSize
      refine ⟨_, _, rfl, .withEnv h ?_ (.refl _)⟩
      rw [setInode_self]
      exact hs
    simp only [heq]
    exact hedit.commit hi (.setSize r _)
  · rw [readInode_none hi]
    exact .refl h hs _

end Mount

end LufiraFs
