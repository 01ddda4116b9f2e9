import LufiraOS.Driver.Reading
import Mathlib

/-!
# A file as a flat array of bytes

`Vol.byteAt` is what a file holds at a position, zero where it has no block.  `lufirafs_read`
delivers these bytes when nothing fails, and the loop of `lufirafs_write` replaces exactly those it
gets blocks for.  A block that is added for the file is zeroed, so that it changes no byte.
-/

namespace LufiraFs

open ByteStore

/-- The byte at position `p` of a file with record `r`. -/
def Vol.byteAt (V : Vol) (r : Inode) (p : Nat) : UInt8 :=
  match V.fetch r (p / 8192) with
  | none => 0
  | some (_, blk) => blk (p % 8192)

namespace Vol

variable {V V' : Vol} {r r' : Inode} {ino : Nat}

theorem byteAt_of_zero (h0 : 0 < V.dataStart) {p : Nat} (h : blockOf V.block r (p / 8192) = 0) :
    V.byteAt r p = 0 := by
  have hnot : ¬ V.InData 0 := fun hin => by
    have := hin.1
    omega
  unfold byteAt fetch
  rw [h, if_neg hnot]

theorem byteAt_of_inData {p : Nat} (h : V.InData (blockOf V.block r (p / 8192))) :
    V.byteAt r p = V.block (blockOf V.block r (p / 8192)) (p % 8192) := by
  unfold byteAt fetch
  rw [if_pos h]

/-- The bytes depend on the pointers of the record only. -/
theorem byteAt_samePtrs (h : SamePtrs r r') (p : Nat) :
    (V.setInode ino r').byteAt r' p = V.byteAt r p := by
  have hptr : blockOf V.block r' (p / 8192) = blockOf V.block r (p / 8192) := by
    unfold blockOf
    cases slotOf (p / 8192) with
    | none => rfl
    | some s => exact h.ptrOf_eq V.block s
  show (match V.fetch r' (p / 8192) with
    | none => (0 : UInt8)
    | some (_, blk) => blk (p % 8192)) = _
  unfold byteAt fetch
  rw [hptr]

/-- Blocks with the same number and contents hold the same bytes. -/
theorem byteAt_congr (hgeo : V.SameGeo V') {p : Nat}
    (hptr : blockOf V'.block r' (p / 8192) = blockOf V.block r (p / 8192))
    (hblk : blockOf V.block r (p / 8192) ≠ 0 →
      V'.block (blockOf V.block r (p / 8192)) = V.block (blockOf V.block r (p / 8192)))
    (h0 : 0 < V.dataStart) : V'.byteAt r' p = V.byteAt r p := by
  by_cases hz : blockOf V.block r (p / 8192) = 0
  · rw [byteAt_of_zero h0 hz]
    exact byteAt_of_zero (by rw [hgeo.dataStart]; exact h0) (hptr.trans hz)
  · unfold byteAt fetch
    rw [hptr, hblk hz]
    simp only [hgeo.inData]

/-- **Growth changes no byte**: a block that is gained is zeroed. -/
theorem byteAt_gains {T : Set Slot} (h0 : 0 < V.dataStart) (hi : V.IsIno ino)
    (hg : Gains ino T (V.setInode ino r) (V'.setInode ino r')) (p : Nat) :
    V'.byteAt r' p = V.byteAt r p := by
  have hgeo : V.SameGeo V' :=
    ⟨hg.evolves.geo.1, hg.evolves.geo.2, hg.evolves.geo.3, hg.evolves.geo.4⟩
  have h0' : 0 < V'.dataStart := by rw [hgeo.dataStart]; exact h0
  cases hs : slotOf (p / 8192) with
  | none =>
      rw [byteAt_of_zero h0 (by simp [blockOf, hs]), byteAt_of_zero h0' (by simp [blockOf, hs])]
  | some s =>
      have hne : s ≠ .indirect := fun h => slotOf_ne_indirect (h ▸ hs)
      have hold : (V.setInode ino r).ptr ino s = blockOf V.block r (p / 8192) := by
        rw [Vol.setInode_ptr_same, blockOf_eq hs]
      have hnew : (V'.setInode ino r').ptr ino s = blockOf V'.block r' (p / 8192) := by
        rw [Vol.setInode_ptr_same, blockOf_eq hs]
      have hkeep := hg.keep (s := s)
      have hdata := hg.data (s := s) hne
      have hfresh := hg.fresh (s := s) hne
      rw [hold, hnew] at hkeep hfresh
      rw [hold] at hdata
      by_cases hz : blockOf V.block r (p / 8192) = 0
      · rw [byteAt_of_zero h0 hz]
        by_cases hz' : blockOf V'.block r' (p / 8192) = 0
        · exact byteAt_of_zero h0' hz'
        · have hin := hg.sound.blockOf_inData (i := ino) (b := p / 8192) (V := V') (r := r')
            (hgeo.isIno.mpr hi) hz'
          rw [byteAt_of_inData hin]
          exact congrFun (hfresh hz hz') (p % 8192)
      · exact byteAt_congr hgeo (hkeep hz) hdata h0

/-- A file that was not touched holds the same bytes. -/
theorem byteAt_evolves {S : Set Nat} (h0 : 0 < V.dataStart) (hev : Evolves S V V') {j : Nat}
    (hj : V.IsIno j) (hS : j ∉ S) (p : Nat) :
    V'.byteAt (V'.inode j) p = V.byteAt (V.inode j) p := by
  cases hs : slotOf (p / 8192) with
  | none =>
      rw [byteAt_of_zero h0 (by simp [blockOf, hs]),
        byteAt_of_zero (by rw [hev.geo.dataStart]; exact h0) (by simp [blockOf, hs])]
  | some s =>
      have hptr := hev.ptr_eq hj hS s
      have hblk := hev.block (s := s) hj hS
      unfold Vol.ptr at hptr hblk
      refine byteAt_congr hev.geo ?_ ?_ h0
      · rw [blockOf_eq hs, blockOf_eq hs, hptr]
      · rw [blockOf_eq hs]
        exact hblk

/-- Rewriting a block of a file. -/
theorem byteAt_setBlock (h0 : 0 < V.dataStart) (hi : V.IsIno ino) (hs : Sound (V.setInode ino r))
    {b : Nat} (hb : blockOf V.block r b ≠ 0) (blk : Bytes) (p : Nat) :
    (V.setBlock (blockOf V.block r b) blk).byteAt r p =
      if p / 8192 = b then blk (p % 8192) else V.byteAt r p := by
  obtain ⟨s, hslot, hsi, hptr⟩ := exists_slot_of_blockOf hb
  have hsame : ∀ c,
      blockOf (V.setBlock (blockOf V.block r b) blk).block r c = blockOf V.block r c := by
    intro c
    cases hc : slotOf c with
    | none => simp [blockOf, hc]
    | some t =>
        rw [blockOf_eq hc, blockOf_eq hc]
        refine ptrOf_congr (fun _ => Vol.setBlock_block_ne V blk fun heq => ?_) t
        have hother := hs.indirect_ne (i := ino) (j := ino) (s := s) hi hi hsi
        rw [Vol.setInode_ptr_same, hptr, Vol.setInode_inode_same] at hother
        exact hother hb heq
  split
  · next hp =>
      have hin := hs.blockOf_inData hi hb
      have hin' : (V.setBlock (blockOf V.block r b) blk).InData
          (blockOf (V.setBlock (blockOf V.block r b) blk).block r (p / 8192)) := by
        rw [hsame, hp]
        exact hin
      rw [byteAt_of_inData hin', hsame, hp, Vol.setBlock_block_same]
  · next hp =>
      refine byteAt_congr (V.setBlock_geo _ _) (hsame _) (fun hne => ?_) h0
      refine Vol.setBlock_block_ne V blk fun heq => hp ?_
      obtain ⟨t, ht, -, hptr'⟩ := exists_slot_of_blockOf hne
      have hinj := hs.inj (i := ino) (j := ino) (s := t) (t := s) hi hi
      rw [Vol.setInode_ptr_same, Vol.setInode_ptr_same, hptr, hptr'] at hinj
      obtain ⟨-, rfl⟩ := hinj hne heq
      exact slotOf_inj ht hslot

end Vol

theorem SameAttrs.setSize {r r' : Inode} (h : SameAttrs r r') (size : UInt32) :
    SameAttrs (r.setSize size) (r'.setSize size) :=
  ⟨h.mode, rfl, h.linksCount, h.uid, h.gid, h.perm⟩

namespace Mount

variable {fs fs' : Mount} {ino : Nat} {r r' : Inode}

/-! ### Reading -/

theorem HeapOk.withEnv {e : Env} (h : fs.HeapOk) (he : fs.env.Leads e) : (fs.withEnv e).HeapOk := by
  obtain ⟨a, b, c, rfl⟩ := he
  exact fun n => h (n + a)

/-- **The loop of `lufirafs_read`** delivers the bytes of the file. -/
theorem readLoop_bytes (h : fs.Ready) (hheap : fs.HeapOk) (r : Inode) {fuel pos remaining : Nat}
    (hfuel : remaining ≤ fuel) (hend : pos + remaining < 4294967296) :
    ∃ e, readLoop r fuel pos remaining fs =
      (bytesFrom (fs.vol.byteAt r) pos remaining, fs.withEnv e) ∧ fs.env.Leads e := by
  induction fuel generalizing pos remaining fs with
  | zero =>
      obtain rfl : remaining = 0 := by omega
      exact ⟨fs.env, rfl, Env.Leads.refl _⟩
  | succ fuel ih =>
      rw [readLoop]
      split
      · next hzero =>
          rw [hzero]
          exact ⟨fs.env, rfl, Env.Leads.refl _⟩
      · next hmore =>
          generalize hchunk : min (8192 - pos % 8192) remaining = chunk
          have hmod : pos % 8192 < 8192 := Nat.mod_lt _ (by omega)
          have hle : chunk ≤ remaining := by omega
          obtain ⟨res, e, hfetch, hleads, -, hok⟩ := fetchBlock_eq h r (pos / 8192)
          rw [hfetch, hok (hheap 0)]
          dsimp only
          rw [Nat.mod_eq_of_lt (show pos + chunk < 4294967296 by omega)]
          obtain ⟨e', hrest, hleads'⟩ := ih (h.withEnv hleads) (hheap.withEnv hleads)
            (show remaining - chunk ≤ fuel by omega)
            (show pos + chunk + (remaining - chunk) < 4294967296 by omega)
          refine ⟨e', ?_, hleads.trans hleads'⟩
          rw [hrest, vol_withEnv]
          conv_rhs => rw [← Nat.add_sub_cancel' hle, bytesFrom_add]
          refine Prod.ext (congrArg (· ++ _) (List.map_congr_left fun i hi => ?_)) rfl
          have hlt : i < chunk := List.mem_range.mp hi
          have hdiv : (pos + i) / 8192 = pos / 8192 := by omega
          have hpos : (pos + i) % 8192 = pos % 8192 + i := by omega
          rw [← hdiv, ← hpos]
          rfl

/-- The number of bytes that `lufirafs_read` works on. -/
def readCount (size offset count : Nat) : Nat :=
  if size < (offset + count) % 4294967296 then size - offset else count

theorem toInt_of_lt {n : Nat} (h : n < 2147483648) : toInt n = (n : Int) := by
  unfold toInt
  rw [Nat.mod_eq_of_lt (by omega), if_pos h]

/-- **`lufirafs_read`** of bytes that the file has. -/
theorem read_bytes (h : fs.Ready) (hheap : fs.HeapOk) (hi : fs.vol.IsIno ino) (offset n : Nat)
    (hn : 0 < n) (hend : offset + n ≤ (fs.vol.inode ino).size.toNat) :
    (fs.read ino offset n).1 = toInt n ∧
      (fs.read ino offset n).2.1 = bytesFrom (fs.vol.byteAt (fs.vol.inode ino)) offset n := by
  have hsize := (fs.vol.inode ino).size.toNat_lt
  unfold read
  rw [readInode_some hi]
  dsimp only
  rw [if_neg (by omega), if_neg (by rw [Nat.mod_eq_of_lt (by omega)]; omega), hheap.kmalloc]
  dsimp only
  obtain ⟨e, hloop, -⟩ := readLoop_bytes h hheap (fs.vol.inode ino) (Nat.le_refl n)
    (show offset + n < 4294967296 by omega)
  rw [hloop]
  exact ⟨rfl, rfl⟩

/-! ### The loop of `lufirafs_write` -/

/-- What the loop has done when it stops: `n` bytes from `pos` on are those of the source, and no
other byte of the file has changed. -/
structure Wrote (ino pos n done : Nat) (src : Bytes) (r r' : Inode) (fs fs' : Mount) : Prop where
  edit : Edit ino r r' fs fs'
  attrs : SameAttrs r r'
  inside : ∀ i, i < n → fs'.vol.byteAt r' (pos + i) = src (done + i)
  outside : ∀ p, p < pos ∨ pos + n ≤ p → fs'.vol.byteAt r' p = fs.vol.byteAt r p

theorem Draft.attrs {T : Set Slot} (h : Draft ino T r r' fs fs') : SameAttrs r r' := by
  have hattrs := h.gains.attrs
  rwa [Vol.setInode_inode_same, Vol.setInode_inode_same] at hattrs

theorem Draft.byteAt {T : Set Slot} (h : Draft ino T r r' fs fs') (hready : fs.Ready)
    (hi : fs.vol.IsIno ino) (p : Nat) : fs'.vol.byteAt r' p = fs.vol.byteAt r p :=
  Vol.byteAt_gains hready.dataStart_pos hi h.gains p

/-- Nothing written yet. -/
theorem Wrote.ofDraft {T : Set Slot} (pos done : Nat) (src : Bytes) (h : Draft ino T r r' fs fs')
    (hready : fs.Ready) (hi : fs.vol.IsIno ino) : Wrote ino pos 0 done src r r' fs fs' :=
  ⟨h.toEdit, h.attrs, fun _ hi => absurd hi (Nat.not_lt_zero _), fun p _ => h.byteAt hready hi p⟩

theorem Wrote.trans {pos n m done : Nat} {src : Bytes} {r'' : Inode} {fs'' : Mount}
    (h : Wrote ino pos n done src r r' fs fs')
    (h' : Wrote ino (pos + n) m (done + n) src r' r'' fs' fs'') :
    Wrote ino pos (n + m) done src r r'' fs fs'' where
  edit := h.edit.trans h'.edit
  attrs := h.attrs.trans h'.attrs
  inside := fun i hi => by
    by_cases hlt : i < n
    · rw [h'.outside (pos + i) (.inl (by omega)), h.inside i hlt]
    · have hin := h'.inside (i - n) (by omega)
      rwa [show pos + n + (i - n) = pos + i by omega, show done + n + (i - n) = done + i by omega]
        at hin
  outside := fun p hp => by
    rw [h'.outside p (by omega), h.outside p (by omega)]

/-- One block is written: its old contents are read first unless it is overwritten as a whole. -/
theorem wrote_block (h : fs.Ready) (hi : fs.vol.IsIno ino) (hs : Sound (fs.vol.setInode ino r))
    (pos chunk done : Nat) (src : Bytes) {old : Bytes}
    (hb : blockOf fs.vol.block r (pos / 8192) ≠ 0)
    (hchunk : pos % 8192 + chunk ≤ 8192)
    (hold : ¬ (pos % 8192 = 0 ∧ chunk = 8192) →
      old = fs.vol.block (blockOf fs.vol.block r (pos / 8192))) :
    Wrote ino pos chunk done src r r fs (fs.writeDataBlock (blockOf fs.vol.block r (pos / 8192))
      (copyIn old (pos % 8192) chunk fun i => src (done + i))).2 := by
  have hin := hs.blockOf_inData hi hb
  have hwrite := writeDataBlock_becomes h hin
    (copyIn old (pos % 8192) chunk fun i => src (done + i))
  have hbyte : ∀ p, (fs.writeDataBlock (blockOf fs.vol.block r (pos / 8192))
      (copyIn old (pos % 8192) chunk fun i => src (done + i))).2.vol.byteAt r p =
      if p / 8192 = pos / 8192 then
        copyIn old (pos % 8192) chunk (fun i => src (done + i)) (p % 8192)
      else fs.vol.byteAt r p := by
    intro p
    have hp : p % 8192 < 8192 := Nat.mod_lt _ (by omega)
    rw [hwrite.vol, Vol.byteAt_setBlock h.dataStart_pos hi hs hb, window_apply hp, Nat.zero_add]
  refine ⟨Edit.writeData h hi hs hb _, SameAttrs.refl r, fun i hlt => ?_, fun p hp => ?_⟩
  · rw [hbyte, if_pos (by omega), copyIn_inside (by omega) (by omega)]
    congr 1
    omega
  · rw [hbyte]
    split
    · next hsame =>
        have hnot : ¬ (pos % 8192 = 0 ∧ chunk = 8192) := by omega
        rw [copyIn_outside (by omega), hold hnot, Vol.byteAt_of_inData (by rw [hsame]; exact hin),
          hsame]
    · rfl

/-- **The loop of `lufirafs_write`**, however its `kmalloc` calls turn out. -/
theorem writeLoop_wrote (src : Bytes) (fuel pos remaining done : Nat) (hfuel : remaining ≤ fuel)
    (h : fs.Ready) (hi : fs.vol.IsIno ino) (hs : Sound (fs.vol.setInode ino r)) :
    ∃ rem pos' r' fs', writeLoop src fuel pos remaining done r fs = (rem, pos', r', fs') ∧
      rem ≤ remaining ∧ pos' = pos + (remaining - rem) ∧
      Wrote ino pos (remaining - rem) done src r r' fs fs' := by
  have hstay : Draft ino ∅ r r fs fs := Draft.edit h (Gains.refl hs ino ∅)
  induction fuel generalizing pos remaining done r fs with
  | zero =>
      obtain rfl : remaining = 0 := by omega
      exact ⟨0, pos, r, fs, rfl, Nat.le_refl _, rfl, Wrote.ofDraft pos done src hstay h hi⟩
  | succ fuel ih =>
      by_cases hrem : remaining = 0
      · subst hrem
        exact ⟨0, pos, r, fs, by simp [writeLoop], Nat.le_refl _, rfl,
          Wrote.ofDraft pos done src hstay h hi⟩
      obtain ⟨bn, r₁, fs₁, hget, hdraft, hfound⟩ := inodeGetBlock_draft h hi hs (pos / 8192)
      by_cases h0 : bn = 0
      · refine ⟨remaining, pos, r₁, fs₁, by simp [writeLoop, hrem, hget, h0],
          Nat.le_refl _, by omega, ?_⟩
        rw [Nat.sub_self]
        exact Wrote.ofDraft pos done src hdraft h hi
      obtain rfl := hfound h0
      have hi₁ : fs₁.vol.IsIno ino := hdraft.isIno.mpr hi
      have hs₁ := hdraft.gains.sound
      have hin := hs₁.blockOf_inData hi₁ h0
      generalize hchunk : min (8192 - pos % 8192) remaining = chunk
      have hmod : pos % 8192 < 8192 := Nat.mod_lt _ (by omega)
      obtain ⟨old, e, hread, hleads, hold⟩ : ∃ old e,
          (if pos % 8192 ≠ 0 ∨ chunk ≠ 8192
            then fs₁.readDataBlock (blockOf fs₁.vol.block r₁ (pos / 8192)) else (none, fs₁)) =
              (old, fs₁.withEnv e) ∧ fs₁.env.Leads e ∧
          (¬ (pos % 8192 = 0 ∧ chunk = 8192) →
            old.getD zeros = fs₁.vol.block (blockOf fs₁.vol.block r₁ (pos / 8192))) := by
        split
        · obtain ⟨e, hread, hleads⟩ := readDataBlock_eq hdraft.ready hin
          exact ⟨_, e, hread, hleads, fun _ => rfl⟩
        · next hwhole =>
            exact ⟨none, fs₁.env, rfl, Env.Leads.refl _, fun hnot => absurd (by omega) hnot⟩
      have henv : Draft ino ∅ r₁ r₁ fs₁ (fs₁.withEnv e) := Draft.withEnv hdraft.ready hs₁ hleads
      have hput := wrote_block henv.ready hi₁ hs₁ pos chunk done src h0 (by omega) hold
      rw [vol_withEnv] at hput
      have hall := ((Wrote.ofDraft pos done src hdraft h hi).trans
        (Wrote.ofDraft pos done src henv hdraft.ready hi₁)).trans hput
      rw [Nat.zero_add] at hall
      obtain ⟨rem, pos', r', fs', hloop, hle, hpos, hrest⟩ := ih (pos + chunk) (remaining - chunk)
        (done + chunk) (by omega) hall.edit.ready
        (hall.edit.evolves.geo.isIno.mpr hi) hall.edit.sound
        (Draft.edit hall.edit.ready (Gains.refl hall.edit.sound ino ∅))
      refine ⟨rem, pos', r', fs', ?_, by omega, by omega, ?_⟩
      · simp only [writeLoop, hrem, if_false, hget, h0, hchunk, hread]
        exact hloop
      · have := hall.trans hrest
        rwa [show chunk + (remaining - chunk - rem) = remaining - rem by omega] at this

end Mount

end LufiraFs
