import LufiraOS.Driver.File
import LufiraOS.Lib.FirstFit
import LufiraOS.Volume.Accounting

/-!
# The volume behind a mount

`Mount.vol` reads a mount as an abstract volume, and every elementary operation
of the driver is stated as what it does to the superblock, the volume and the
environment (`Becomes`).  Later files use these statements and do not look at
bytes again.
-/

namespace LufiraFs

open ByteStore

namespace Env

/-- All coming disk transfers succeed. -/
structure IoOk (e : Env) : Prop where
  rd : ∀ n, e.rd n = true
  wr : ∀ n, e.wr n = true

/-- `e'` is `e` with some outcomes used up. -/
def Leads (e e' : Env) : Prop :=
  ∃ a b c, e' = ⟨fun n => e.heap (n + a), fun n => e.rd (n + b), fun n => e.wr (n + c)⟩

theorem allOk_ioOk : Env.allOk.IoOk := ⟨fun _ => rfl, fun _ => rfl⟩

theorem Leads.refl (e : Env) : Leads e e := ⟨0, 0, 0, rfl⟩

theorem Leads.trans {e e' e'' : Env} (h : Leads e e') (h' : Leads e' e'') : Leads e e'' := by
  obtain ⟨a, b, c, rfl⟩ := h
  obtain ⟨a', b', c', rfl⟩ := h'
  exact ⟨a' + a, b' + b, c' + c, by simp only [Nat.add_assoc]⟩

theorem Leads.ioOk {e e' : Env} (h : Leads e e') (hio : e.IoOk) : e'.IoOk := by
  obtain ⟨a, b, c, rfl⟩ := h
  exact ⟨fun n => hio.rd _, fun n => hio.wr _⟩

/-- An environment in which nothing fails stays so. -/
theorem Leads.allOk {e' : Env} (h : Leads Env.allOk e') : e' = Env.allOk := by
  obtain ⟨a, b, c, rfl⟩ := h
  rfl

end Env

namespace Mount

/-- The same mount in another environment. -/
def withEnv (fs : Mount) (e : Env) : Mount := { fs with env := e }

@[simp] theorem withEnv_env (fs : Mount) (e : Env) : (fs.withEnv e).env = e := rfl

@[simp] theorem withEnv_sb (fs : Mount) (e : Env) : (fs.withEnv e).sb = fs.sb := rfl

@[simp] theorem withEnv_withEnv (fs : Mount) (e e' : Env) :
    (fs.withEnv e).withEnv e' = fs.withEnv e' := rfl

@[simp] theorem withEnv_self (fs : Mount) : fs.withEnv fs.env = fs := rfl

/-- The volume a mount stands for. -/
def vol (fs : Mount) : Vol := volOf fs.sb fs.image fs.disk fs.lbaOffset.toNat

@[simp] theorem vol_withEnv (fs : Mount) (e : Env) : (fs.withEnv e).vol = fs.vol := rfl

@[simp] theorem vol_dataStart (fs : Mount) : fs.vol.dataStart = fs.dataStart := rfl

@[simp] theorem vol_totalBlocks (fs : Mount) : fs.vol.totalBlocks = fs.totalBlocks := rfl

@[simp] theorem vol_inodeCount (fs : Mount) : fs.vol.inodeCount = fs.inodeCount := rfl

@[simp] theorem vol_rootInode (fs : Mount) : fs.vol.rootInode = fs.rootInode := rfl

/-- A mount of a formatted region that the sector numbers can address, with the
allocation cursor inside the data area and a device that does not fail. -/
structure Ready (fs : Mount) : Prop where
  laid : Laid fs.sb
  fits : fs.lbaOffset.toNat + fs.totalBlocks * 16 ≤ 4294967296
  cursorLo : fs.dataStart ≤ fs.nextFreeBlock
  cursorHi : fs.nextFreeBlock ≤ fs.totalBlocks
  io : fs.env.IoOk

/-- `fs'` is a mount that `fs` has led to, with the given superblock and volume. -/
structure Becomes (fs fs' : Mount) (sb : Superblock) (V : Vol) : Prop where
  ready : fs'.Ready
  used : fs.env.Leads fs'.env
  sb : fs'.sb = sb
  vol : fs'.vol = V

section

variable {fs : Mount} {i b ino : Nat}

theorem Becomes.refl (h : fs.Ready) : Becomes fs fs fs.sb fs.vol := ⟨h, .refl _, rfl, rfl⟩

theorem Becomes.trans {fs' fs'' : Mount} {sb sb' : Superblock} {V V' : Vol}
    (h : Becomes fs fs' sb V) (h' : Becomes fs' fs'' sb' V') : Becomes fs fs'' sb' V' :=
  ⟨h'.ready, h.used.trans h'.used, h'.sb, h'.vol⟩

theorem Becomes.withEnv (h : fs.Ready) {e : Env} (he : fs.env.Leads e) :
    Becomes fs (fs.withEnv e) fs.sb fs.vol :=
  ⟨⟨h.1, h.2, h.3, h.4, he.ioOk h.io⟩, he, rfl, rfl⟩

theorem Ready.withEnv (h : fs.Ready) {e : Env} (he : fs.env.Leads e) : (fs.withEnv e).Ready :=
  (Becomes.withEnv h he).ready

theorem Ready.isIno_iff (h : fs.Ready) : fs.vol.IsIno i ↔ 1 ≤ i ∧ i ≤ 512 := by
  have hcount := h.laid.inodeCount
  simp only [Vol.IsIno, vol_inodeCount, inodeCount, hcount]

theorem Ready.data_pos (h : fs.Ready) (hb : fs.vol.InData b) : b ≠ 0 := by
  have hdata := h.laid.dataStart
  have hlo := hb.1
  simp only [vol_dataStart, dataStart] at hlo
  omega

theorem Ready.data_lt (h : fs.Ready) (hb : fs.vol.InData b) : b < 524288 := by
  have htotal := h.laid.total
  have hhi := hb.2
  simp only [vol_totalBlocks, totalBlocks] at hhi
  omega

theorem readInode_eq (ino : Nat) :
    fs.readInode ino = if fs.vol.IsIno ino then some (fs.vol.inode ino) else none := by
  by_cases h : ino = 0 ∨ fs.inodeCount < ino
  · have hn : ¬ fs.vol.IsIno ino := by
      unfold Vol.IsIno
      simp only [vol_inodeCount]
      omega
    rw [readInode, if_pos h, if_neg hn]
  have hn : fs.vol.IsIno ino := ⟨by omega, by simp only [vol_inodeCount]; omega⟩
  have hino : fs.vol.inode ino = Inode.ofBytes fs.image (fs.inodeOff ino) := if_neg h
  rw [readInode, if_neg h, if_pos hn, hino]

theorem readInode_some (h : fs.vol.IsIno ino) : fs.readInode ino = some (fs.vol.inode ino) := by
  rw [readInode_eq, if_pos h]

theorem readInode_none (h : ¬ fs.vol.IsIno ino) : fs.readInode ino = none := by
  rw [readInode_eq, if_neg h]

/-! ## The environment -/

theorem kmalloc_eq (fs : Mount) :
    ∃ e, fs.kmalloc = (fs.env.heap 0, fs.withEnv e) ∧ fs.env.Leads e :=
  ⟨_, rfl, 1, 0, 0, rfl⟩

/-- `fs'` is `fs` in an environment with some outcomes used up. -/
def Uses (fs fs' : Mount) : Prop := ∃ e, fs' = fs.withEnv e ∧ fs.env.Leads e

namespace Uses

variable {fs' fs'' : Mount} {α : Type} {x : α × Mount} {res : α}

theorem refl (fs : Mount) : Uses fs fs := ⟨fs.env, rfl, .refl _⟩

theorem trans (h : Uses fs fs') (h' : Uses fs' fs'') : Uses fs fs'' := by
  obtain ⟨e, rfl, hleads⟩ := h
  obtain ⟨e', rfl, hleads'⟩ := h'
  exact ⟨e', rfl, hleads.trans hleads'⟩

theorem ofEq (h : Uses fs x.2) (heq : x = (res, fs')) : Uses fs fs' := by
  rwa [heq] at h

theorem pair (h : Uses fs x.2) : ∃ res e, x = (res, fs.withEnv e) ∧ fs.env.Leads e := by
  obtain ⟨e, hmount, hleads⟩ := h
  exact ⟨x.1, e, by rw [← hmount], hleads⟩

end Uses

theorem kmalloc_uses (fs : Mount) : Uses fs fs.kmalloc.2 := ⟨_, rfl, 1, 0, 0, rfl⟩

theorem readDataBlock_uses (fs : Mount) (b : Nat) : Uses fs (fs.readDataBlock b).2 := by
  unfold readDataBlock
  split
  · exact .refl fs
  · exact ⟨_, rfl, 0, 1, 0, rfl⟩

/-- Reading a data block gives its contents in the volume. -/
theorem readDataBlock_eq (h : fs.Ready) (hb : fs.vol.InData b) :
    ∃ e, fs.readDataBlock b = (some (fs.vol.block b), fs.withEnv e) ∧ fs.env.Leads e := by
  have hin : ¬ (b < fs.dataStart ∨ fs.totalBlocks ≤ b) := by
    have h1 := hb.1
    have h2 := hb.2
    simp only [vol_dataStart, vol_totalBlocks] at h1 h2
    omega
  have hblk : fs.vol.block b = window fs.disk (fs.lbaOf b * 512) 8192 := if_pos hb
  refine ⟨{ fs.env with rd := fun n => fs.env.rd (n + 1) }, ?_, 0, 1, 0, rfl⟩
  rw [readDataBlock, if_neg hin, diskReadSectors, if_pos (h.io.rd 0), hblk]
  rfl

/-- Blocks outside the data area are not read. -/
theorem readDataBlock_none (fs : Mount) (hb : ¬ fs.vol.InData b) :
    fs.readDataBlock b = (none, fs) := by
  have hout : b < fs.dataStart ∨ fs.totalBlocks ≤ b := by
    unfold Vol.InData at hb
    simp only [vol_dataStart, vol_totalBlocks] at hb
    omega
  rw [readDataBlock, if_pos hout]

/-- The contents of a block are its 8192 bytes. -/
theorem vol_block_window (fs : Mount) (b : Nat) :
    window (fs.vol.block b) 0 8192 = fs.vol.block b := by
  by_cases hb : fs.vol.InData b
  · have hblk : fs.vol.block b = window fs.disk (fs.lbaOf b * 512) 8192 := if_pos hb
    rw [hblk, window_window]
  · have hblk : fs.vol.block b = zeros := if_neg hb
    rw [hblk, window_zeros]

theorem vol_block_outside (hb : ¬ fs.vol.InData b) : fs.vol.block b = zeros := if_neg hb

/-! ## The elementary writes -/

theorem markDirty_eq (fs : Mount) (block : Nat) :
    ∃ dirty, fs.markDirty block = { fs with dirty := dirty } := by
  unfold markDirty
  split
  · exact ⟨fs.dirty, rfl⟩
  · exact ⟨_, rfl⟩

/-- What a bitmap write does. -/
theorem blockBitmapSet_becomes (h : fs.Ready) (hb : b < fs.totalBlocks) (u : Bool) :
    Becomes fs (fs.blockBitmapSet b u) fs.sb (fs.vol.setBit b u) := by
  unfold blockBitmapSet
  obtain ⟨dirty, hd⟩ := markDirty_eq { fs with image := setBitAt fs.image fs.bitmapBase b u }
    ((fs.sb.bitmapStart.toNat + b / 8 / 8192) % 4294967296)
  rw [hd]
  exact ⟨⟨h.1, h.2, h.3, h.4, h.5⟩, .refl _, rfl, volOf_setBit h.laid hb u⟩

/-- What writing the superblock with other counters does. -/
theorem writeSuperblock_becomes (h : fs.Ready) {sb : Superblock}
    (hsb : ∃ blocks inodes, sb = fs.sb.withFree blocks inodes) :
    Becomes fs { fs with sb := sb }.writeSuperblock sb fs.vol := by
  obtain ⟨blocks, inodes, rfl⟩ := hsb
  unfold writeSuperblock
  obtain ⟨dirty, hd⟩ := markDirty_eq
    { fs with
      sb := fs.sb.withFree blocks inodes
      image := copyIn fs.image 0 8192 (fs.sb.withFree blocks inodes).bytes } 0
  rw [hd]
  exact ⟨⟨h.laid.withFree blocks inodes, h.2, h.3, h.4, h.5⟩, .refl _, rfl,
    volOf_superblock h.laid blocks inodes _⟩

/-- What writing an inode record does. -/
theorem writeInode_becomes (h : fs.Ready) (hi : fs.vol.IsIno i) (r : Inode) :
    Becomes fs (fs.writeInode i r) fs.sb (fs.vol.setInode i r) := by
  have h1 := hi.1
  have h2 := hi.2
  simp only [vol_inodeCount] at h2
  have hvalid : ¬ (i = 0 ∨ fs.inodeCount < i) := by omega
  unfold writeInode
  rw [if_neg hvalid]
  obtain ⟨dirty, hd⟩ := markDirty_eq
    { fs with image := copyIn fs.image (fs.inodeOff i) 76 r.bytes } (fs.inodeOff i / 8192)
  rw [hd]
  exact ⟨⟨h.1, h.2, h.3, h.4, h.5⟩, .refl _, rfl, volOf_setInode h.laid h1 h2 r⟩

/-- What writing a data block does. -/
theorem writeDataBlock_becomes (h : fs.Ready) (hb : fs.vol.InData b) (buf : Bytes) :
    Becomes fs (fs.writeDataBlock b buf).2 fs.sb (fs.vol.setBlock b (window buf 0 8192)) := by
  have h1 := hb.1
  have h2 := hb.2
  simp only [vol_dataStart, vol_totalBlocks] at h1 h2
  have hin : ¬ (b < fs.dataStart ∨ fs.totalBlocks ≤ b) := by omega
  have hw : fs.writeDataBlock b buf = (true, { fs with
      disk := copyIn fs.disk (fs.lbaOf b * 512) (16 * 512) buf
      env := { fs.env with wr := fun n => fs.env.wr (n + 1) } }) := by
    rw [writeDataBlock, if_neg hin, diskWriteSectors, h.io.wr 0]
    rfl
  have hused : fs.env.Leads { fs.env with wr := fun n => fs.env.wr (n + 1) } := ⟨0, 0, 1, rfl⟩
  rw [hw]
  exact ⟨⟨h.1, h.2, h.3, h.4, hused.ioOk h.io⟩, hused, rfl, volOf_setBlock h.fits h1 h2 buf⟩

/-! ## Allocation and release -/

theorem scanClear_eq (fs : Mount) (b n : Nat) :
    fs.scanClear b n = FirstFit.firstClear fs.blockBitmapTest b n := by
  induction n generalizing b with
  | zero => rfl
  | succ n ih => rw [scanClear, FirstFit.firstClear, ih]

/-- The scan finds a clear block inside the scanned range. -/
theorem scanClear_some {n c : Nat} (h : fs.scanClear b n = some c) :
    b ≤ c ∧ c < b + n ∧ fs.blockBitmapTest c = false := by
  rw [scanClear_eq] at h
  exact FirstFit.firstClear_some h

theorem vol_bit_eq (hb : b < fs.totalBlocks) :
    fs.vol.bit b = fs.blockBitmapTest b :=
  if_pos hb

/-- What `alloc_block` makes of a clear block. -/
theorem claimBlock_cases (h : fs.Ready) (hin : fs.vol.InData b) (hb : fs.vol.bit b = false) :
    (∃ fs', fs.claimBlock b = (0, fs') ∧ Becomes fs fs' fs.sb fs.vol) ∨
    (∃ fs', fs.claimBlock b = (b, fs') ∧
      Becomes fs fs' fs.sb.takeBlock ((fs.vol.setBit b true).setBlock b zeros)) := by
  have hlt : b < fs.totalBlocks := hin.2
  have hmark := blockBitmapSet_becomes h hlt true
  obtain ⟨e, hmalloc, hleads⟩ := (fs.blockBitmapSet b true).kmalloc_eq
  have henv := hmark.trans (.withEnv hmark.ready hleads)
  unfold claimBlock
  cases hok : (fs.blockBitmapSet b true).env.heap 0 with
  | false =>
    left
    simp only [hmalloc, hok]
    have hlt' : b < ((fs.blockBitmapSet b true).withEnv e).totalBlocks := by
      rw [totalBlocks, henv.sb, hmark.sb]
      exact hlt
    have hundo := henv.trans (blockBitmapSet_becomes henv.ready hlt' false)
    refine ⟨_, rfl, hundo.ready, hundo.used, ?_, ?_⟩
    · rw [hundo.sb, henv.sb, hmark.sb]
    · rw [hundo.vol, vol_withEnv, hmark.vol, Vol.setBit_undo _ hb]
  | true =>
    right
    simp only [hmalloc, hok]
    have hin' : ((fs.blockBitmapSet b true).withEnv e).vol.InData b := by
      rw [vol_withEnv, hmark.vol]
      exact hin
    have hwrite := writeDataBlock_becomes henv.ready hin' zeros
    have hzero := henv.trans hwrite
    generalize (((fs.blockBitmapSet b true).withEnv e).writeDataBlock b zeros).2 = fs₂ at hzero
    have hsb : fs₂.sb = fs.sb := by rw [hzero.sb, withEnv_sb, hmark.sb]
    have hcount := hzero.trans (writeSuperblock_becomes hzero.ready (withFree_takeBlock fs₂.sb))
    generalize { fs₂ with sb := fs₂.sb.takeBlock }.writeSuperblock = fs₃ at hcount
    have hvol : fs₃.vol = (fs.vol.setBit b true).setBlock b zeros := by
      rw [hcount.vol, hzero.vol, vol_withEnv, hmark.vol, window_zeros]
    have hgeo : fs.vol.SameGeo fs₃.vol := by
      rw [hvol]
      exact ⟨rfl, rfl, rfl, rfl⟩
    refine ⟨_, rfl, ⟨hcount.ready.laid, hcount.ready.fits, ?_, ?_, hcount.ready.io⟩,
      hcount.used, ?_, hvol⟩
    · have hlo := hin.1
      have hdata := hgeo.dataStart
      simp only [vol_dataStart] at hlo hdata
      show fs₃.dataStart ≤ b + 1
      omega
    · have htotal := hgeo.totalBlocks
      simp only [vol_totalBlocks] at htotal
      show b + 1 ≤ fs₃.totalBlocks
      omega
    · rw [← hsb]
      exact hcount.sb

/-- `alloc_block` claims a clear block, or there is none. -/
theorem allocBlock_scan (h : fs.Ready) :
    (fs.allocBlock = (0, fs) ∧ ∀ b, fs.vol.InData b → fs.vol.bit b = true) ∨
    ∃ b, fs.vol.InData b ∧ fs.vol.bit b = false ∧ fs.allocBlock = fs.claimBlock b := by
  have hlo := h.cursorLo
  have hhi := h.cursorHi
  unfold allocBlock
  cases hfirst : fs.scanClear fs.nextFreeBlock (fs.totalBlocks - fs.nextFreeBlock) with
  | some b =>
    obtain ⟨h1, h2, hclear⟩ := scanClear_some hfirst
    have hb : b < fs.totalBlocks := by omega
    exact .inr ⟨b, ⟨Nat.le_trans hlo h1, hb⟩, by rw [vol_bit_eq hb, hclear], rfl⟩
  | none =>
    cases hsecond : fs.scanClear fs.dataStart (fs.nextFreeBlock - fs.dataStart) with
    | some b =>
      obtain ⟨h1, h2, hclear⟩ := scanClear_some hsecond
      have hb : b < fs.totalBlocks := by omega
      exact .inr ⟨b, ⟨h1, hb⟩, by rw [vol_bit_eq hb, hclear], rfl⟩
    | none =>
      refine .inl ⟨rfl, fun b hin => ?_⟩
      have hb : fs.dataStart ≤ b := hin.1
      have hb' : b < fs.totalBlocks := hin.2
      rw [vol_bit_eq hb']
      -- the two scans meet at the cursor
      by_cases hside : fs.nextFreeBlock ≤ b
      · rw [scanClear_eq, FirstFit.firstClear_eq_none] at hfirst
        exact hfirst b hside (by omega)
      · rw [scanClear_eq, FirstFit.firstClear_eq_none] at hsecond
        exact hsecond b hb (by omega)

/-- **`alloc_block`.**  Either nothing changes and there is no block, or a clear
block of the data area is marked, zeroed and counted. -/
theorem allocBlock_cases (h : fs.Ready) :
    (∃ fs', fs.allocBlock = (0, fs') ∧ Becomes fs fs' fs.sb fs.vol) ∨
    (∃ b fs', fs.allocBlock = (b, fs') ∧ fs.vol.InData b ∧ fs.vol.bit b = false ∧
      Becomes fs fs' fs.sb.takeBlock ((fs.vol.setBit b true).setBlock b zeros)) := by
  rcases allocBlock_scan h with ⟨heq, -⟩ | ⟨b, hin, hbit, heq⟩
  · exact .inl ⟨fs, heq, .refl h⟩
  rw [heq]
  rcases claimBlock_cases h hin hbit with hnone | ⟨fs', hclaim, hsome⟩
  · exact .inl hnone
  · exact .inr ⟨b, fs', hclaim, hin, hbit, hsome⟩

/-- What `free_data_block` does with a block of the data area. -/
theorem freeDataBlock_becomes (h : fs.Ready) (hb : fs.vol.InData b) :
    Becomes fs (fs.freeDataBlock b) fs.sb.giveBlock (fs.vol.setBit b false) := by
  have hmark := blockBitmapSet_becomes h hb.2 false
  rw [freeDataBlock, if_neg (h.data_pos hb)]
  have hcount := hmark.trans (writeSuperblock_becomes hmark.ready (withFree_giveBlock _))
  refine ⟨hcount.ready, hcount.used, ?_, ?_⟩
  · rw [hcount.sb, hmark.sb]
  · rw [hcount.vol, hmark.vol]

/-! ## Inode slots -/

/-- The scan looks for a slot that is not in use. -/
theorem scanFreeInode_eq (fs : Mount) (i n : Nat) : fs.scanFreeInode i n =
    FirstFit.firstClear (fun j => (Inode.ofBytes fs.image (fs.inodeOff j)).mode != modeFree) i
      n := by
  induction n generalizing i with
  | zero => rfl
  | succ n ih =>
    rw [scanFreeInode, FirstFit.firstClear, ih]
    by_cases hfree : (Inode.ofBytes fs.image (fs.inodeOff i)).mode = modeFree
    · simp [hfree]
    · simp [hfree]

/-- **`alloc_inode`.**  Either the table is full, or a free slot is counted as
taken; its record is not yet written. -/
theorem allocInode_cases (h : fs.Ready) :
    (fs.allocInode = (0, fs) ∧ ∀ i, fs.vol.IsIno i → (fs.vol.inode i).mode ≠ modeFree) ∨
    (∃ i fs', fs.allocInode = (i, fs') ∧ fs.vol.IsIno i ∧ (fs.vol.inode i).mode = modeFree ∧
      Becomes fs fs' fs.sb.takeInode fs.vol) := by
  have hinode : ∀ {i}, fs.vol.IsIno i →
      fs.vol.inode i = Inode.ofBytes fs.image (fs.inodeOff i) ∧ 1 ≤ i ∧ i ≤ fs.inodeCount := by
    intro i hi
    have hread := readInode_some hi
    obtain ⟨hlo, hhi⟩ := hi
    rw [vol_inodeCount] at hhi
    rw [readInode, if_neg (by omega)] at hread
    exact ⟨(Option.some.inj hread).symm, hlo, hhi⟩
  unfold allocInode
  cases hscan : fs.scanFreeInode 1 fs.inodeCount with
  | none =>
    rw [scanFreeInode_eq, FirstFit.firstClear_eq_none] at hscan
    refine .inl ⟨rfl, fun i hi => ?_⟩
    obtain ⟨heq, hlo, hhi⟩ := hinode hi
    rw [heq]
    simpa using hscan i hlo (by omega)
  | some i =>
    right
    rw [scanFreeInode_eq] at hscan
    obtain ⟨hlo, hhi, hfree⟩ := FirstFit.firstClear_some hscan
    have hi : fs.vol.IsIno i := ⟨hlo, by rw [vol_inodeCount]; omega⟩
    exact ⟨i, _, rfl, hi, by rw [(hinode hi).1]; simpa using hfree,
      writeSuperblock_becomes h (withFree_takeInode fs.sb)⟩

/-- What `free_inode_slot` does. -/
theorem freeInodeSlot_becomes (h : fs.Ready) (hi : fs.vol.IsIno i) :
    Becomes fs (fs.freeInodeSlot i) fs.sb.giveInode (fs.vol.setInode i Inode.zero) := by
  have hwrite := writeInode_becomes h hi Inode.zero
  rw [freeInodeSlot]
  have hcount := hwrite.trans (writeSuperblock_becomes hwrite.ready (withFree_giveInode _))
  refine ⟨hcount.ready, hcount.used, ?_, ?_⟩
  · rw [hcount.sb, hwrite.sb]
  · rw [hcount.vol, hwrite.vol]

end

end Mount

end LufiraFs
