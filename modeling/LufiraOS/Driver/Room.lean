import LufiraOS.Driver.Ownership
import Mathlib

/-!
# When a block can be had

`alloc_block` succeeds exactly when a block of the data area is clear and there is memory for the
buffer it is zeroed from, so whether `inode_get_block` can add a block is a matter of the number of
clear blocks and of the coming outcomes of `kmalloc`.
-/

namespace LufiraFs

open ByteStore

/-- Some block is clear. -/
theorem Vol.clearCount_pos_iff {V : Vol} :
    0 < V.clearCount ↔ ∃ b, V.InData b ∧ V.bit b = false := by
  unfold Vol.clearCount
  rw [Finset.card_pos]
  constructor
  · rintro ⟨b, hb⟩
    rw [Finset.mem_filter, Finset.mem_Ico] at hb
    exact ⟨b, hb⟩
  · rintro ⟨b, hin, hb⟩
    exact ⟨b, by rw [Finset.mem_filter, Finset.mem_Ico]; exact ⟨hin, hb⟩⟩

/-- Block `b` of a file is there, or can be added with the clear blocks that are left and the coming
outcomes of `kmalloc`. -/
def Vol.Mappable (V : Vol) (heap : Nat → Bool) (r : Inode) (b : Nat) : Prop :=
  if b < 12 then
    blockOf V.block r b ≠ 0 ∨ (0 < V.clearCount ∧ heap 0 = true)
  else if r.indirect = 0 then
    2 ≤ V.clearCount ∧ heap 0 = true ∧ heap 1 = true ∧ heap 2 = true
  else
    heap 0 = true ∧ (blockOf V.block r b ≠ 0 ∨ (0 < V.clearCount ∧ heap 1 = true))

namespace Mount

variable {fs : Mount} {ino : Nat} {r : Inode}

/-! ### The outcomes that are used up -/

@[simp] theorem markDirty_env (fs : Mount) (b : Nat) : (fs.markDirty b).env = fs.env := by
  unfold markDirty
  split <;> rfl

@[simp] theorem blockBitmapSet_env (fs : Mount) (b : Nat) (u : Bool) :
    (fs.blockBitmapSet b u).env = fs.env := markDirty_env _ _

@[simp] theorem writeSuperblock_env (fs : Mount) : fs.writeSuperblock.env = fs.env :=
  markDirty_env _ _

@[simp] theorem writeDataBlock_heap (fs : Mount) (b : Nat) (buf : Bytes) :
    (fs.writeDataBlock b buf).2.env.heap = fs.env.heap := by
  unfold writeDataBlock
  split <;> rfl

@[simp] theorem readDataBlock_heap (fs : Mount) (b : Nat) :
    (fs.readDataBlock b).2.env.heap = fs.env.heap := by
  unfold readDataBlock
  split <;> rfl

/-- A block that was found is taken if there is memory to clear it. -/
theorem claimBlock_fst (fs : Mount) (b : Nat) :
    (fs.claimBlock b).1 = if fs.env.heap 0 then b else 0 := by
  unfold claimBlock kmalloc
  dsimp only
  rw [blockBitmapSet_env]
  cases fs.env.heap 0 <;> rfl

theorem claimBlock_heap {b : Nat} (h : fs.env.heap 0 = true) :
    (fs.claimBlock b).2.env.heap = fun n => fs.env.heap (n + 1) := by
  unfold claimBlock kmalloc
  dsimp only
  rw [blockBitmapSet_env, h]
  simp

/-! ### Allocation -/

/-- A search without a result has seen only blocks in use. -/
theorem scanClear_none {b n : Nat} (h : fs.scanClear b n = none) :
    ∀ c, b ≤ c → c < b + n → fs.blockBitmapTest c = true := by
  induction n generalizing b with
  | zero =>
      intro c hlo hhi
      omega
  | succ n ih =>
      intro c hlo hhi
      rw [scanClear] at h
      split at h
      · next hset =>
          by_cases hc : c = b
          · rw [hc, hset]
          · exact ih h c (by omega) (by omega)
      · cases h

/-- With no clear block `alloc_block` does nothing, and otherwise it claims one. -/
theorem allocBlock_claims (h : fs.Ready) :
    (fs.vol.clearCount = 0 ∧ fs.allocBlock = (0, fs)) ∨
    (0 < fs.vol.clearCount ∧ ∃ b, b ≠ 0 ∧ fs.allocBlock = fs.claimBlock b) := by
  have hlo := h.cursorLo
  have hhi := h.cursorHi
  have hclaim : ∀ b, fs.dataStart ≤ b → b < fs.totalBlocks → fs.blockBitmapTest b = false →
      0 < fs.vol.clearCount ∧ ∃ c, c ≠ 0 ∧ fs.claimBlock b = fs.claimBlock c := by
    intro b hb hb' hclear
    have hin : fs.vol.InData b := ⟨hb, hb'⟩
    exact ⟨Vol.clearCount_pos_iff.mpr ⟨b, hin, by rw [vol_bit_eq hb', hclear]⟩,
      b, h.data_pos hin, rfl⟩
  unfold allocBlock
  cases hfirst : fs.scanClear fs.nextFreeBlock (fs.totalBlocks - fs.nextFreeBlock) with
  | some b =>
      obtain ⟨h1, h2, hclear⟩ := scanClear_some hfirst
      exact Or.inr (hclaim b (by omega) (by omega) hclear)
  | none =>
      cases hsecond : fs.scanClear fs.dataStart (fs.nextFreeBlock - fs.dataStart) with
      | some b =>
          obtain ⟨h1, h2, hclear⟩ := scanClear_some hsecond
          exact Or.inr (hclaim b (by omega) (by omega) hclear)
      | none =>
          left
          refine ⟨?_, rfl⟩
          by_contra hpos
          obtain ⟨b, hin, hclear⟩ := Vol.clearCount_pos_iff.mp (Nat.pos_of_ne_zero hpos)
          have hb := hin.1
          have hb' := hin.2
          rw [vol_dataStart] at hb
          rw [vol_totalBlocks] at hb'
          rw [vol_bit_eq hb'] at hclear
          by_cases hside : fs.nextFreeBlock ≤ b
          · rw [scanClear_none hfirst b hside (by omega)] at hclear
            cases hclear
          · rw [scanClear_none hsecond b hb (by omega)] at hclear
            cases hclear

/-- **When `alloc_block` succeeds.** -/
theorem allocBlock_ne_zero_iff (h : fs.Ready) :
    fs.allocBlock.1 ≠ 0 ↔ 0 < fs.vol.clearCount ∧ fs.env.heap 0 = true := by
  rcases allocBlock_claims h with ⟨hnone, heq⟩ | ⟨hpos, b, hb, heq⟩
  · simp [heq, hnone]
  · rw [heq, claimBlock_fst]
    cases fs.env.heap 0 <;> simp [hpos, hb]

/-- One outcome of `kmalloc` is used up and one clear block less is left. -/
theorem allocBlock_uses (h : fs.Ready) (hsome : fs.allocBlock.1 ≠ 0) :
    fs.allocBlock.2.env.heap = (fun n => fs.env.heap (n + 1)) ∧
      fs.allocBlock.2.vol.clearCount + 1 = fs.vol.clearCount := by
  constructor
  · have hheap := ((allocBlock_ne_zero_iff h).mp hsome).2
    rcases allocBlock_claims h with ⟨-, heq⟩ | ⟨-, b, -, heq⟩
    · exact absurd (by rw [heq]) hsome
    · rw [heq, claimBlock_heap hheap]
  · rcases allocBlock_cases h with ⟨fs', heq, -⟩ | ⟨b, fs', heq, hin, hclear, hbec⟩
    · exact absurd (by rw [heq]) hsome
    · rw [heq, hbec.vol, ← Vol.clearCount_setBit_true hin hclear]
      exact congrArg (· + 1) (Vol.clearCount_congr ⟨rfl, rfl, rfl, rfl⟩ rfl)

/-! ### Adding a block to a file -/

/-- When a block behind the indirect one can be had. -/
theorem indirectGetBlock_ne_zero_iff (h : fs.Ready) {b : Nat} (hb : ¬ b < 12)
    (hlt : b - 12 < 2048) (hind : r.indirect ≠ 0) (hin : fs.vol.InData r.indirect.toNat) :
    (fs.indirectGetBlock r (b - 12) true).1 ≠ 0 ↔ fs.env.heap 0 = true ∧
      (blockOf fs.vol.block r b ≠ 0 ∨ (0 < fs.vol.clearCount ∧ fs.env.heap 1 = true)) := by
  have hleads : fs.env.Leads fs.kmalloc.2.env := ⟨1, 0, 0, rfl⟩
  have hready : fs.kmalloc.2.Ready := h.withEnv hleads
  obtain ⟨e, hread, hleads'⟩ := readDataBlock_eq hready hin
  have hheap := readDataBlock_heap fs.kmalloc.2 r.indirect.toNat
  rw [hread] at hheap
  have hword : blockOf fs.vol.block r b =
      (word32 (fs.vol.block r.indirect.toNat) (4 * (b - 12))).toNat := by
    rw [blockOf_eq (slotOf_entry hb hlt)]
    simp [ptrOf, hind]
  rw [hword]
  unfold indirectGetBlock
  cases hok : fs.env.heap 0 with
  | false =>
      have hmalloc : fs.kmalloc = (false, fs.kmalloc.2) := by rw [← hok]; rfl
      rw [hmalloc]
      simp
  | true =>
      have hmalloc : fs.kmalloc = (true, fs.kmalloc.2) := by rw [← hok]; rfl
      rw [hmalloc]
      dsimp only
      rw [hread]
      dsimp only
      by_cases hz : (word32 (fs.vol.block r.indirect.toNat) (4 * (b - 12))).toNat = 0
      · have halloc := allocBlock_ne_zero_iff (hready.withEnv hleads')
        rw [withEnv_env, show e.heap = _ from hheap] at halloc
        have hz' : (word32 (fs.kmalloc.2.vol.block r.indirect.toNat) (4 * (b - 12))).toNat = 0 := hz
        rw [if_pos ⟨hz', rfl⟩]
        by_cases hnb : (fs.kmalloc.2.withEnv e).allocBlock.1 = 0
        · rw [if_pos hnb]
          have hno := mt halloc.mpr (not_not.mpr hnb)
          refine ⟨fun h => absurd rfl h, ?_⟩
          rintro ⟨-, hsome | hroom⟩
          · exact absurd hz hsome
          · exact absurd hroom hno
        · rw [if_neg hnb]
          exact ⟨fun _ => ⟨rfl, Or.inr (halloc.mp hnb)⟩, fun _ => hnb⟩
      · have hz' : (word32 (fs.kmalloc.2.vol.block r.indirect.toNat) (4 * (b - 12))).toNat ≠ 0 := hz
        rw [if_neg (fun h => hz' h.1)]
        exact ⟨fun _ => ⟨rfl, Or.inl hz⟩, fun _ => hz'⟩

/-- **When `inode_get_block` finds or adds a block.** -/
theorem inodeGetBlock_ne_zero_iff (h : fs.Ready) (hi : fs.vol.IsIno ino)
    (hs : Sound (fs.vol.setInode ino r)) {b : Nat} (hb : b < 2060) :
    (fs.inodeGetBlock r b true).1 ≠ 0 ↔ fs.vol.Mappable fs.env.heap r b := by
  unfold Vol.Mappable
  by_cases hdirect : b < 12
  · have hslot : blockOf fs.vol.block r b = (r.direct ⟨b, hdirect⟩).toNat := by
      rw [blockOf_eq (slotOf_direct hdirect)]
      rfl
    have halloc := allocBlock_ne_zero_iff h
    rw [if_pos hdirect, hslot]
    by_cases hz : r.direct ⟨b, hdirect⟩ = 0
    · by_cases hnb : fs.allocBlock.1 = 0
      · have hno := mt halloc.mpr (not_not.mpr hnb)
        simp [inodeGetBlock, hdirect, hz, hnb] at hno ⊢
        exact hno
      · have hyes := halloc.mp hnb
        simp [inodeGetBlock, hdirect, hz, hnb, hyes]
    · have hz' : (r.direct ⟨b, hdirect⟩).toNat ≠ 0 := fun h0 => hz (UInt32.toNat_inj.mp h0)
      simp [inodeGetBlock, hdirect, hz, hz']
  · have hlt : b - 12 < 2048 := by omega
    have hfew : ¬ 2048 ≤ b - 12 := by omega
    rw [if_neg hdirect]
    by_cases hind : r.indirect = 0
    · rw [if_pos hind]
      have halloc := allocBlock_ne_zero_iff h
      by_cases hnb : fs.allocBlock.1 = 0
      · have hno := mt halloc.mpr (not_not.mpr hnb)
        have hget : (fs.inodeGetBlock r b true).1 = 0 := by
          simp [inodeGetBlock, hdirect, hfew, hind, hnb]
        refine ⟨fun hne => absurd hget hne, ?_⟩
        rintro ⟨hclear, hheap, -⟩
        exact absurd ⟨by omega, hheap⟩ hno
      · obtain ⟨hclear, hheap⟩ := halloc.mp hnb
        obtain ⟨huses, hless⟩ := allocBlock_uses h hnb
        rcases allocBlock_draft h hi hs (slotsFor b) with
          ⟨fs₁, heq, -⟩ | ⟨ib, fs₁, heq, hib, hiblt, hsome, hfresh, hzero, -⟩
        · exact absurd (by rw [heq]) hnb
        rw [heq] at huses hless
        dsimp only at huses hless
        have hto : (UInt32.ofNat ib).toNat = ib := UInt32.toNat_ofNat_of_lt' hiblt
        have hne : (r.setIndirect (UInt32.ofNat ib)).indirect ≠ 0 := by
          intro h0
          have hz : (UInt32.ofNat ib).toNat = 0 := by
            rw [show UInt32.ofNat ib = 0 from h0]
            rfl
          omega
        have hin : fs₁.vol.InData (r.setIndirect (UInt32.ofNat ib)).indirect.toNat := by
          show fs₁.vol.InData (UInt32.ofNat ib).toNat
          rw [hto]
          exact hfresh.inData
        have hempty : blockOf fs₁.vol.block (r.setIndirect (UInt32.ofNat ib)) b = 0 := by
          rw [blockOf_eq (slotOf_entry hdirect hlt)]
          simp only [ptrOf, hne, if_false]
          show (word32 (fs₁.vol.block (UInt32.ofNat ib).toNat) _).toNat = 0
          rw [hto, hzero]
          rfl
        have hget : (fs.inodeGetBlock r b true).1 =
            (fs₁.indirectGetBlock (r.setIndirect (UInt32.ofNat ib)) (b - 12) true).1 := by
          simp [inodeGetBlock, hdirect, hfew, hind, heq, hib]
        rw [hget, indirectGetBlock_ne_zero_iff hsome.ready hdirect hlt hne hin, hempty, huses]
        constructor
        · rintro ⟨h1, hbad | ⟨h2, h3⟩⟩
          · exact absurd rfl hbad
          · exact ⟨by omega, hheap, h1, h3⟩
        · rintro ⟨h2, -, h1, h3⟩
          exact ⟨h1, Or.inr ⟨by omega, h3⟩⟩
    · rw [if_neg hind, ← indirectGetBlock_ne_zero_iff h hdirect hlt hind
        (indirect_inData hi hs hind)]
      simp [inodeGetBlock, hdirect, hfew, hind]

end Mount

end LufiraFs
