import LufiraOS.Format
import Mathlib.Data.Set.Basic
import Mathlib.Data.Finset.Card
import Mathlib.Order.Interval.Finset.Nat

/-!
# Volumes and block ownership

The abstract state of a LufiraFS region: a block bitmap, an inode table and the
contents of the data blocks, without the byte layout, the write-back of the
metadata and the cursor of the allocator.  The kernel driver and the host tool
are both read through this view.

`Sound` is the ownership invariant: a block number that occurs in an inode slot,
as a direct pointer, as the indirect pointer or as an entry of the indirect
block, lies in the data area, is marked used, and occurs nowhere else.  Two
general lemmas carry every operation: `Sound.shrink` for steps that only drop
pointers, and `Sound.attach` for the step that stores a freshly allocated block
number.  `Evolves S` says that a step touched the files in `S` only.
-/

namespace LufiraFs

open ByteStore

variable {b : Nat} {s : Slot} {block : Nat → Bytes} {r : Inode} {V V' : Vol}

/-- The contents of a region, seen through its metadata. -/
structure Vol where
  dataStart : Nat
  totalBlocks : Nat
  inodeCount : Nat
  rootInode : Nat
  bit : Nat → Bool
  inode : Nat → Inode
  block : Nat → Bytes

namespace Vol

/-- Mark block `b` used or free. -/
def setBit (V : Vol) (b : Nat) (used : Bool) : Vol :=
  { V with bit := Function.update V.bit b used }

/-- Replace the inode record `i`. -/
def setInode (V : Vol) (i : Nat) (r : Inode) : Vol :=
  { V with inode := Function.update V.inode i r }

/-- Replace the contents of block `b`. -/
def setBlock (V : Vol) (b : Nat) (blk : Bytes) : Vol :=
  { V with block := Function.update V.block b blk }

/-- `b` is a block of the data area. -/
def InData (V : Vol) (b : Nat) : Prop := V.dataStart ≤ b ∧ b < V.totalBlocks

instance (V : Vol) (b : Nat) : Decidable (V.InData b) :=
  inferInstanceAs (Decidable (_ ∧ _))

/-- `i` is the number of a slot of the inode table. -/
def IsIno (V : Vol) (i : Nat) : Prop := 1 ≤ i ∧ i ≤ V.inodeCount

instance (V : Vol) (i : Nat) : Decidable (V.IsIno i) :=
  inferInstanceAs (Decidable (_ ∧ _))

end Vol

/-- The places where an inode stores a block number. -/
inductive Slot where
  | direct (k : Fin 12)
  | indirect
  | entry (j : Fin 2048)
  deriving DecidableEq

/-- The slot of the `b`-th data block of a file. -/
def slotOf (b : Nat) : Option Slot :=
  if h : b < 12 then some (.direct ⟨b, h⟩)
  else if h : b - 12 < 2048 then some (.entry ⟨b - 12, h⟩)
  else none

/-- Distinct data blocks of a file have distinct slots. -/
theorem slotOf_inj {c : Nat} (hb : slotOf b = some s) (hc : slotOf c = some s) : b = c := by
  unfold slotOf at hb hc
  split at hb
  · split at hc
    · have := hb.trans hc.symm
      simpa using this
    split at hc <;> simp_all
    subst hb
    simp at hc
  split at hb
  · split at hc
    · simp_all
      subst hb
      simp at hc
    split at hc
    · have := hb.trans hc.symm
      simp at this
      omega
    · simp at hc
  · simp at hb

/-- No data block of a file has the slot of the indirect block. -/
theorem slotOf_ne_indirect : slotOf b ≠ some .indirect := by
  unfold slotOf
  split
  · simp
  · split <;> simp

/-- The block number in slot `s` of the record `r`; entries are read from the
indirect block. -/
def ptrOf (block : Nat → Bytes) (r : Inode) : Slot → Nat
  | .direct k => (r.direct k).toNat
  | .indirect => r.indirect.toNat
  | .entry j => if r.indirect = 0 then 0
      else (word32 (block r.indirect.toNat) (4 * j.val)).toNat

/-- The number of the `b`-th data block of a file, `0` if it has none. -/
def blockOf (block : Nat → Bytes) (r : Inode) (b : Nat) : Nat :=
  match slotOf b with
  | some s => ptrOf block r s
  | none => 0

theorem slotOf_direct (h : b < 12) : slotOf b = some (.direct ⟨b, h⟩) := by
  simp [slotOf, h]

theorem slotOf_entry (hb : ¬ b < 12) (h : b - 12 < 2048) :
    slotOf b = some (.entry ⟨b - 12, h⟩) := by
  simp [slotOf, hb, h]

theorem slotOf_none (hb : ¬ b < 12) (h : ¬ b - 12 < 2048) : slotOf b = none := by
  simp [slotOf, hb, h]

theorem blockOf_eq (h : slotOf b = some s) : blockOf block r b = ptrOf block r s := by
  simp [blockOf, h]

/-- A file has its `b`-th data block in the slot of `b`. -/
theorem blockOf_congr {block' : Nat → Bytes} {r' : Inode}
    (h : ∀ s, slotOf b = some s → ptrOf block' r' s = ptrOf block r s) :
    blockOf block' r' b = blockOf block r b := by
  unfold blockOf
  split
  · next s hs => exact h s hs
  · rfl

theorem exists_slot_of_blockOf (h : blockOf block r b ≠ 0) :
    ∃ s, slotOf b = some s ∧ s ≠ .indirect ∧ ptrOf block r s = blockOf block r b := by
  unfold blockOf at h ⊢
  cases hs : slotOf b with
  | none => simp [hs] at h
  | some s => exact ⟨s, rfl, fun hind => slotOf_ne_indirect (hind ▸ hs), rfl⟩

namespace Vol

variable {V V' : Vol}

/-- The block number in slot `s` of inode `i`. -/
def ptr (V : Vol) (i : Nat) (s : Slot) : Nat := ptrOf V.block (V.inode i) s

/-- The number and the contents of the `b`-th data block of a file with record
`r`, if there is one. -/
def fetch (V : Vol) (r : Inode) (b : Nat) : Option (Nat × Bytes) :=
  if V.InData (blockOf V.block r b) then
    some (blockOf V.block r b, V.block (blockOf V.block r b))
  else none

theorem fetch_some {r : Inode} {b bn : Nat} {blk : Bytes} (h : V.fetch r b = some (bn, blk)) :
    V.InData bn ∧ bn = blockOf V.block r b ∧ blk = V.block bn := by
  unfold fetch at h
  split at h
  · next hin =>
    cases h
    exact ⟨hin, rfl, rfl⟩
  · simp at h

/-- Two volumes have the same geometry. -/
structure SameGeo (V V' : Vol) : Prop where
  dataStart : V'.dataStart = V.dataStart
  totalBlocks : V'.totalBlocks = V.totalBlocks
  inodeCount : V'.inodeCount = V.inodeCount
  rootInode : V'.rootInode = V.rootInode

theorem SameGeo.refl (V : Vol) : SameGeo V V := ⟨rfl, rfl, rfl, rfl⟩

theorem SameGeo.trans {V'' : Vol} (h : SameGeo V V') (h' : SameGeo V' V'') :
    SameGeo V V'' :=
  ⟨h'.1.trans h.1, h'.2.trans h.2, h'.3.trans h.3, h'.4.trans h.4⟩

theorem SameGeo.isIno (h : SameGeo V V') {i : Nat} : V'.IsIno i ↔ V.IsIno i := by
  simp only [IsIno, h.inodeCount]

theorem SameGeo.inData (h : SameGeo V V') {b : Nat} : V'.InData b ↔ V.InData b := by
  simp only [InData, h.dataStart, h.totalBlocks]

section simps

variable (V : Vol)

@[simp] theorem setBit_bit_same (b : Nat) (u : Bool) : (V.setBit b u).bit b = u := by
  simp [setBit]

@[simp] theorem setBit_bit_ne {b c : Nat} (u : Bool) (h : c ≠ b) :
    (V.setBit b u).bit c = V.bit c := by
  simp [setBit, h]

@[simp] theorem setBit_inode (b : Nat) (u : Bool) : (V.setBit b u).inode = V.inode := rfl

@[simp] theorem setInode_block (i : Nat) (r : Inode) : (V.setInode i r).block = V.block := rfl

@[simp] theorem setInode_inode_same (i : Nat) (r : Inode) : (V.setInode i r).inode i = r := by
  simp [setInode]

@[simp] theorem setInode_inode_ne {i j : Nat} (r : Inode) (h : j ≠ i) :
    (V.setInode i r).inode j = V.inode j := by
  simp [setInode, h]

@[simp] theorem setBlock_bit (b : Nat) (blk : Bytes) : (V.setBlock b blk).bit = V.bit := rfl

@[simp] theorem setBlock_inode (b : Nat) (blk : Bytes) : (V.setBlock b blk).inode = V.inode := rfl

@[simp] theorem setBlock_block_same (b : Nat) (blk : Bytes) : (V.setBlock b blk).block b = blk := by
  simp [setBlock]

@[simp] theorem setBlock_block_ne {b c : Nat} (blk : Bytes) (h : c ≠ b) :
    (V.setBlock b blk).block c = V.block c := by
  simp [setBlock, h]

theorem setBit_geo (b : Nat) (u : Bool) : SameGeo V (V.setBit b u) := ⟨rfl, rfl, rfl, rfl⟩

theorem setInode_geo (i : Nat) (r : Inode) : SameGeo V (V.setInode i r) := ⟨rfl, rfl, rfl, rfl⟩

theorem setBlock_geo (b : Nat) (blk : Bytes) : SameGeo V (V.setBlock b blk) := ⟨rfl, rfl, rfl, rfl⟩

@[simp] theorem setBit_ptr (b : Nat) (u : Bool) (i : Nat) (s : Slot) :
    (V.setBit b u).ptr i s = V.ptr i s := rfl

theorem setInode_ptr_same (i : Nat) (r : Inode) (s : Slot) :
    (V.setInode i r).ptr i s = ptrOf V.block r s := by
  simp [ptr]

@[simp] theorem setInode_ptr_ne {i j : Nat} (r : Inode) (s : Slot) (h : j ≠ i) :
    (V.setInode i r).ptr j s = V.ptr j s := by
  simp [ptr, h]

@[simp] theorem setInode_self (i : Nat) : V.setInode i (V.inode i) = V := by
  simp [setInode]

@[simp] theorem setBlock_self (b : Nat) : V.setBlock b (V.block b) = V := by
  simp [setBlock]

theorem setInode_setInode (i : Nat) (r r' : Inode) :
    (V.setInode i r).setInode i r' = V.setInode i r' := by
  simp [setInode]

theorem setBlock_setInode (b : Nat) (blk : Bytes) (i : Nat) (r : Inode) :
    (V.setBlock b blk).setInode i r = (V.setInode i r).setBlock b blk := rfl

/-- Marking a block used and then free again undoes the mark. -/
theorem setBit_undo {b : Nat} (h : V.bit b = false) : (V.setBit b true).setBit b false = V := by
  simp [setBit, ← h]

end simps


end Vol

/-- The pointers of a record depend on the record and its indirect block only. -/
theorem ptrOf_congr {block' : Nat → Bytes}
    (h : r.indirect ≠ 0 → block' r.indirect.toNat = block r.indirect.toNat) (s : Slot) :
    ptrOf block' r s = ptrOf block r s := by
  cases s with
  | direct k => rfl
  | indirect => rfl
  | entry j =>
    by_cases hz : r.indirect = 0
    · simp [ptrOf, hz]
    · simp [ptrOf, hz, h hz]

/-- The zero record has no pointers. -/
@[simp] theorem ptrOf_zero (block : Nat → Bytes) (s : Slot) : ptrOf block Inode.zero s = 0 := by
  cases s <;> simp [ptrOf, Inode.zero]

/-! ## The ownership invariant -/

/-- **Block ownership.**  Every block number an inode slot holds lies in the
data area, is marked used, and is held by that slot alone.  Slots of free
inodes count like the others. -/
structure Sound (V : Vol) : Prop where
  range : ∀ {i s}, V.IsIno i → V.ptr i s ≠ 0 → V.InData (V.ptr i s)
  used : ∀ {i s}, V.IsIno i → V.ptr i s ≠ 0 → V.bit (V.ptr i s) = true
  inj : ∀ {i s j t}, V.IsIno i → V.IsIno j → V.ptr i s ≠ 0 →
    V.ptr i s = V.ptr j t → i = j ∧ s = t

/-- `b` is marked used, but no inode refers to it. -/
structure Fresh (V : Vol) (b : Nat) : Prop where
  inData : V.InData b
  used : V.bit b = true
  free : ∀ {i s}, V.IsIno i → V.ptr i s ≠ b

/-- A step that drops pointers and keeps the marks of the remaining ones keeps
ownership. -/
theorem Sound.shrink (h : Sound V) (hgeo : V.SameGeo V')
    (hptr : ∀ i s, V.IsIno i → V'.ptr i s = V.ptr i s ∨ V'.ptr i s = 0)
    (hbit : ∀ i s, V.IsIno i → V'.ptr i s ≠ 0 → V'.bit (V'.ptr i s) = true) :
    Sound V' := by
  have hkeep : ∀ {i s}, V.IsIno i → V'.ptr i s ≠ 0 → V'.ptr i s = V.ptr i s :=
    fun hi hne => (hptr _ _ hi).resolve_right hne
  constructor
  · intro i s hi hne
    have hi := hgeo.isIno.1 hi
    have heq := hkeep hi hne
    rw [hgeo.inData, heq]
    exact h.range hi (heq ▸ hne)
  · intro i s hi hne
    exact hbit i s (hgeo.isIno.1 hi) hne
  intro i s j t hi hj hne heq
  have hi := hgeo.isIno.1 hi
  have hj := hgeo.isIno.1 hj
  have hi' := hkeep hi hne
  have hj' := hkeep hj (heq ▸ hne)
  exact h.inj hi hj (hi' ▸ hne) (hi'.symm.trans (heq.trans hj'))

/-- Storing a fresh block number in one empty slot keeps ownership. -/
theorem Sound.attach (h : Sound V) (i₀ : Nat) (s₀ : Slot)
    (hb : Fresh V b) (hgeo : V.SameGeo V') (hbit : V'.bit = V.bit)
    (hnew : V'.ptr i₀ s₀ = b)
    (hold : ∀ i s, V.IsIno i → ¬ (i = i₀ ∧ s = s₀) → V'.ptr i s = V.ptr i s) :
    Sound V' := by
  constructor
  · intro i s hi hne
    have hi := hgeo.isIno.1 hi
    rw [hgeo.inData]
    by_cases hat : i = i₀ ∧ s = s₀
    · obtain ⟨rfl, rfl⟩ := hat
      rw [hnew]
      exact hb.inData
    · rw [hold i s hi hat] at hne ⊢
      exact h.range hi hne
  · intro i s hi hne
    have hi := hgeo.isIno.1 hi
    rw [hbit]
    by_cases hat : i = i₀ ∧ s = s₀
    · obtain ⟨rfl, rfl⟩ := hat
      rw [hnew]
      exact hb.used
    · rw [hold i s hi hat] at hne ⊢
      exact h.used hi hne
  intro i s j t hi hj hne heq
  have hi := hgeo.isIno.1 hi
  have hj := hgeo.isIno.1 hj
  by_cases hati : i = i₀ ∧ s = s₀
  · by_cases hatj : j = i₀ ∧ t = s₀
    · obtain ⟨rfl, rfl⟩ := hati
      obtain ⟨rfl, rfl⟩ := hatj
      exact ⟨rfl, rfl⟩
    obtain ⟨rfl, rfl⟩ := hati
    rw [hnew, hold j t hj hatj] at heq
    exact absurd heq.symm (hb.free hj)
  by_cases hatj : j = i₀ ∧ t = s₀
  · obtain ⟨rfl, rfl⟩ := hatj
    rw [hnew, hold i s hi hati] at heq
    exact absurd heq (hb.free hi)
  rw [hold i s hi hati] at hne heq
  rw [hold j t hj hatj] at heq
  exact h.inj hi hj hne heq

/-- The indirect block of a file is no data block of any file. -/
theorem Sound.indirect_ne (h : Sound V) {i j : Nat}
    (hi : V.IsIno i) (hj : V.IsIno j) (hs : s ≠ .indirect) (hne : V.ptr i s ≠ 0) :
    (V.inode j).indirect.toNat ≠ V.ptr i s := by
  intro heq
  exact hs (h.inj (t := .indirect) hi hj hne heq.symm).2

/-! ## Which files a step touches -/

/-- From `V` to `V'` only the files in `S` were touched: every other inode keeps
its record and the contents of all the blocks it refers to. -/
structure Evolves (S : Set Nat) (V V' : Vol) : Prop where
  geo : V.SameGeo V'
  inode : ∀ {j}, V.IsIno j → j ∉ S → V'.inode j = V.inode j
  block : ∀ {j s}, V.IsIno j → j ∉ S → V.ptr j s ≠ 0 →
    V'.block (V.ptr j s) = V.block (V.ptr j s)

namespace Evolves

variable {S T : Set Nat} {V V' V'' : Vol}

theorem refl (S : Set Nat) (V : Vol) : Evolves S V V :=
  ⟨Vol.SameGeo.refl V, fun _ _ => rfl, fun _ _ _ => rfl⟩

/-- The pointers of an untouched file stay as they are. -/
theorem ptr_eq (h : Evolves S V V') {j : Nat} (hj : V.IsIno j) (hS : j ∉ S) (s : Slot) :
    V'.ptr j s = V.ptr j s := by
  unfold Vol.ptr
  rw [h.inode hj hS]
  apply ptrOf_congr
  intro hne
  have hptr : V.ptr j .indirect ≠ 0 := by
    intro h0
    exact hne (UInt32.toNat_inj.1 h0)
  exact h.block hj hS hptr

theorem trans (h : Evolves S V V') (h' : Evolves S V' V'') : Evolves S V V'' where
  geo := h.geo.trans h'.geo
  inode := fun hj hS =>
    (h'.inode (h.geo.isIno.2 hj) hS).trans (h.inode hj hS)
  block := fun {j s} hj hS hne => by
    have hptr := h.ptr_eq hj hS s
    have hnext := h'.block (h.geo.isIno.2 hj) hS (hptr ▸ hne)
    rw [hptr] at hnext
    exact hnext.trans (h.block hj hS hne)

theorem mono (h : Evolves S V V') (hST : S ⊆ T) : Evolves T V V' where
  geo := h.geo
  inode := fun hj hT => h.inode hj fun hS => hT (hST hS)
  block := fun hj hT => h.block hj fun hS => hT (hST hS)

end Evolves

/-! ## The elementary steps -/

namespace Sound

variable {V : Vol} {b i : Nat} {s : Slot}

/-- No inode refers to a block that is marked free. -/
theorem ptr_ne_of_clear (h : Sound V) (hb : V.bit b = false) (h0 : b ≠ 0) (hi : V.IsIno i) :
    V.ptr i s ≠ b := by
  intro heq
  have hused := h.used hi (heq ▸ h0)
  rw [heq, hb] at hused
  exact Bool.false_ne_true hused

/-- Replacing the contents of a block that is nobody's indirect block changes no
pointer. -/
theorem setBlock_ptr {blk : Bytes} (h : (V.inode i).indirect ≠ 0 → (V.inode i).indirect.toNat ≠ b) :
    (V.setBlock b blk).ptr i s = V.ptr i s := by
  apply ptrOf_congr
  intro hne
  exact V.setBlock_block_ne blk (h hne)

/-- Allocating a clear block keeps ownership and makes the block fresh. -/
theorem alloc (h : Sound V) (blk : Bytes) (hin : V.InData b) (h0 : b ≠ 0) (hb : V.bit b = false) :
    Sound ((V.setBit b true).setBlock b blk) ∧ Fresh ((V.setBit b true).setBlock b blk) b ∧
      Evolves ∅ V ((V.setBit b true).setBlock b blk) := by
  have hgeo : V.SameGeo ((V.setBit b true).setBlock b blk) := ⟨rfl, rfl, rfl, rfl⟩
  have hptr : ∀ i s, V.IsIno i → ((V.setBit b true).setBlock b blk).ptr i s = V.ptr i s := by
    intro i s hi
    exact setBlock_ptr (V := V.setBit b true) fun _ =>
      h.ptr_ne_of_clear (s := .indirect) hb h0 hi
  refine ⟨h.shrink hgeo (fun i s hi => Or.inl (hptr i s hi)) ?_, ?_, ?_⟩
  · intro i s hi hne
    rw [hptr i s hi] at hne ⊢
    have hused := h.used hi hne
    rw [Vol.setBlock_bit, Vol.setBit_bit_ne _ _ (h.ptr_ne_of_clear hb h0 hi), hused]
  · refine ⟨hgeo.inData.2 hin, by simp, ?_⟩
    intro i s hi
    rw [hptr i s hi]
    exact h.ptr_ne_of_clear hb h0 hi
  refine ⟨hgeo, fun _ _ => rfl, ?_⟩
  intro j s hj _ hne
  exact Vol.setBlock_block_ne _ blk (h.ptr_ne_of_clear hb h0 hj)

/-- Rewriting a data block of file `i` keeps ownership and touches `i` only. -/
theorem writeData (h : Sound V) (blk : Bytes) (hi : V.IsIno i)
    (hs : s ≠ .indirect) (hne : V.ptr i s ≠ 0) :
    Sound (V.setBlock (V.ptr i s) blk) ∧ Evolves {i} V (V.setBlock (V.ptr i s) blk) ∧
      ∀ j t, V.IsIno j → (V.setBlock (V.ptr i s) blk).ptr j t = V.ptr j t := by
  have hgeo := V.setBlock_geo (V.ptr i s) blk
  have hptr : ∀ j t, V.IsIno j → (V.setBlock (V.ptr i s) blk).ptr j t = V.ptr j t :=
    fun j t hj => setBlock_ptr fun _ => h.indirect_ne hi hj hs hne
  refine ⟨h.shrink hgeo (fun j t hj => Or.inl (hptr j t hj)) ?_, ⟨hgeo, fun _ _ => rfl, ?_⟩, hptr⟩
  · intro j t hj hne'
    rw [hptr j t hj] at hne' ⊢
    exact h.used hj hne'
  intro j t hj hji hne'
  apply Vol.setBlock_block_ne
  intro heq
  exact hji (h.inj hj hi hne' heq).1

/-- Replacing a record by one whose pointers are among the old ones keeps
ownership. -/
theorem setInode (h : Sound V) {r : Inode}
    (hr : ∀ s, ptrOf V.block r s = V.ptr i s ∨ ptrOf V.block r s = 0) :
    Sound (V.setInode i r) := by
  have hptr : ∀ j s, (V.setInode i r).ptr j s = V.ptr j s ∨ (V.setInode i r).ptr j s = 0 := by
    intro j s
    by_cases hji : j = i
    · subst hji
      rw [Vol.setInode_ptr_same]
      exact hr s
    · exact .inl (Vol.setInode_ptr_ne V r s hji)
  refine h.shrink (V.setInode_geo i r) (fun j s _ => hptr j s) ?_
  intro j s hj hne
  have heq := (hptr j s).resolve_right hne
  rw [heq] at hne ⊢
  exact h.used hj hne

/-- Marking a block free that no inode refers to keeps ownership. -/
theorem clearBit (h : Sound V) (hb : ∀ i s, V.IsIno i → V.ptr i s ≠ b) :
    Sound (V.setBit b false) := by
  refine h.shrink (V.setBit_geo b false) (fun i s _ => Or.inl rfl) ?_
  intro i s hi hne
  rw [Vol.setBit_ptr] at hne ⊢
  rw [Vol.setBit_bit_ne _ _ (hb i s hi)]
  exact h.used hi hne

end Sound

/-- What happens to the other files does not depend on the record of `i`. -/
theorem Evolves.of_setInode {i : Nat} {r' : Inode}
    (h : Evolves {i} (V.setInode i r) (V'.setInode i r')) : Evolves {i} V V' where
  geo := ⟨h.geo.1, h.geo.2, h.geo.3, h.geo.4⟩
  inode := fun {j} hj hji => by
    have hkeep := h.inode (j := j) hj hji
    rwa [Vol.setInode_inode_ne _ _ hji, Vol.setInode_inode_ne _ _ hji] at hkeep
  block := fun {j s} hj hji hne => by
    have hptr := Vol.setInode_ptr_ne V r s hji
    have hkeep := h.block (j := j) (s := s) hj hji (hptr ▸ hne)
    rwa [hptr] at hkeep

/-- Replacing the record of `i` touches `i` only. -/
theorem Evolves.setInode (V : Vol) (i : Nat) (r : Inode) : Evolves {i} V (V.setInode i r) where
  geo := V.setInode_geo i r
  inode := fun _ hj => Vol.setInode_inode_ne V r hj
  block := fun _ _ _ => rfl

/-- Changing a mark touches no file. -/
theorem Evolves.setBit (S : Set Nat) (V : Vol) (b : Nat) (u : Bool) :
    Evolves S V (V.setBit b u) where
  geo := V.setBit_geo b u
  inode := fun _ _ => rfl
  block := fun _ _ _ => rfl

end LufiraFs
