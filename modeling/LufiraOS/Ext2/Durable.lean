import LufiraOS.Ext2.Image

/-!
# What reaches the device

Every function of the driver leaves the sectors marked whose bytes it changed, so after
`sync_mount_to_usb` the device is what the image is.  There are exceptions.  The number of a new
block in `i_block` is only marked with `i_blocks`, which is in the same sector if the inodes are
aligned.  `alloc_inode` marks what it finds under the number of the inode after it has cleared it.
The length of a directory entry that takes in the next one can come to 0 in 16 bits.  And
`ext2_unlink` marks the links of an inode only if some are left.
-/

namespace Ext2

open List hiding count

open Image

/-- Every sector with a byte that changed is marked; the device is as it was. -/
structure Marked (g : Geometry) (s s' : Image) : Prop where
  device : s'.device = s.device
  dirty : ∀ lba, s.dirty lba = true → s'.dirty lba = true
  bytes : ∀ i, i / 512 < g.size / 512 → s'.bytes i ≠ s.bytes i → s'.dirty (i / 512) = true

variable {g : Geometry} {s s' : Image}
  {off len : Nat} {fields : List (Ptr × List UInt8)} {inode : Ptr} {name : List UInt8}

theorem Marked.refl (g : Geometry) (s : Image) : Marked g s s :=
  ⟨rfl, fun _ h => h, fun _ _ h => absurd rfl h⟩

theorem Marked.trans {s'' : Image} (h : Marked g s s') (h' : Marked g s' s'') : Marked g s s'' := by
  refine ⟨h'.device.trans h.device, fun lba hd => h'.dirty lba (h.dirty lba hd), fun i hi hne => ?_⟩
  by_cases hlast : s''.bytes i = s'.bytes i
  · exact h'.dirty _ (h.bytes i hi (by rwa [hlast] at hne))
  · exact h'.bytes i hi hlast

theorem Marked.ite {c : Prop} [Decidable c] {s₁ s₂ : Image} (h₁ : Marked g s s₁)
    (h₂ : Marked g s s₂) : Marked g s (if c then s₁ else s₂) := by
  split
  · exact h₁
  · exact h₂

/-- Marked steps in a loop. -/
theorem Marked.foldl {β : Type} {f : Image → β → Image} (h : ∀ s b, Marked g s (f s b))
    (l : List β) (s : Image) : Marked g s (l.foldl f s) :=
  List.foldlRecOn l f (.refl g s) fun t ht b _ => ht.trans (h t b)

/-! ### Stores and marks -/

theorem set_frame (s : Image) (p : Ptr) (b : UInt8) :
    (s.set p b).device = s.device ∧ (s.set p b).dirty = s.dirty := by
  cases p <;> exact ⟨rfl, rfl⟩

/-- A store touches neither the device nor the marks. -/
theorem store_frame (s : Image) (p : Ptr) (bs : List UInt8) :
    (s.store p bs).device = s.device ∧ (s.store p bs).dirty = s.dirty := by
  induction bs generalizing s p with
  | nil => exact ⟨rfl, rfl⟩
  | cons b rest ih =>
    have hset := set_frame s p b
    have hrest := ih (s.set p b) (p.add 1)
    exact ⟨hrest.1.trans hset.1, hrest.2.trans hset.2⟩

/-- A store changes the bytes that it is for, to bytes that it stores. -/
theorem store_bytes (s : Image) (p : Ptr) (bs : List UInt8) (i : Nat) :
    (s.store p bs).bytes i = s.bytes i ∨
      ∃ off, p = .image off ∧ off ≤ i ∧ i < off + bs.length ∧ (s.store p bs).bytes i ∈ bs := by
  induction bs generalizing s p with
  | nil => exact .inl rfl
  | cons b rest ih =>
    rcases ih (s.set p b) (p.add 1) with h | ⟨off, hoff, hle, hlt, hmem⟩
    · rw [Image.store, h]
      cases p with
      | trap off => exact .inl rfl
      | image off =>
        by_cases hi : i = off
        · right
          refine ⟨off, rfl, by omega, by simp [hi], ?_⟩
          show Function.update s.bytes off b i ∈ _
          rw [hi, Function.update_self]
          exact mem_cons_self ..
        · left
          exact Function.update_of_ne hi ..
    right
    cases p with
    | trap off' => cases hoff
    | image off' =>
      cases hoff
      refine ⟨off', rfl, by omega, ?_, mem_cons_of_mem _ hmem⟩
      rw [length_cons]
      omega

/-- The sectors of a range are marked. -/
theorem markDirty_dirty {i : Nat} (hlen : 0 < len) (hi : i < g.size / 512)
    (hlow : off / 512 ≤ i) (hhigh : i ≤ (off + len - 1) % 2 ^ 32 / 512) :
    (s.markDirty g off len).dirty i = true := by
  have hmap : i / 8 < (g.size / 512 + 7) / 8 := by omega
  unfold markDirty
  rw [if_neg (by omega)]
  simp only [hlow, hhigh, hmap, decide_true, Bool.and_self, Bool.or_true]

theorem markDirty_frame (s : Image) (off len : Nat) :
    (s.markDirty g off len).device = s.device ∧ (s.markDirty g off len).bytes = s.bytes ∧
      ∀ lba, s.dirty lba = true → (s.markDirty g off len).dirty lba = true := by
  unfold markDirty
  split
  · exact ⟨rfl, rfl, fun _ h => h⟩
  · exact ⟨rfl, rfl, fun lba h => by simp [h]⟩

theorem foldl_store_frame (fields : List (Ptr × List UInt8)) (s : Image) :
    (fields.foldl (fun s f => s.store f.1 f.2) s).device = s.device ∧
      (fields.foldl (fun s f => s.store f.1 f.2) s).dirty = s.dirty ∧
      ∀ i, (fields.foldl (fun s f => s.store f.1 f.2) s).bytes i = s.bytes i ∨
        ∃ f ∈ fields, ∃ off, f.1 = .image off ∧ off ≤ i ∧ i < off + f.2.length := by
  induction fields generalizing s with
  | nil => exact ⟨rfl, rfl, fun _ => .inl rfl⟩
  | cons f rest ih =>
    obtain ⟨hdevice, hdirty, hbytes⟩ := ih (s.store f.1 f.2)
    have hframe := store_frame s f.1 f.2
    refine ⟨hdevice.trans hframe.1, hdirty.trans hframe.2, fun i => ?_⟩
    rcases hbytes i with h | ⟨f', hf', hrange⟩
    · rcases store_bytes s f.1 f.2 i with h' | ⟨off, hoff, hle, hlt, -⟩
      · exact .inl (h.trans h')
      · exact .inr ⟨f, mem_cons_self .., off, hoff, hle, hlt⟩
    · exact .inr ⟨f', mem_cons_of_mem _ hf', hrange⟩

/-- Fields whose sectors are marked. -/
theorem marked_put (hlen : 0 < len)
    (h : ∀ f ∈ fields, ∀ a, f.1 = .image a → ∀ i, a ≤ i → i < a + f.2.length →
      i / 512 < g.size / 512 → off / 512 ≤ i / 512 ∧ i / 512 ≤ (off + len - 1) % 2 ^ 32 / 512) :
    Marked g s (s.put g fields off len) := by
  obtain ⟨hdevice, hdirty, hbytes⟩ := foldl_store_frame fields s
  obtain ⟨hdevice', hbytes', hdirty'⟩ := markDirty_frame (g := g)
    (fields.foldl (fun s f => s.store f.1 f.2) s) off len
  refine ⟨hdevice'.trans hdevice, fun lba hl => hdirty' lba (by rw [hdirty]; exact hl),
    fun i hi hne => ?_⟩
  rcases hbytes i with hsame | ⟨f, hf, a, ha, hle, hlt⟩
  · exact absurd ((congrFun hbytes' i).trans hsame) hne
  · obtain ⟨hlow, hhigh⟩ := h f hf a ha i hle hlt hi
    exact markDirty_dirty hlen hi hlow hhigh

/-- Fields in the range that is marked. -/
theorem marked_put_range {o : Nat} (hlen : 0 < len) (hlong : len ≤ 0x80000000)
    (h : ∀ f ∈ fields, ∀ a, f.1 = .image a → o ≤ a ∧ a + f.2.length ≤ o + len) :
    Marked g s (s.put g fields (o % 2 ^ 32) len) := by
  refine marked_put hlen fun f hf a ha i hle hlt hi => ?_
  obtain ⟨hlow, hhigh⟩ := h f hf a ha
  have hsmall := g.small
  rw [Nat.mod_eq_of_lt (by omega : o < 2 ^ 32), Nat.mod_eq_of_lt (by omega)]
  omega

/-- Fields behind the address that is marked. -/
theorem marked_put_at {base : Ptr} (hlen : 0 < len) (hlong : len ≤ 0x80000000)
    (h : ∀ f ∈ fields, ∃ k, f.1 = base.add k ∧ k + f.2.length ≤ len) :
    Marked g s (s.put g fields (offset g base) len) := by
  cases base with
  | image o =>
    refine marked_put_range (o := o) hlen hlong fun f hf a ha => ?_
    obtain ⟨k, hk, hle⟩ := h f hf
    rw [hk] at ha
    cases ha
    omega
  | trap o =>
    refine marked_put hlen fun f hf a ha => ?_
    obtain ⟨k, hk, -⟩ := h f hf
    rw [hk] at ha
    cases ha

/-- One field at the address that is marked. -/
theorem marked_put_one (s : Image) (p : Ptr) {bs : List UInt8} (hlen : 0 < len)
    (hlong : len ≤ 0x80000000) (hbs : bs.length ≤ len) :
    Marked g s (s.put g [(p, bs)] (offset g p) len) := by
  refine marked_put_at hlen hlong fun f hf => ?_
  rw [mem_singleton.1 hf]
  exact ⟨0, by cases p <;> rfl, by rwa [Nat.zero_add]⟩

/-- Fields of a block whose range is marked by its number. -/
theorem marked_put_block (s₀ : Image) {b c : Nat} (hlen : 0 < len) (hlong : len ≤ 0x80000000)
    (h : ∀ f ∈ fields, ∃ k, f.1 = (s₀.blkPtr g b).add k ∧ c ≤ k ∧ k + f.2.length ≤ c + len) :
    Marked g s (s.put g fields ((b * g.blockSize + c) % 2 ^ 32) len) := by
  refine marked_put_range (o := b * g.blockSize + c) hlen hlong fun f hf a ha => ?_
  obtain ⟨k, hk, hle, hle'⟩ := h f hf
  rw [hk, blkPtr] at ha
  split at ha
  · cases ha
  · cases ha
    omega

@[simp] theorem length_le (n v : Nat) : (le n v).length = n := by
  induction n generalizing v with
  | zero => rfl
  | succ n ih => rw [le, length_cons, ih]

@[simp] theorem add_zero (p : Ptr) : p.add 0 = p := by cases p <;> rfl

theorem add_add (p : Ptr) (a b : Nat) : (p.add a).add b = p.add (a + b) := by
  cases p <;> simp [Ptr.add, Nat.add_assoc]

/-! ### Bitmaps and counts -/

/-- A field of a group descriptor. -/
theorem marked_putDesc (s : Image) (n field value : Nat) (hfield : field + 2 ≤ 32) :
    Marked g s (s.putDesc g n field value) := by
  refine marked_put_at (by decide) (by decide) fun f hf => ?_
  rw [mem_singleton] at hf
  exact ⟨field, by rw [hf], by rw [hf, length_le]; exact hfield⟩

/-- A field of the superblock. -/
theorem marked_putSuper (s : Image) (field value : Nat) (hfield : field + 4 ≤ 1024) :
    Marked g s (s.putSuper g field value) := by
  have hmod : 1024 % 2 ^ 32 = 1024 := Nat.mod_eq_of_lt (by omega)
  rw [putSuper]
  nth_rewrite 2 [← hmod]
  refine marked_put_range (by decide) (by decide) fun f hf a ha => ?_
  rw [mem_singleton] at hf
  rw [hf] at ha ⊢
  cases ha
  rw [length_le]
  omega

theorem marked_count (s : Image) (n field total : Nat) (up : Bool)
    (h : field + 2 ≤ 32 ∧ total + 4 ≤ 1024) : Marked g s (s.count g n field total up) := by
  unfold count
  exact (marked_putDesc s n field _ h.1).trans (marked_putSuper _ total _ h.2)

/-- One byte, with the mark for it. -/
theorem marked_put_byte (s : Image) (p : Ptr) (b : UInt8) :
    Marked g s (s.put g [(p, [b])] (offset g p) 1) :=
  marked_put_one s p (by decide) (by decide) (Nat.le_refl _)

/-- A number at an address, with the mark for it. -/
theorem marked_put_word (s : Image) (p : Ptr) (n v : Nat) (hn : 0 < n ∧ n ≤ 0x80000000) :
    Marked g s (s.put g [(p, le n v)] (offset g p) n) :=
  marked_put_one s p hn.1 hn.2 (length_le n v).le

theorem marked_bitmapAlloc (s : Image) (b n : Nat) : Marked g s (s.bitmapAlloc g b n).2 := by
  unfold bitmapAlloc
  dsimp only
  split
  · exact .refl g s
  · exact marked_put_byte ..

theorem marked_bitmapFree (s : Image) (b i : Nat) : Marked g s (s.bitmapFree g b i) :=
  marked_put_byte ..

theorem marked_allocBlockIn (l : List Nat) (s : Image) : Marked g s (allocBlockIn g l s).2 := by
  induction l generalizing s with
  | nil => exact .refl g s
  | cons n rest ih =>
    rw [allocBlockIn]
    split
    · exact ih s
    have hbit := marked_bitmapAlloc (g := g) s (s.rd32 (groupPtr g n)) s.blocksPerGroup
    generalize s.bitmapAlloc g (s.rd32 (groupPtr g n)) s.blocksPerGroup = r at hbit ⊢
    obtain ⟨o, s₁⟩ := r
    cases o with
    | none => exact hbit.trans (ih s₁)
    | some i =>
      refine hbit.trans (.trans ?_ (marked_count _ n 12 12 false (by decide)))
      have hblock := g.block
      rw [← Nat.add_zero (_ * g.blockSize)]
      refine marked_put_block s₁ hblock.2.1 (by omega) fun f hf => ?_
      rw [mem_singleton] at hf
      exact ⟨0, by rw [hf, add_zero], Nat.le_refl _, by rw [hf]; simp⟩

theorem marked_allocBlock (s : Image) : Marked g s (s.allocBlock g).2 := marked_allocBlockIn _ s

theorem marked_freeBlock (s : Image) (b : Nat) : Marked g s (s.freeBlock g b) := by
  unfold freeBlock
  dsimp only
  exact .ite (.refl g s) (.ite (.refl g s)
    ((marked_bitmapFree s _ _).trans (marked_count _ _ 12 12 true (by decide))))

theorem marked_pickInode (l : List Nat) (s : Image) : Marked g s (pickInode g l s).2 := by
  induction l generalizing s with
  | nil => exact .refl g s
  | cons n rest ih =>
    rw [pickInode]
    split
    · exact ih s
    have hbit := marked_bitmapAlloc (g := g) s (s.rd32 ((groupPtr g n).add 4)) s.inodesPerGroup
    generalize s.bitmapAlloc g (s.rd32 ((groupPtr g n).add 4)) s.inodesPerGroup = r at hbit ⊢
    obtain ⟨o, s₁⟩ := r
    cases o with
    | none => exact hbit.trans (ih s₁)
    | some i => exact hbit

/-- The inode is where it was when it has been cleared: it does not lie over the superblock or over
the descriptor of its group. -/
def Stays (g : Geometry) (s : Image) (ino : Nat) : Prop :=
  (s.store (s.inodePtr g ino) (List.replicate g.inodeSize 0)).inodePtr g ino = s.inodePtr g ino

instance (g : Geometry) (s : Image) (ino : Nat) : Decidable (Stays g s ino) :=
  inferInstanceAs (Decidable (_ = _))

/-- The inode that would be allocated stays where it is. -/
def NewInodeStays (g : Geometry) (s : Image) : Prop :=
  match pickInode g (List.range g.groupsCount) s with
  | (none, _) => True
  | (some (_, ino), s) => Stays g s ino

theorem marked_clearInode {ino : Nat} (h : Stays g s ino) : Marked g s (s.clearInode g ino) := by
  have hinode := g.inode
  have hblock := g.block
  have hput : s.clearInode g ino = s.put g [(s.inodePtr g ino, List.replicate g.inodeSize 0)]
        (offset g (s.inodePtr g ino)) g.inodeSize := by
    unfold clearInode
    dsimp only
    rw [h]
    rfl
  rw [hput]
  exact marked_put_one s _ (by omega) (by omega) (length_replicate ..).le

theorem marked_allocInode (dir : Bool) (h : NewInodeStays g s) :
    Marked g s (s.allocInode g dir).2 := by
  have hpick := marked_pickInode (g := g) (List.range g.groupsCount) s
  unfold NewInodeStays at h
  unfold allocInode
  generalize pickInode g (List.range g.groupsCount) s = r at h hpick
  obtain ⟨o, s₁⟩ := r
  cases o with
  | none => exact hpick
  | some x =>
    obtain ⟨n, ino⟩ := x
    have hclear := hpick.trans (marked_clearInode h)
    dsimp only
    generalize s₁.clearInode g ino = s₂ at hclear ⊢
    have hcount := hclear.trans (marked_count s₂ n 14 16 false (by decide))
    generalize s₂.count g n 14 16 false = s₃ at hcount ⊢
    exact .ite (hcount.trans (marked_putDesc s₃ n 16 _ (by decide))) hcount

theorem marked_freeInode (s : Image) (ino : Nat) (dir : Bool) :
    Marked g s (s.freeInode g ino dir) := by
  unfold freeInode
  dsimp only
  split
  · exact .refl g s
  split
  · exact .refl g s
  generalize (ino - 1) / s.inodesPerGroup = n
  have hfree := marked_bitmapFree (g := g) s (s.rd32 ((groupPtr g n).add 4))
    ((ino - 1) % s.inodesPerGroup)
  generalize s.bitmapFree g _ _ = s₁ at hfree ⊢
  have hcount := hfree.trans (marked_count s₁ n 14 16 true (by decide))
  generalize s₁.count g n 14 16 true = s₂ at hcount ⊢
  exact .ite (hcount.trans (marked_putDesc s₂ n 16 _ (by decide))) hcount

/-! ### The blocks of a file -/

/-- The inode does not cross a sector with its first 100 bytes. -/
def Aligned (inode : Ptr) : Prop := ∀ off, inode = .image off → off % 128 = 0

/-- Inodes whose size is a multiple of 128 are aligned. -/
theorem aligned_inodePtr (hsize : 128 ∣ g.inodeSize) (s : Image) (ino : Nat) :
    Aligned (s.inodePtr g ino) := by
  intro off hoff
  unfold inodePtr at hoff
  dsimp only at hoff
  split at hoff
  · cases hoff
  split at hoff
  · cases hoff
  cases hoff
  have hblock : 128 ∣ g.blockSize := Nat.dvd_trans (by decide) g.block.1
  exact Nat.mod_eq_zero_of_dvd (Nat.dvd_add (Dvd.dvd.mul_left hblock _) (Dvd.dvd.mul_left hsize _))

theorem load_of_rd32_eq_zero {p : Ptr} (h : s.rd32 p = 0) {k : Nat} (hk : k < 4) :
    s.load (p.add k) = 0 := by
  have hzero : ∀ b : UInt8, b.toNat = 0 → b = 0 := fun b hb => UInt8.toNat_inj.1 hb
  simp only [Image.rd32, Image.rd16, add_add, Nat.reduceAdd] at h
  have hcases : k = 0 ∨ k = 1 ∨ k = 2 ∨ k = 3 := by omega
  rcases hcases with rfl | rfl | rfl | rfl
  · rw [add_zero]
    exact hzero _ (by omega)
  all_goals exact hzero _ (by omega)

/-- A pointer that stays 0 is stored without a mark; nothing changes by that. -/
theorem marked_store_zero {s₁ : Image} {p : Ptr} (h : Marked g s s₁) (hzero : s.rd32 p = 0) :
    Marked g s (s₁.store p (le 4 0)) := by
  have hframe := store_frame s₁ p (le 4 0)
  refine ⟨hframe.1.trans h.device, fun lba hd => by rw [hframe.2]; exact h.dirty lba hd,
    fun i hi hne => ?_⟩
  rw [hframe.2]
  rcases store_bytes s₁ p (le 4 0) i with hsame | ⟨off, hoff, hle, hlt, hmem⟩
  · exact h.bytes i hi (by rwa [hsame] at hne)
  have hold : s.bytes i = 0 := by
    have hload := load_of_rd32_eq_zero hzero (k := i - off) (by rw [length_le] at hlt; omega)
    rw [hoff] at hload
    have hi' : off + (i - off) = i := by omega
    simpa [Ptr.add, Image.load, hi'] using hload
  have hnew : (s₁.store p (le 4 0)).bytes i = 0 := by
    simpa [le] using hmem
  exact absurd (hnew.trans hold.symm) hne

theorem marked_growInode {k : Nat} (hk : k < 15) (halign : Aligned inode) :
    Marked g s (s.growInode g inode k).2 := by
  unfold growInode
  split
  · exact .refl g s
  · next hzero =>
    have halloc := marked_allocBlock (g := g) s
    dsimp only
    split
    · next hnone =>
      rw [hnone]
      exact marked_store_zero halloc (by simpa [iBlock] using hzero)
    refine halloc.trans ?_
    dsimp only
    refine marked_put (by decide) fun f hf a ha i hle hlt hi => ?_
    have hsmall := g.small
    cases inode with
    | trap off =>
      simp only [mem_cons, not_mem_nil, or_false] at hf
      rcases hf with rfl | rfl <;> cases ha
    | image off =>
      have hmod := halign off rfl
      have hrange : off ≤ a ∧ a + f.2.length ≤ off + 100 := by
        simp only [mem_cons, not_mem_nil, or_false] at hf
        rcases hf with rfl | rfl
        · cases ha
          simp only [length_le]
          omega
        cases ha
        simp only [accounted, length_le]
        omega
      simp only [offset, distance, Ptr.add]
      rw [Nat.mod_eq_of_lt (by omega : off + 28 < 2 ^ 32), Nat.mod_eq_of_lt (by omega)]
      omega

theorem marked_growTable (s : Image) (inode table : Ptr) (i : Nat) :
    Marked g s (s.growTable g inode table i).2 := by
  unfold growTable
  dsimp only
  split
  · exact .refl g s
  have hentry : Marked g s ((s.allocBlock g).2.put g [(table.add (4 * i), le 4 (s.allocBlock g).1)]
      (offset g (table.add (4 * i))) 4) :=
    (marked_allocBlock s).trans (marked_put_word _ _ 4 _ (by decide))
  split
  · exact hentry
  · exact hentry.trans (marked_put_word _ _ 4 _ (by decide))

theorem marked_blockForIndex (index : Nat) (halign : Aligned inode) :
    Marked g s (s.blockForIndex g inode index).2 := by
  unfold blockForIndex
  dsimp only
  split
  · exact .refl g s
  split
  · exact marked_growInode (by omega) halign
  split
  · have hgrow := marked_growInode (g := g) (s := s) (by decide : 12 < 15) halign
    generalize s.growInode g inode 12 = r at hgrow ⊢
    split
    · exact hgrow
    · exact hgrow.trans (marked_growTable ..)
  split
  · have hgrow := marked_growInode (g := g) (s := s) (by decide : 13 < 15) halign
    generalize s.growInode g inode 13 = r at hgrow ⊢
    split
    · exact hgrow
    have htable := hgrow.trans (marked_growTable (g := g) r.2 inode (r.2.blkPtr g r.1)
      ((index - 12 - g.blockSize / 4) / (g.blockSize / 4)))
    generalize r.2.growTable g inode (r.2.blkPtr g r.1) _ = o at htable ⊢
    split
    · exact htable
    · exact htable.trans (marked_growTable ..)
  · exact .refl g s

theorem marked_freeExtentTree (depth : Nat) (s : Image) (node : Ptr) (fromDisk : Bool) :
    Marked g s (freeExtentTree g depth s node fromDisk) := by
  induction depth generalizing s node fromDisk with
  | zero => exact .refl g s
  | succ depth ih =>
    rw [freeExtentTree]
    refine .ite (.refl g s) ?_
    have hfreed {below : Image} (h : Marked g s below) (b : Nat) :
        Marked g s (if fromDisk then below.freeBlock g b else below) :=
      .ite (h.trans (marked_freeBlock ..)) h
    refine hfreed (.ite ?_ ?_) _
    · exact .foldl (fun s _ => .foldl (fun s _ => marked_freeBlock s _) _ s) _ s
    · exact .foldl (fun s _ => .ite (.refl g s) (ih ..)) _ s

theorem marked_freeTable (s : Image) (table : Ptr) : Marked g s (s.freeTable g table) :=
  .foldl (fun s _ => .ite (.refl g s) (marked_freeBlock ..)) _ s

theorem marked_freeAllBlocks (depth : Nat) (s : Image) (inode : Ptr) :
    Marked g s (s.freeAllBlocks g depth inode) := by
  refine .ite (marked_freeExtentTree ..) ?_
  have htable (s : Image) (p : Ptr) (b : Nat) : Marked g s ((s.freeTable g p).freeBlock g b) :=
    (marked_freeTable s p).trans (marked_freeBlock ..)
  dsimp only
  generalize hs₁ : (List.range 12).foldl _ s = s₁
  have hdirect : Marked g s s₁ := by
    rw [← hs₁]
    exact .foldl (fun s _ => .ite (.refl g s) (marked_freeBlock ..)) _ s
  generalize hs₂ : (if s₁.iBlock inode 12 = 0 then s₁ else _) = s₂
  have hsingle : Marked g s₁ s₂ := by
    rw [← hs₂]
    exact .ite (.refl g s₁) (htable ..)
  refine (hdirect.trans hsingle).trans (.ite (.refl g s₂) (.trans ?_ (marked_freeBlock ..)))
  exact .foldl (fun s _ => .ite (.refl g s) (htable ..)) _ s₂

/-! ### The calls -/

theorem marked_writeLoop (halign : Aligned inode) (offset turns : Nat)
    (data : List UInt8) (done : Nat) (s : Image) :
    Marked g s (writeLoop g inode offset turns data done s).2.2 := by
  induction turns generalizing data done s with
  | zero => exact .refl g s
  | succ turns ih =>
    rw [writeLoop]
    split
    · exact .refl g s
    · next hdata =>
      dsimp only
      have hgrow := marked_blockForIndex (g := g) (s := s)
        ((offset + done) % 2 ^ 32 / g.blockSize) halign
      generalize s.blockForIndex g inode ((offset + done) % 2 ^ 32 / g.blockSize) = r at hgrow ⊢
      split
      · exact hgrow
      refine hgrow.trans (.trans ?_ (ih ..))
      have hblock := g.block
      have hpos : 0 < data.length := length_pos_iff.2 hdata
      have hin : (offset + done) % 2 ^ 32 % g.blockSize < g.blockSize := Nat.mod_lt _ hblock.2.1
      generalize (offset + done) % 2 ^ 32 % g.blockSize = c at hin ⊢
      refine marked_put_block r.2 (by omega) (by omega) fun f hf => ?_
      rw [mem_singleton] at hf
      exact ⟨c, by rw [hf], Nat.le_refl _, by rw [hf, length_take]; omega⟩

theorem marked_writeFile (hsize : 128 ∣ g.inodeSize) (s : Image) (ino offset : Nat)
    (data : List UInt8) : Marked g s (s.writeFile g ino offset data) := by
  have hloop := marked_writeLoop (g := g) (aligned_inodePtr hsize s ino) offset data.length data 0 s
  unfold writeFile
  dsimp only
  generalize writeLoop g (s.inodePtr g ino) offset data.length data 0 s = r at hloop ⊢
  obtain ⟨done, full, s₁⟩ := r
  cases full with
  | true => exact hloop
  | false =>
    exact .ite (hloop.trans (marked_put_word s₁ _ 4 _ (by decide))) hloop

/-- Every entry of a directory is eight bytes long at least. -/
theorem recLen_of_mem_entriesFrom {base : Ptr} {turns : Nat} {prev : Option Nat}
    {e : Option Nat × Nat} (h : e ∈ s.entriesFrom g base turns prev off) :
    8 ≤ s.rd16 ((base.add e.2).add 4) := by
  induction turns generalizing prev off with
  | zero => cases h
  | succ turns ih =>
    rw [entriesFrom] at h
    split at h
    · dsimp only at h
      split at h
      · cases h
      · next hlen =>
        rcases mem_cons.1 h with rfl | h
        · exact Nat.not_lt.1 hlen
        · exact ih h
    · cases h

theorem recLen_of_mem_dirents {dir : Ptr} {e : Ptr × Option Nat × Nat} (h : e ∈ s.dirents g dir) :
    8 ≤ s.rd16 ((e.1.add e.2.2).add 4) := by
  obtain ⟨bi, -, hbi⟩ := mem_flatMap.1 h
  dsimp only at hbi
  split at hbi
  · cases hbi
  · obtain ⟨x, hx, rfl⟩ := mem_map.1 hbi
    exact recLen_of_mem_entriesFrom hx

/-- The fields of an entry lie behind it. -/
theorem mem_direntFields {de : Ptr} {ino : Nat} {type : UInt8}
    {f : Ptr × List UInt8} (hf : f ∈ direntFields g de ino name type) :
    ∃ k, f.1 = de.add k ∧ k + f.2.length ≤ 8 + name.length := by
  simp only [direntFields, mem_cons, not_mem_nil, or_false] at hf
  rcases hf with rfl | rfl | rfl
  · exact ⟨0, (add_zero _).symm, by rw [length_le]; omega⟩
  · exact ⟨6, rfl, by simp⟩
  · exact ⟨8, rfl, by simp⟩

/-- So does its length. -/
theorem mem_entryFields {de : Ptr} {ino n : Nat} {type : UInt8} {f : Ptr × List UInt8}
    (hf : f ∈ (de.add 4, le 2 n) :: direntFields g de ino name type) :
    ∃ k, f.1 = de.add k ∧ k + f.2.length ≤ 8 + name.length := by
  rcases mem_cons.1 hf with rfl | hf
  · exact ⟨4, rfl, by rw [length_le]; omega⟩
  · exact mem_direntFields hf

theorem le_direntMinLen (n : Nat) : 8 + n ≤ direntMinLen n := by
  unfold direntMinLen
  omega

theorem rd16_lt (s : Image) (p : Ptr) : s.rd16 p < 2 ^ 16 := by
  have hlow := (s.load p).toNat_lt
  have hhigh := (s.load (p.add 1)).toNat_lt
  unfold Image.rd16
  omega

/-- A new block of a directory, marked by its number. -/
theorem marked_put_dirents (s₀ s : Image) (b c : Nat) (fields : List (Ptr × List UInt8))
    (h : ∀ f ∈ fields, ∃ k, f.1 = ((s₀.blkPtr g b).add c).add k ∧ c + k + f.2.length ≤ 1024) :
    Marked g s (s.put g fields (b * g.blockSize % 2 ^ 32) g.blockSize) := by
  have hblock := g.block
  rw [← Nat.add_zero (b * g.blockSize)]
  refine marked_put_block s₀ hblock.2.1 (by omega) fun f hf => ?_
  obtain ⟨k, hk, hle⟩ := h f hf
  exact ⟨c + k, by rw [hk, add_add], Nat.zero_le _, by omega⟩

/-- A new entry in a directory. -/
theorem marked_insertDirent {dir : Ptr} (halign : Aligned dir) (s : Image) (ino : Nat)
    (hname : name.length ≤ 255) (type : UInt8) :
    Marked g s (s.insertDirent g dir ino name type).2 := by
  unfold insertDirent
  dsimp only
  split
  · next e hfind =>
    have hneed := find?_some hfind
    simp only [decide_eq_true_eq] at hneed
    have hmin := le_direntMinLen name.length
    generalize hde : e.1.add e.2.2 = de at hneed ⊢
    have hlt := rd16_lt s (de.add 4)
    generalize s.rd16 (de.add 4) = recLen at hneed hlt ⊢
    generalize s.usedLen de = used at hneed ⊢
    split
    · refine marked_put_at (by omega) (by omega) fun f hf => ?_
      obtain ⟨k, hk, hle⟩ := mem_direntFields hf
      exact ⟨k, hk, by omega⟩
    refine marked_put_at (by omega) (by omega) fun f hf => ?_
    rcases mem_cons.1 hf with rfl | hf
    · exact ⟨4, rfl, by rw [length_le]; omega⟩
    · obtain ⟨k, hk, hle⟩ := mem_entryFields hf
      exact ⟨used + k, by rw [hk, add_add], by omega⟩
  have hgrow := marked_blockForIndex (g := g) (s := s)
    ((s.rd32 (dir.add 4) + g.blockSize - 1) % 2 ^ 32 / g.blockSize) halign
  generalize s.blockForIndex g dir _ = r at hgrow ⊢
  split
  · exact hgrow
  have hsize := hgrow.trans (marked_put_word (g := g) r.2 (dir.add 4) 4
    ((r.2.rd32 (dir.add 4) + g.blockSize) % 2 ^ 32) (by decide))
  generalize r.2.put g [(dir.add 4, _)] _ 4 = s₂ at hsize ⊢
  refine hsize.trans (marked_put_dirents s₂ s₂ r.1 0 _ fun f hf => ?_)
  obtain ⟨k, hk, hle⟩ := mem_entryFields hf
  exact ⟨k, by rw [add_zero, hk], by omega⟩

theorem marked_initInode (s : Image) (inode : Ptr) (mode links : Nat) :
    Marked g s (s.initInode g inode mode links) := by
  have hinode := g.inode
  have hblock := g.block
  refine marked_put_at (by omega) (by omega) fun f hf => ?_
  simp only [mem_cons, not_mem_nil, or_false] at hf
  rcases hf with rfl | rfl
  · exact ⟨0, (add_zero _).symm, by rw [length_le]; omega⟩
  · exact ⟨26, rfl, by rw [length_le]; omega⟩

theorem marked_create (hsize : 128 ∣ g.inodeSize) (h : NewInodeStays g s) (parentIno : Nat)
    (name : List UInt8) : Marked g s (s.create g parentIno name) := by
  unfold create
  split
  · exact .refl g s
  · next hargs =>
    have hname : name.length ≤ 255 := Nat.not_lt.1 fun hlong => hargs (.inr (.inl hlong))
    have halloc := marked_allocInode false h
    dsimp only
    generalize s.allocInode g false = a at halloc ⊢
    split
    · exact halloc
    have hinit := halloc.trans (marked_initInode (g := g) a.2 (a.2.inodePtr g a.1) 0o100644 1)
    generalize a.2.initInode g _ _ _ = s₁ at hinit ⊢
    have hinsert := hinit.trans (marked_insertDirent (aligned_inodePtr hsize s parentIno) s₁ a.1
      hname 1)
    generalize s₁.insertDirent g _ _ _ _ = r at hinsert ⊢
    split
    · exact hinsert
    · exact hinsert.trans (marked_freeInode ..)

theorem marked_mkdir (hsize : 128 ∣ g.inodeSize) (h : NewInodeStays g s) (parentIno : Nat)
    (name : List UInt8) : Marked g s (s.mkdir g parentIno name) := by
  unfold mkdir
  split
  · exact .refl g s
  · next hargs =>
    have hname : name.length ≤ 255 := Nat.not_lt.1 fun hlong => hargs (.inr (.inl hlong))
    have halloc := marked_allocInode true h
    dsimp only
    generalize s.allocInode g true = a at halloc ⊢
    split
    · exact halloc
    have halign := aligned_inodePtr hsize a.2 a.1
    generalize a.2.inodePtr g a.1 = inode at halign ⊢
    have hinit := halloc.trans (marked_initInode (g := g) a.2 inode 0o40755 2)
    generalize a.2.initInode g _ _ _ = s₁ at hinit ⊢
    have hgrow := hinit.trans (marked_blockForIndex 0 halign)
    generalize s₁.blockForIndex g inode 0 = b at hgrow ⊢
    split
    · exact hgrow.trans (marked_freeInode ..)
    have hlen := hgrow.trans (marked_put_word (g := g) b.2 (inode.add 4) 4 g.blockSize
      (by decide))
    generalize b.2.put g [(inode.add 4, _)] _ 4 = s₂ at hlen ⊢
    have hdot : Marked g s (s₂.put g ((((s₂.blkPtr g b.1).add 4), le 2 12) ::
        direntFields g (s₂.blkPtr g b.1) a.1 [46] 2)
        (b.1 * g.blockSize % 2 ^ 32) g.blockSize) := by
      refine hlen.trans (marked_put_dirents s₂ s₂ b.1 0 _ fun f hf => ?_)
      obtain ⟨k, hk, hle⟩ := mem_entryFields hf
      exact ⟨k, by rw [add_zero, hk], by rw [length_singleton] at hle; omega⟩
    generalize s₂.put g _ _ _ = s₃ at hdot ⊢
    have hdotdot : Marked g s (s₃.put g
        (((((s₃.blkPtr g b.1).add 12).add 4), le 2 ((g.blockSize - 12) % 2 ^ 16)) ::
          direntFields g ((s₃.blkPtr g b.1).add 12) parentIno [46, 46] 2)
        (b.1 * g.blockSize % 2 ^ 32) g.blockSize) := by
      refine hdot.trans (marked_put_dirents s₃ s₃ b.1 12 _ fun f hf => ?_)
      obtain ⟨k, hk, hle⟩ := mem_entryFields hf
      exact ⟨k, hk, by simp only [length_cons, List.length_nil] at hle; omega⟩
    generalize s₃.put g _ _ _ = s₄ at hdotdot ⊢
    have hinsert := hdotdot.trans (marked_insertDirent (aligned_inodePtr hsize s parentIno) s₄
      a.1 hname 2)
    generalize s₄.insertDirent g _ _ _ _ = r at hinsert ⊢
    split
    · exact hinsert.trans (marked_put_word r.2 _ 2 _ (by decide))
    · exact hinsert.trans ((marked_freeBlock ..).trans (marked_freeInode ..))

theorem marked_truncate (depth : Nat) (s : Image) (ino : Nat) :
    Marked g s (s.truncate g depth ino) := by
  have hinode := g.inode
  have hblock := g.block
  unfold truncate
  dsimp only
  generalize s.inodePtr g ino = inode
  refine (marked_freeAllBlocks depth s inode).trans ?_
  generalize s.freeAllBlocks g depth inode = s₁
  refine marked_put_at (by omega) (by omega) fun f hf => ?_
  simp only [mem_cons, not_mem_nil, or_false] at hf
  rcases hf with rfl | rfl | rfl | rfl
  · exact ⟨40, rfl, by rw [length_replicate]; omega⟩
  · exact ⟨32, rfl, by rw [length_le]; omega⟩
  · exact ⟨4, rfl, by rw [length_le]; omega⟩
  · exact ⟨28, rfl, by rw [length_le]; omega⟩

/-- What `ext2_unlink` is asked for can be marked: the lengths of two entries make 16 bits, and an
inode that is not a directory keeps a link, or had none. -/
def KeepsLink (g : Geometry) (s : Image) (parentIno : Nat) (name : List UInt8) : Prop :=
  ∀ e, s.findDirent g (s.inodePtr g parentIno) name = some e →
    (∀ prev, e.2.1 = some prev →
      s.rd16 ((e.1.add prev).add 4) + s.rd16 ((e.1.add e.2.2).add 4) < 2 ^ 16) ∧
    (s.load ((e.1.add e.2.2).add 7) = 2 ∨
      (s.removeDirent g e).rd16
        (((s.removeDirent g e).inodePtr g (s.rd32 (e.1.add e.2.2))).add 26) ≠ 1)

/-- An entry that is taken out. -/
theorem marked_removeDirent {e : Ptr × Option Nat × Nat} (hlen : 8 ≤ s.rd16 ((e.1.add e.2.2).add 4))
    (hwrap : ∀ prev, e.2.1 = some prev →
      s.rd16 ((e.1.add prev).add 4) + s.rd16 ((e.1.add e.2.2).add 4) < 2 ^ 16) :
    Marked g s (s.removeDirent g e) := by
  have hlt := rd16_lt s ((e.1.add e.2.2).add 4)
  unfold removeDirent
  dsimp only
  split
  · next prev hprev =>
    have hsum := hwrap prev hprev
    rw [Nat.mod_eq_of_lt hsum]
    refine marked_put_at (by omega) (by omega) fun f hf => ?_
    rw [mem_singleton] at hf
    exact ⟨4, by rw [hf], by rw [hf, length_le]; omega⟩
  exact marked_put_one s _ (by omega) (by omega) (by rw [length_le]; omega)

theorem marked_unlink {depth parentIno : Nat}
    (h : KeepsLink g s parentIno name) : Marked g s (s.unlink g depth parentIno name).2 := by
  unfold unlink
  dsimp only
  split
  · exact .refl g s
  cases hfind : s.findDirent g (s.inodePtr g parentIno) name with
  | none => exact .refl g s
  | some e =>
    obtain ⟨hwrap, hlinks⟩ := h e hfind
    have hremove := marked_removeDirent (g := g)
      (recLen_of_mem_dirents (mem_of_find?_eq_some hfind)) hwrap
    dsimp only
    generalize s.removeDirent g e = s₁ at hremove hlinks ⊢
    generalize s₁.inodePtr g (s.rd32 (e.1.add e.2.2)) = inode at hlinks ⊢
    split
    · split
      · exact hremove
      have hparent := hremove.trans (marked_put_word (g := g) s₁ ((s.inodePtr g parentIno).add 26) 2
        ((s₁.rd16 ((s.inodePtr g parentIno).add 26) + 2 ^ 16 - 1) % 2 ^ 16)
        (by decide))
      generalize s₁.put g _ _ 2 = s₂ at hparent ⊢
      exact hparent.trans ((marked_freeAllBlocks ..).trans (marked_freeInode ..))
    · next hdir =>
      have hlinks' := hlinks.resolve_left hdir
      generalize s₁.rd16 (inode.add 26) = links at hlinks' ⊢
      rcases Nat.eq_zero_or_pos links with hzero | hpos
      · -- nothing is stored
        rw [if_pos (by omega : links - 1 = 0), if_neg (by omega : ¬ 0 < links)]
        exact hremove.trans ((marked_freeAllBlocks ..).trans (marked_freeInode ..))
      rw [if_neg (by omega : ¬ links - 1 = 0), if_pos hpos]
      exact hremove.trans (marked_put_word s₁ (inode.add 26) 2 (links - 1) (by decide))

/-! ### Runs -/

/-- A call of the driver, or the sectors being written. -/
inductive Call where
  | create (parent : Nat) (name : List UInt8)
  | mkdir (parent : Nat) (name : List UInt8)
  | write (ino offset : Nat) (data : List UInt8)
  | truncate (ino : Nat)
  | unlink (parent : Nat) (name : List UInt8)
  | sync

/-- One call; `depth` bounds the depth of the extent trees. -/
def call (g : Geometry) (depth : Nat) (s : Image) : Call → Image
  | .create parent name => s.create g parent name
  | .mkdir parent name => s.mkdir g parent name
  | .write ino offset data => s.writeFile g ino offset data
  | .truncate ino => s.truncate g depth ino
  | .unlink parent name => (s.unlink g depth parent name).2
  | .sync => s.sync g

/-- What a call may find. -/
def CallOk (g : Geometry) (s : Image) : Call → Prop
  | .create _ _ => NewInodeStays g s
  | .mkdir _ _ => NewInodeStays g s
  | .unlink parent name => KeepsLink g s parent name
  | _ => True

/-- The device is behind the image in dirty sectors only. -/
def Follows (g : Geometry) (s : Image) : Prop :=
  ByteStore.Behind 512 (g.size / 512) 0 s.bytes s.device s.dirty

/-- A marked step leaves the device behind in dirty sectors only. -/
theorem Follows.of_marked (h : Follows g s) (hmarked : Marked g s s') : Follows g s' := by
  unfold Follows
  rw [hmarked.device]
  refine .touch h (fun b hclean => ?_) fun b k hb hk hclean => ?_
  · rw [Bool.eq_false_iff] at hclean ⊢
    exact fun hdirty => hclean (hmarked.dirty b hdirty)
  have hsector : (b * 512 + k) / 512 = b := by omega
  by_contra hne
  have hdirty := hmarked.bytes (b * 512 + k) (by rw [hsector]; exact hb) hne
  rw [hsector, hclean] at hdirty
  cases hdirty

/-- After the sectors are written the device has the image. -/
theorem device_sync (h : Follows g s) {i : Nat} (hi : i / 512 < g.size / 512) :
    (s.sync g).device i = s.bytes i := by
  show (if i / 512 < g.size / 512 ∧ s.dirty (i / 512) = true then s.bytes i else s.device i) = _
  by_cases hdirty : s.dirty (i / 512) = true
  · rw [if_pos ⟨hi, hdirty⟩]
  rw [if_neg fun h => hdirty h.2]
  have hclean := h (i / 512) hi (Bool.eq_false_iff.2 hdirty) (i % 512) (Nat.mod_lt _ (by decide))
  rwa [Nat.zero_add, Nat.div_add_mod'] at hclean

/-- **One call** leaves the device behind in dirty sectors only. -/
theorem follows_call (hsize : 128 ∣ g.inodeSize) {depth : Nat} {c : Call} (h : Follows g s)
    (hok : CallOk g s c) : Follows g (call g depth s c) := by
  cases c with
  | create parent name => exact h.of_marked (marked_create hsize hok parent name)
  | mkdir parent name => exact h.of_marked (marked_mkdir hsize hok parent name)
  | write ino offset data => exact h.of_marked (marked_writeFile hsize s ino offset data)
  | truncate ino => exact h.of_marked (marked_truncate depth s ino)
  | unlink parent name => exact h.of_marked (marked_unlink hok)
  | sync =>
    intro b hb _ k hk
    rw [Nat.zero_add]
    exact device_sync h (by omega)

/-- **What is written reaches the device.**  From an image that the device has, after any calls
that meet the condition and a last write of the sectors, the device has the image. -/
theorem device_after_run (hsize : 128 ∣ g.inodeSize) {depth : Nat} {calls : List Call}
    (hstart : ∀ i, i / 512 < g.size / 512 → s.device i = s.bytes i)
    (hmeets : Run.Meets (call g depth) (CallOk g) s calls) :
    let last := Run.run (call g depth) s calls
    ∀ i, i / 512 < g.size / 512 → (last.sync g).device i = (last.sync g).bytes i := by
  intro last i hi
  have hfollows : Follows g last :=
    hmeets.invariant (fun _ _ hs hok => follows_call hsize hs hok) fun b hb _ k hk => by
      rw [Nat.zero_add]
      exact hstart _ (by omega)
  exact device_sync hfollows hi

/-! ### A small image -/

/-- An image of 16 blocks of 1 KiB with one group. -/
def smallGeometry : Geometry where
  size := 16384
  blockSize := 1024
  inodeSize := 128
  descSize := 32
  groupsCount := 1
  hasFiletype := true
  groups := .image 2048
  trapAt := 0
  small := by decide
  block := by decide
  inode := by decide

/-- The superblock (with the revision, the size of an inode and the FILETYPE feature), the group
descriptor, the bitmaps, the inodes 2 and 3 and the root, which has the
file `a` with one link. -/
def smallBytes : ByteStore.Bytes :=
  ([(1024, Image.le 4 8), (1028, Image.le 4 16), (1036, Image.le 4 9), (1040, Image.le 4 5),
    (1044, Image.le 4 1), (1056, Image.le 4 8192), (1064, Image.le 4 8), (1080, Image.le 2 0xEF53),
    (1100, Image.le 4 1), (1112, Image.le 2 128), (1120, Image.le 4 2),
    (2048, Image.le 4 3), (2052, Image.le 4 4), (2056, Image.le 4 5), (2060, Image.le 2 9),
    (2062, Image.le 2 5), (3072, [63]), (4096, [7]), (5248, Image.le 2 0o40755),
    (5252, Image.le 4 1024), (5274, Image.le 2 2), (5288, Image.le 4 6),
    (5376, Image.le 2 0o100644),
    (5402, Image.le 2 1), (6144, Image.le 4 2 ++ Image.le 2 12 ++ [1, 2, 46]),
    (6156, Image.le 4 2 ++ Image.le 2 12 ++ [2, 2, 46, 46]),
    (6168, Image.le 4 3 ++ Image.le 2 1000 ++ [1, 1, 97])].foldl
    (fun s f => s.store (.image f.1) f.2)
    (⟨fun _ => 0, fun _ => 0, fun _ => 0, fun _ => false⟩ : Image)).bytes

/-- The image as it is mounted. -/
def smallImage : Image := ⟨smallBytes, fun _ => 0, smallBytes, fun _ => false⟩

theorem smallImage_newInodeStays : NewInodeStays smallGeometry smallImage := by
  have hpick : (pickInode smallGeometry (List.range 1) smallImage).1 = some (0, 4) := by
    decide +kernel
  have hstays : Stays smallGeometry (pickInode smallGeometry (List.range 1) smallImage).2 4 := by
    decide +kernel
  show match pickInode smallGeometry (List.range 1) smallImage with
    | (none, _) => True
    | (some (_, ino), s) => Stays smallGeometry s ino
  split
  · trivial
  · next n ino s heq =>
    rw [heq] at hpick hstays
    cases hpick
    exact hstays

/-- A file is made and written to. -/
theorem smallImage_durable :
    let last := Run.run (call smallGeometry 1) smallImage [.create 2 [98], .write 4 0 [1, 2, 3]]
    ∀ i, i / 512 < smallGeometry.size / 512 →
      (last.sync smallGeometry).device i = (last.sync smallGeometry).bytes i :=
  device_after_run (g := smallGeometry) (by decide) (fun _ _ => rfl)
    ⟨smallImage_newInodeStays, trivial, trivial⟩

/-- **The last link**: the device keeps the count of 1 for the inode of a file that was removed. -/
theorem smallImage_not_durable :
    (∀ i, i / 512 < smallGeometry.size / 512 → smallImage.device i = smallImage.bytes i) ∧
    ¬ ∀ i, i / 512 < smallGeometry.size / 512 →
      ((Run.run (call smallGeometry 1) smallImage [.unlink 2 [97]]).sync smallGeometry).device i =
        ((Run.run (call smallGeometry 1) smallImage [.unlink 2 [97]]).sync smallGeometry).bytes
          i := by
  refine ⟨fun _ _ => rfl, fun h => ?_⟩
  have hlinks := h 5402 (by decide)
  revert hlinks
  decide +kernel

end Ext2
