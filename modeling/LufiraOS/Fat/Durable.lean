import LufiraOS.Lib.Bytes
import LufiraOS.Fat.Chains

/-!
# What reaches the device

The boot sector, the copies of the table and the fixed root are held in memory as one
image, with a bit for each sector that differs from the device; `fat_sync` writes these
sectors.  `set_fat_entry` stores into every copy of the table but marks the sectors of
the first, and the store that ends the directory behind a new entry marks nothing.
-/

namespace Fat

open ByteStore

/-- Where the parts of the image are, in sectors, and how many tables there are. -/
structure Layout where
  fatStart : Nat
  sectorsPerFat : Nat
  numFats : Nat
  rootDirStart : Nat
  dataStart : Nat

/-- A mounted volume with its image, the device below it and the sectors to be written. -/
structure Vol where
  fs : Fs
  layout : Layout
  image : Bytes
  disk : Bytes
  dirty : Nat → Bool

/-- `fat_offset`. -/
def fatOffset (w : Width) (cluster : Nat) : Nat :=
  match w with
  | .fat12 => cluster + cluster / 2
  | .fat16 => cluster * 2
  | .fat32 => cluster * 4

/-- One byte is stored. -/
def putByte (m : Bytes) (a : Nat) (b : UInt8) : Bytes := Function.update m a b

/-- The stores of `set_fat_entry` into one table, which starts at `base`. -/
def putFat (w : Width) (m : Bytes) (base cluster value : Nat) : Bytes :=
  let o := base + fatOffset w cluster
  match w with
  | .fat12 =>
    if cluster % 2 = 1 then
      let m := putByte m o ((m o &&& 0x0F) ||| UInt8.ofNat (value % 16 * 16))
      putByte m (o + 1) (UInt8.ofNat (value / 16))
    else
      let m := putByte m o (UInt8.ofNat value)
      putByte m (o + 1) ((m (o + 1) &&& 0xF0) ||| UInt8.ofNat (value / 256 % 16))
  | .fat16 => putByte (putByte m o (UInt8.ofNat value)) (o + 1) (UInt8.ofNat (value / 256))
  | .fat32 =>
    let m := putByte (putByte m o (UInt8.ofNat value)) (o + 1) (UInt8.ofNat (value / 256))
    putByte (putByte m (o + 2) (UInt8.ofNat (value / 65536))) (o + 3)
      (UInt8.ofNat (value / 16777216))

/-- The stores into `n` tables from the one at sector `start` on. -/
def putFats (w : Width) (spf cluster value : Nat) : (n start : Nat) → Bytes → Bytes
  | 0, _, m => m
  | n + 1, start, m =>
    putFats w spf cluster value n (start + spf) (putFat w m (start * 512) cluster value)

/-- The 32 bytes of an entry. -/
def DirEntry.encode (e : DirEntry) (k : Nat) : UInt8 :=
  if k = 0 then e.first
  else if k < 11 then e.rest.getD (k - 1) 32
  else if k = 11 then e.attr
  else if k < 20 then e.times.getD (k - 12) 0
  else if k < 22 then UInt8.ofNat (e.clusterHigh / 256 ^ (k - 20))
  else if k < 26 then e.times.getD (k - 14) 0
  else if k < 28 then UInt8.ofNat (e.clusterLow / 256 ^ (k - 26))
  else UInt8.ofNat (e.size / 256 ^ (k - 28))

/-- The bytes of an array of entries. -/
def encodeArray (es : List DirEntry) (k : Nat) : UInt8 :=
  match es[k / 32]? with
  | some e => e.encode (k % 32)
  | none => 0

namespace Vol

/-- `fat_mark_sector_dirty`. -/
def mark (v : Vol) (lba : Nat) : Vol :=
  if v.layout.dataStart ≤ lba then v
  else { v with dirty := fun i => decide (i = lba) || v.dirty i }

/-- `mark_fat_sector_dirty`. -/
def markFat (v : Vol) (cluster : Nat) : Vol :=
  let offset := fatOffset v.fs.width cluster
  let lba := v.layout.fatStart + offset / 512
  let v := v.mark lba
  if offset % 512 > 508 then v.mark (lba + 1) else v

/-- Where an entry of the fixed root is. -/
def entryAt (v : Vol) (index : Nat) : Nat := v.layout.rootDirStart * 512 + 32 * index

/-- One store into the image. -/
def apply (v : Vol) : Store → Vol
  | .fat cluster value =>
    let m := putFats v.fs.width v.layout.sectorsPerFat cluster value v.layout.numFats
      v.layout.fatStart v.image
    { v with image := m }.markFat cluster
  | .entry index e =>
    { v with image := copyIn v.image (v.entryAt index) 32 e.encode }.mark
      (v.layout.rootDirStart + 32 * index / 512)
  | .endMark index => { v with image := putByte v.image (v.entryAt index) 0 }

/-- One call of the driver: its stores in the order in which it makes them. -/
def exec (v : Vol) (op : Fs.Op) : Vol :=
  let fs := { v.fs with log := [] }.exec op
  let v := fs.log.foldl apply v
  { v with fs := { fs with log := [] } }

/-- The sector at which `root_chain_flush` puts a cluster of the root, in 32 bits. -/
def rootLba (v : Vol) (c : Nat) : Nat := (v.layout.dataStart + (c - 2) * v.fs.clusterSize) % 2 ^ 32

/-- One cluster of the root is written to the device. -/
def flushCluster (v : Vol) (disk : Bytes) (x : Nat × List DirEntry) : Bytes :=
  copyIn disk (v.rootLba x.1 * 512) (v.fs.clusterSize * 512) (encodeArray x.2)

/-- `root_chain_flush`. -/
def rootChainFlush (v : Vol) (disk : Bytes) : Bytes :=
  (v.fs.rootChain.zip v.fs.root).foldl v.flushCluster disk

/-- `fat_sync`, on a device that takes every write: the sectors that are marked, then the root of
FAT32. -/
def fatSync (v : Vol) : Vol :=
  let disk : Bytes := fun a =>
    if a < v.layout.dataStart * 512 && v.dirty (a / 512) then v.image a else v.disk a
  { v with
    disk := if v.fs.width = .fat32 then v.rootChainFlush disk else disk
    dirty := fun _ => false }

/-- All tables in the bytes `m` are the same. -/
def SameTables (l : Layout) (m : Bytes) : Prop :=
  ∀ j < l.numFats, ∀ k < l.sectorsPerFat * 512,
    m ((l.fatStart + j * l.sectorsPerFat) * 512 + k) = m (l.fatStart * 512 + k)

/-- **The metadata is on the device.** -/
structure Durable (v : Vol) : Prop where
  image : ∀ a < v.layout.dataStart * 512, v.disk a = v.image a
  tables : SameTables v.layout v.disk
  root : v.fs.width = .fat32 → ∀ x ∈ v.fs.rootChain.zip v.fs.root, ∀ k < v.fs.clusterSize * 512,
    v.disk (v.rootLba x.1 * 512 + k) = encodeArray x.2 k

/-- The clusters of the root of FAT32 lie behind the metadata and apart from each other. -/
def RootApart (v : Vol) : Prop :=
  v.fs.width = .fat32 → v.fs.rootChain.Nodup ∧ ∀ c ∈ v.fs.rootChain,
    2 ≤ c ∧ v.layout.dataStart + (c - 2) * v.fs.clusterSize + v.fs.clusterSize ≤ 2 ^ 32

/-- The call makes no store into the table. -/
def NoTable (fs : Fs) : Fs.Op → Prop
  | .createFile _ => True
  | .mkdir _ _ => False
  | .rm name _ => ∀ e, findEntryInDir fs.root (toShortName name.1) = some e → e.cluster fs.width < 2
  | .writeFile name size _ =>
    ∀ e, findEntryInDir fs.root (toShortName name.1) = some e → e.cluster fs.width < 2 ∧ size = 0
  | .appendFile name size _ => size = 0 ∨ findEntryInDir fs.root (toShortName name.1) = none

/-- The entry behind the first free slot of the fixed root is in the same sector, or is the end
of the directory already. -/
def EndStays (fs : Fs) : Prop :=
  fs.width = .fat32 ∨ (beforeSlot (fs.root.headD [])).length % 16 ≠ 15 ∨
    ∀ next ∈ (fromSlot (fs.root.headD [])).tail.head?, next.first = 0x00

/-- A new entry ends the directory in its own sector. -/
def EndKept (fs : Fs) : Fs.Op → Prop
  | .createFile _ => EndStays fs
  | .mkdir _ _ => EndStays fs
  | _ => True

/-- **The condition on a call**: one table, or no store into it; and a new entry ends the directory
in its own sector. -/
def Reaches (v : Vol) (op : Fs.Op) : Prop :=
  (v.layout.numFats = 1 ∨ NoTable v.fs op) ∧ EndKept v.fs op

end Vol

/-! ## What a call stores -/

/-- Stores that leave no sector of the device behind: into the table only if there is `one`,
and an end of the directory right behind a new entry and in its sector. -/
inductive Good (one : Prop) : List Store → Prop
  | nil : Good one []
  | fat (h : one) (cluster value : Nat) {rest : List Store} :
      Good one rest → Good one (.fat cluster value :: rest)
  | entry (index : Nat) (e : DirEntry) {rest : List Store} :
      Good one rest → Good one (.entry index e :: rest)
  | marked (index : Nat) (e : DirEntry) {rest : List Store} (h : index % 16 ≠ 15) :
      Good one rest → Good one (.entry index e :: .endMark (index + 1) :: rest)

variable {one : Prop} {l l' : List Store}

theorem Good.append (h : Good one l) (h' : Good one l') : Good one (l ++ l') := by
  induction h with
  | nil => exact h'
  | fat hone c v _ ih => exact .fat hone c v ih
  | entry i e _ ih => exact .entry i e ih
  | marked i e hi _ ih => exact .marked i e hi ih

namespace Fs

variable {fs fs' : Fs}

theorem good_modifyStores (fs : Fs) (sname : UInt8 × List UInt8) (f : DirEntry → DirEntry) :
    Good one (fs.modifyStores sname f) := by
  unfold modifyStores
  split
  · exact .nil
  · exact .nil
  · exact .entry _ _ .nil

/-- The stores of the loops are good if there is one table. -/
theorem Stores.good (h : Stores fs fs') (hone : one) :
    ∃ new, fs'.log = fs.log ++ new ∧ Good one new := by
  induction h with
  | refl => exact ⟨[], (List.append_nil _).symm, .nil⟩
  | @set fs' _ c v ih =>
    obtain ⟨new, hnew, hgood⟩ := ih
    unfold setFatEntry
    split
    · refine ⟨new ++ [.fat c v], ?_, hgood.append (.fat hone c v .nil)⟩
      rw [← List.append_assoc, ← hnew]
    · exact ⟨new, hnew, hgood⟩
  | @modify fs' _ sname f _ ih =>
    obtain ⟨new, hnew, hgood⟩ := ih
    refine ⟨new ++ fs'.modifyStores sname f, ?_, hgood.append (good_modifyStores ..)⟩
    rw [← List.append_assoc, ← hnew]
    rfl

theorem good_slot {es : List DirEntry} (h : (beforeSlot es).length % 16 ≠ 15 ∨
    ∀ next ∈ (fromSlot es).tail.head?, next.first = 0x00) (new : DirEntry) :
    Good one (match (fromSlot es).tail with
      | [] => [Store.entry (beforeSlot es).length new]
      | next :: _ => if next.first ≠ 0x00 then
          [.entry (beforeSlot es).length new, .endMark ((beforeSlot es).length + 1)]
        else [.entry (beforeSlot es).length new]) := by
  cases hrest : (fromSlot es).tail with
  | nil => exact .entry _ _ .nil
  | cons next rest =>
    dsimp only
    split
    · next hne =>
      rw [hrest] at h
      exact .marked _ _ (h.resolve_right fun hall => hne (hall next rfl)) .nil
    · exact .entry _ _ .nil

theorem good_insertStores (h : Vol.EndStays fs) (new : DirEntry) :
    Good one (fs.insertStores new) := by
  unfold insertStores
  unfold Vol.EndStays at h
  cases hw : fs.width with
  | fat32 => exact .nil
  | fat12 | fat16 =>
    rw [hw] at h
    exact good_slot (h.resolve_left (by decide)) new

/-- The stores of a call with one table. -/
theorem good_exec_one {op : Op} (hlog : fs.log = []) (hone : one)
    (hend : Vol.EndKept fs op) : Good one (fs.exec op).log := by
  have hstores : ∀ {fs'}, Stores fs fs' → Good one fs'.log := by
    intro fs' h
    obtain ⟨new, hnew, hgood⟩ := h.good hone
    rw [hnew, hlog]
    exact hgood
  have hrefl : Good one fs.log := hstores .refl
  cases op with
  | createFile name =>
    unfold exec fatCreateFile
    dsimp only
    split
    · exact hrefl
    split
    · exact hrefl
    split
    · exact hrefl
    · exact hrefl.append (good_insertStores hend _)
  | mkdir name ok =>
    unfold exec fatMkdir
    dsimp only
    split
    · exact hrefl
    split
    · exact hrefl
    split
    · exact hrefl
    · exact hrefl
    split
    · exact (hstores (Stores.refl.set ..)).append (good_insertStores hend _)
    · exact hstores ((Stores.refl.set ..).set ..)
  | rm name empty =>
    unfold exec fatRm
    dsimp only
    split
    · exact hrefl
    split
    · exact hrefl
    split
    · exact hrefl
    split
    · exact hrefl
    · exact hstores ((stores_freed ..).trans (Stores.refl.modify _ keepsFits_delete))
  | writeFile name size oks => exact hstores (stores_write ..)
  | appendFile name size oks => exact hstores (stores_append ..)

/-- The stores of a call that leaves the table alone. -/
theorem good_exec_noTable {op : Op} (hlog : fs.log = []) (hno : Vol.NoTable fs op)
    (hend : Vol.EndKept fs op) : Good one (fs.exec op).log := by
  have hrefl : Good one fs.log := by
    rw [hlog]
    exact .nil
  cases op with
  | createFile name =>
    unfold exec fatCreateFile
    dsimp only
    split
    · exact hrefl
    split
    · exact hrefl
    split
    · exact hrefl
    · exact hrefl.append (good_insertStores hend _)
  | mkdir name ok => exact hno.elim
  | rm name empty =>
    unfold exec fatRm
    dsimp only
    split
    · exact hrefl
    split
    · exact hrefl
    split
    · exact hrefl
    · next e hfind =>
      split
      · exact hrefl
      · rw [if_neg (Nat.not_le.2 (hno e hfind))]
        exact hrefl.append (good_modifyStores ..)
  | writeFile name size oks =>
    unfold exec fatWriteFile
    dsimp only
    split
    · exact hrefl
    · next e hfind =>
      obtain ⟨hlt, hsize⟩ := hno e hfind
      rw [if_neg (Nat.not_le.2 hlt), if_pos hsize]
      exact hrefl.append (good_modifyStores ..)
  | appendFile name size oks =>
    unfold exec fatAppendFile
    dsimp only
    split
    · exact hrefl
    · next hsize =>
      rw [hno.resolve_left hsize]
      exact hrefl

end Fs

/-! ## The image and the device -/

/-- The number of bytes that an entry of the table touches. -/
def fatSpan : Width → Nat
  | .fat32 => 4
  | _ => 2

theorem putByte_of_ne {m : Bytes} {a x : Nat} {b : UInt8} (h : x ≠ a) : putByte m a b x = m x :=
  Function.update_of_ne h ..

theorem putFat_outside {w : Width} {m : Bytes} {base c v a : Nat}
    (h : a < base + fatOffset w c ∨ base + fatOffset w c + fatSpan w ≤ a) :
    putFat w m base c v a = m a := by
  unfold putFat
  cases w
  all_goals
    simp only [fatSpan] at h
    dsimp only
  · split <;> rw [putByte_of_ne (by omega), putByte_of_ne (by omega)]
  · rw [putByte_of_ne (by omega), putByte_of_ne (by omega)]
  · rw [putByte_of_ne (by omega), putByte_of_ne (by omega), putByte_of_ne (by omega),
      putByte_of_ne (by omega)]

/-- The sectors that an entry of the table touches are the ones that are marked. -/
theorem sector_of_fat {w : Width} {start c a : Nat} (hlo : start * 512 + fatOffset w c ≤ a)
    (hhi : a < start * 512 + fatOffset w c + fatSpan w) :
    a / 512 = start + fatOffset w c / 512 ∨
      fatOffset w c % 512 > 508 ∧ a / 512 = start + fatOffset w c / 512 + 1 := by
  cases w <;> simp only [fatOffset, fatSpan] at * <;> omega

namespace Vol

variable {v : Vol}

/-- A clean sector is on the device, and the tables are the same. -/
structure Sound (v : Vol) : Prop where
  clean : ∀ a < v.layout.dataStart * 512, v.dirty (a / 512) = false → v.disk a = v.image a
  tables : SameTables v.layout v.image
  fats : v.layout.fatStart + v.layout.numFats * v.layout.sectorsPerFat = v.layout.rootDirStart

theorem mark_dirty {lba i : Nat} (hi : i < v.layout.dataStart)
    (h : (v.mark lba).dirty i = false) : i ≠ lba ∧ v.dirty i = false := by
  unfold mark at h
  split at h
  · next hle => exact ⟨by omega, h⟩
  · simpa using h

theorem mark_eq (v : Vol) (lba : Nat) : (v.mark lba).image = v.image ∧
    (v.mark lba).disk = v.disk ∧ (v.mark lba).layout = v.layout := by
  unfold mark
  split <;> exact ⟨rfl, rfl, rfl⟩

theorem markFat_eq (v : Vol) (c : Nat) : (v.markFat c).image = v.image ∧
    (v.markFat c).disk = v.disk ∧ (v.markFat c).layout = v.layout := by
  unfold markFat
  dsimp only
  have hone := mark_eq v (v.layout.fatStart + fatOffset v.fs.width c / 512)
  split
  · have htwo := mark_eq (v.mark (v.layout.fatStart + fatOffset v.fs.width c / 512))
      (v.layout.fatStart + fatOffset v.fs.width c / 512 + 1)
    exact ⟨htwo.1.trans hone.1, htwo.2.1.trans hone.2.1, htwo.2.2.trans hone.2.2⟩
  · exact hone

theorem markFat_dirty {c i : Nat} (hi : i < v.layout.dataStart)
    (h : (v.markFat c).dirty i = false) :
    i ≠ v.layout.fatStart + fatOffset v.fs.width c / 512 ∧ (fatOffset v.fs.width c % 512 > 508 →
        i ≠ v.layout.fatStart + fatOffset v.fs.width c / 512 + 1) ∧ v.dirty i = false := by
  unfold markFat at h
  dsimp only at h
  have hlayout := (mark_eq v (v.layout.fatStart + fatOffset v.fs.width c / 512)).2.2
  split at h
  · obtain ⟨hne, hrest⟩ := mark_dirty (by rw [hlayout]; exact hi) h
    obtain ⟨hne', hold⟩ := mark_dirty hi hrest
    exact ⟨hne', fun _ => hne, hold⟩
  · next hsmall =>
    obtain ⟨hne', hold⟩ := mark_dirty hi h
    exact ⟨hne', fun hbig => absurd hbig hsmall, hold⟩

/-- The tables end where the root begins. -/
theorem table_lt {l : Layout} (h : l.fatStart + l.numFats * l.sectorsPerFat = l.rootDirStart)
    {j k : Nat}
    (hj : j < l.numFats) (hk : k < l.sectorsPerFat * 512) :
    (l.fatStart + j * l.sectorsPerFat) * 512 + k < l.rootDirStart * 512 := by
  have hle : (j + 1) * l.sectorsPerFat ≤ l.numFats * l.sectorsPerFat := Nat.mul_le_mul_right _ hj
  rw [Nat.add_mul, Nat.one_mul] at hle
  omega

/-- A store into the root does not touch the tables. -/
theorem SameTables.congr {l : Layout} {m m' : Bytes} (h : SameTables l m)
    (hfats : l.fatStart + l.numFats * l.sectorsPerFat = l.rootDirStart)
    (hsame : ∀ a < l.rootDirStart * 512, m' a = m a) : SameTables l m' := by
  intro j hj k hk
  have hzero := table_lt hfats (Nat.lt_of_le_of_lt (Nat.zero_le j) hj) hk
  rw [Nat.zero_mul, Nat.add_zero] at hzero
  rw [hsame _ (table_lt hfats hj hk), hsame _ hzero, h j hj k hk]

theorem Sound.fat (h : Sound v) (hone : v.layout.numFats = 1) (c value : Nat) :
    Sound (v.apply (.fat c value)) := by
  have heq := markFat_eq { v with
    image := putFats v.fs.width v.layout.sectorsPerFat c value v.layout.numFats v.layout.fatStart
      v.image } c
  have himage : (v.apply (.fat c value)).image =
      putFat v.fs.width v.image (v.layout.fatStart * 512) c value := by
    refine heq.1.trans ?_
    rw [hone]
    rfl
  have hlayout : (v.apply (.fat c value)).layout = v.layout := heq.2.2
  have hdisk : (v.apply (.fat c value)).disk = v.disk := heq.2.1
  refine ⟨fun a ha hclean => ?_, fun j hj k _ => ?_, by rw [hlayout]; exact h.fats⟩
  · rw [hlayout] at ha
    have hlt : a / 512 < v.layout.dataStart := by omega
    obtain ⟨hne, hne', hold⟩ := markFat_dirty (v := { v with
      image := putFats v.fs.width v.layout.sectorsPerFat c value v.layout.numFats v.layout.fatStart
        v.image }) hlt hclean
    rw [hdisk, himage, putFat_outside, h.clean a ha hold]
    by_contra hin
    rw [not_or] at hin
    rcases sector_of_fat (Nat.not_lt.1 hin.1) (Nat.not_le.1 hin.2) with hs | ⟨hbig, hs⟩
    · exact hne hs
    · exact hne' hbig hs
  · rw [hlayout] at hj ⊢
    rw [show j = 0 by omega, Nat.zero_mul, Nat.add_zero]

theorem Sound.entry (h : Sound v) (i : Nat) (e : DirEntry) : Sound (v.apply (.entry i e)) := by
  have heq := mark_eq { v with image := copyIn v.image (v.entryAt i) 32 e.encode }
    (v.layout.rootDirStart + 32 * i / 512)
  have himage : (v.apply (.entry i e)).image = copyIn v.image (v.entryAt i) 32 e.encode := heq.1
  have hlayout : (v.apply (.entry i e)).layout = v.layout := heq.2.2
  have hdisk : (v.apply (.entry i e)).disk = v.disk := heq.2.1
  refine ⟨fun a ha hclean => ?_, ?_, by rw [hlayout]; exact h.fats⟩
  · rw [hlayout] at ha
    have hlt : a / 512 < v.layout.dataStart := by omega
    obtain ⟨hne, hold⟩ := mark_dirty (v := { v with
      image := copyIn v.image (v.entryAt i) 32 e.encode }) hlt hclean
    rw [hdisk, himage, copyIn_outside, h.clean a ha hold]
    unfold entryAt
    omega
  rw [hlayout, himage]
  exact h.tables.congr h.fats fun a ha =>
    copyIn_outside (.inl (Nat.lt_of_lt_of_le ha (Nat.le_add_right ..)))

theorem Sound.marked (h : Sound v) {i : Nat} (hi : i % 16 ≠ 15) (e : DirEntry) :
    Sound ((v.apply (.entry i e)).apply (.endMark (i + 1))) := by
  have hentry := h.entry i e
  have hlayout : (v.apply (.entry i e)).layout = v.layout := (mark_eq ..).2.2
  refine ⟨fun a ha hclean => ?_, ?_, hentry.fats⟩
  · have ha' : a < v.layout.dataStart * 512 := by
      rw [← hlayout]
      exact ha
    have hclean' : (v.apply (.entry i e)).dirty (a / 512) = false := hclean
    have hlt : a / 512 < v.layout.dataStart := by omega
    obtain ⟨hne, -⟩ := mark_dirty (v := { v with
      image := copyIn v.image (v.entryAt i) 32 e.encode }) hlt hclean'
    have hold := hentry.clean a ha hclean'
    refine hold.trans (putByte_of_ne fun heq => hne ?_).symm
    rw [heq, entryAt, hlayout]
    omega
  · exact hentry.tables.congr hentry.fats fun a ha =>
      putByte_of_ne (Nat.ne_of_lt (Nat.lt_of_lt_of_le ha (Nat.le_add_right ..)))

theorem apply_layout (v : Vol) (s : Store) : (v.apply s).layout = v.layout := by
  cases s with
  | fat c value => exact (markFat_eq ..).2.2
  | entry i e => exact (mark_eq ..).2.2
  | endMark i => rfl

/-- **Good stores** keep the clean sectors on the device. -/
theorem Sound.apply_good {l : List Store} (hgood : Good (v.layout.numFats = 1) l) (h : Sound v) :
    Sound (l.foldl apply v) := by
  generalize hone : (v.layout.numFats = 1) = one at hgood
  induction hgood generalizing v with
  | nil => exact h
  | fat hone' c value _ ih =>
    refine ih (h.fat (hone ▸ hone') c value) ?_
    rwa [apply_layout]
  | entry i e _ ih =>
    refine ih (h.entry i e) ?_
    rwa [apply_layout]
  | marked i e hi _ ih =>
    refine ih (h.marked hi e) ?_
    rwa [apply_layout, apply_layout]

/-! ## Calls -/

/-- **A call that reaches the device** keeps the clean sectors on the device. -/
theorem Sound.exec {op : Fs.Op} (h : Sound v) (hreach : Reaches v op) : Sound (v.exec op) := by
  have hgood : Good (v.layout.numFats = 1) ({ v.fs with log := [] }.exec op).log := by
    have hend : EndKept { v.fs with log := [] } op := by
      cases op <;> exact hreach.2
    rcases hreach.1 with hone | hno
    · exact Fs.good_exec_one rfl hone hend
    · refine Fs.good_exec_noTable rfl ?_ hend
      cases op <;> exact hno
  have hsound := h.apply_good hgood
  exact ⟨hsound.clean, hsound.tables, hsound.fats⟩

theorem exec_layout (v : Vol) (op : Fs.Op) : (v.exec op).layout = v.layout :=
  List.foldlRecOn (motive := fun w : Vol => w.layout = v.layout) _ _ rfl fun w hw s _ =>
    (apply_layout w s).trans hw

/-! ### The root of FAT32 -/

/-- A cluster of the root lies behind the metadata. -/
theorem RootApart.lba (h : RootApart v) (hw : v.fs.width = .fat32) (hpos : 0 < v.fs.clusterSize)
    {c : Nat} (hc : c ∈ v.fs.rootChain) :
    v.rootLba c = v.layout.dataStart + (c - 2) * v.fs.clusterSize := by
  have hfits := ((h hw).2 c hc).2
  exact Nat.mod_eq_of_lt (by omega)

/-- Two clusters of the root have no byte in common. -/
theorem RootApart.disjoint (h : RootApart v) (hw : v.fs.width = .fat32)
    (hpos : 0 < v.fs.clusterSize)
    {c c' : Nat} (hc : c ∈ v.fs.rootChain) (hc' : c' ∈ v.fs.rootChain) (hlt : c < c') :
    v.rootLba c * 512 + v.fs.clusterSize * 512 ≤ v.rootLba c' * 512 := by
  rw [h.lba hw hpos hc, h.lba hw hpos hc', ← Nat.add_mul]
  have htwo := ((h hw).2 c hc).1
  have hle : (c - 2 + 1) * v.fs.clusterSize ≤ (c' - 2) * v.fs.clusterSize :=
    Nat.mul_le_mul_right _ (by omega)
  rw [Nat.add_mul, Nat.one_mul] at hle
  omega

/-- Bytes that no cluster covers are left alone. -/
theorem flush_outside {l : List (Nat × List DirEntry)} {disk : Bytes} {a : Nat}
    (h : ∀ x ∈ l, a < v.rootLba x.1 * 512 ∨ v.rootLba x.1 * 512 + v.fs.clusterSize * 512 ≤ a) :
    l.foldl v.flushCluster disk a = disk a := by
  induction l generalizing disk with
  | nil => rfl
  | cons x l ih =>
    rw [List.foldl_cons, ih fun y hy => h y (List.mem_cons_of_mem _ hy)]
    exact copyIn_outside (h x List.mem_cons_self)

/-- **Each cluster is written once**, so that it holds its entries afterwards. -/
theorem flush_inside {l : List (Nat × List DirEntry)} {disk : Bytes}
    (h : l.Pairwise fun x y => v.rootLba x.1 * 512 + v.fs.clusterSize * 512 ≤ v.rootLba y.1 * 512 ∨
      v.rootLba y.1 * 512 + v.fs.clusterSize * 512 ≤ v.rootLba x.1 * 512) :
    ∀ x ∈ l, ∀ k < v.fs.clusterSize * 512,
      l.foldl v.flushCluster disk (v.rootLba x.1 * 512 + k) = encodeArray x.2 k := by
  induction l generalizing disk with
  | nil => simp
  | cons y l ih =>
    intro x hx k hk
    rw [List.pairwise_cons] at h
    rw [List.foldl_cons]
    rcases List.mem_cons.1 hx with rfl | hx
    · rw [flush_outside fun z hz => ?_]
      · rw [flushCluster, copyIn_inside (Nat.le_add_right ..) (Nat.add_lt_add_left hk _),
          Nat.add_sub_cancel_left]
      · rcases h.1 z hz with hle | hle <;> omega
    · exact ih h.2 x hx k hk

/-- What holds between the members of a list holds between the pairs made of them. -/
theorem pairwise_zip {α β : Type} {R : α → α → Prop} {l : List α} (h : l.Pairwise R) (l' : List β) :
    (l.zip l').Pairwise fun x y => R x.1 y.1 := by
  induction h generalizing l' with
  | nil => exact .nil
  | cons hall _ ih =>
    cases l' with
    | nil => exact .nil
    | cons b l' => exact .cons (fun y hy => hall _ (List.of_mem_zip hy).1) (ih l')

theorem RootApart.pairwise (h : RootApart v) (hw : v.fs.width = .fat32)
    (hpos : 0 < v.fs.clusterSize) : (v.fs.rootChain.zip v.fs.root).Pairwise fun x y =>
      v.rootLba x.1 * 512 + v.fs.clusterSize * 512 ≤ v.rootLba y.1 * 512 ∨
        v.rootLba y.1 * 512 + v.fs.clusterSize * 512 ≤ v.rootLba x.1 * 512 := by
  refine (pairwise_zip (h hw).1 v.fs.root).imp_of_mem fun {x y} hx hy hne => ?_
  have hx' := (List.of_mem_zip hx).1
  have hy' := (List.of_mem_zip hy).1
  rcases Nat.lt_or_gt_of_ne hne with hlt | hlt
  · exact .inl (h.disjoint hw hpos hx' hy' hlt)
  · exact .inr (h.disjoint hw hpos hy' hx' hlt)

/-- `fat_sync` puts the image on the device. -/
theorem Sound.durable_fatSync (h : Sound v) (hinside : v.layout.rootDirStart ≤ v.layout.dataStart)
    (hpos : 0 < v.fs.clusterSize) (hroot : RootApart v) : Durable v.fatSync := by
  have hmarked : ∀ a < v.layout.dataStart * 512,
      (if a < v.layout.dataStart * 512 && v.dirty (a / 512) then v.image a else v.disk a) =
        v.image a := by
    intro a ha
    cases hd : v.dirty (a / 512) with
    | true => simp [ha]
    | false => simp [h.clean a ha hd]
  have himage : ∀ a < v.layout.dataStart * 512, v.fatSync.disk a = v.image a := by
    intro a ha
    unfold fatSync
    dsimp only
    split
    · next hw =>
      refine (flush_outside fun x hx => .inl ?_).trans (hmarked a ha)
      rw [hroot.lba hw hpos (List.of_mem_zip hx).1, Nat.add_mul]
      exact Nat.lt_of_lt_of_le ha (Nat.le_add_right ..)
    · exact hmarked a ha
  refine ⟨himage, ?_, fun hw x hx k hk => ?_⟩
  · exact h.tables.congr h.fats fun a ha =>
      himage a (Nat.lt_of_lt_of_le ha (Nat.mul_le_mul_right 512 hinside))
  · have hdisk : v.fatSync.disk = v.rootChainFlush _ := if_pos hw
    rw [hdisk]
    exact flush_inside (hroot.pairwise hw hpos) x hx k hk

/-- The bytes of a FAT12 volume with `n` tables of one sector, all bytes of them `b`, behind them
the root in one sector and a cluster of one sector for each number up to the last. -/
def smallBytes (fs : Fs) (b n : UInt8) : Bytes := fun a =>
  let es := fs.root.headD []
  if a < 512 then
    if a = 12 then 2 else if a = 13 ∨ a = 14 ∨ a = 22 then 1 else if a = 16 then n
    else if a = 17 then UInt8.ofNat es.length else if a = 19 then UInt8.ofNat fs.maxCluster + n
    else if a = 510 then 0x55 else if a = 511 then 0xAA else 0
  else if a < (1 + n.toNat) * 512 then b
  else if a < (2 + n.toNat) * 512 then encodeArray es (a - (1 + n.toNat) * 512)
  else 0

/-- This volume, mounted. -/
def ofSmall (fs : Fs) (b n : UInt8) : Vol where
  fs := fs
  layout := ⟨1, 1, n.toNat, 1 + n.toNat, 2 + n.toNat⟩
  image := smallBytes fs b n
  disk := smallBytes fs b n
  dirty _ := false

/-- A file `A` on a volume with `n` tables. -/
def small (n : UInt8) : Vol := ofSmall (Fs.volume [65]) 0 n

end Vol

end Fat
