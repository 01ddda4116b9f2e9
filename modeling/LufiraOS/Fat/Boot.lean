import LufiraOS.Fat.Durable

/-!
# Mounting

`fat_init` takes the numbers of the volume from the boot sector.  It checks what it divides by and
that something is left behind the metadata.  It does not check that a table is as long as the
number of clusters asks for, and it adds up the metadata in 32 bits.
-/

namespace Fat

open ByteStore

/-- `read_le16` and `read_le32`. -/
def readLe16 (m : Bytes) (a : Nat) : Nat := (m a).toNat + 256 * (m (a + 1)).toNat

def readLe32 (m : Bytes) (a : Nat) : Nat := readLe16 m a + 65536 * readLe16 m (a + 2)

namespace Boot

variable (m : Bytes)

/-- The fields of `fat_fs_t`, by the boot sector `m`. -/
def clusterSize : Nat := (m 13).toNat
def fatStart : Nat := readLe16 m 14
def numFats : Nat := (m 16).toNat
def totalSectors : Nat := if readLe16 m 19 = 0 then readLe32 m 32 else readLe16 m 19
def sectorsPerFat : Nat := if readLe16 m 22 = 0 then readLe32 m 36 else readLe16 m 22

/-- The sectors of the fixed root directory. -/
def rootSectors : Nat := (readLe16 m 17 * 32 + 511) / 512

/-- The sums are of 32 bits. -/
def rootDirStart : Nat := (fatStart m + numFats m * sectorsPerFat m) % 2 ^ 32
def dataStart : Nat := (rootDirStart m + rootSectors m) % 2 ^ 32
def countOfClusters : Nat := (totalSectors m - dataStart m) / clusterSize m
def maxCluster : Nat := (countOfClusters m + 2) % 2 ^ 32

def width : Width :=
  if countOfClusters m < 4085 then .fat12 else if countOfClusters m < 65525 then .fat16 else .fat32

def rootCluster : Nat := if width m = .fat32 then readLe32 m 44 else 0

/-- **The volume is sound**: a table has an entry for every cluster, tables and root lie one behind
the other before the data, and the root of FAT32 is a cluster. -/
structure Sound : Prop where
  entries : ∀ c < maxCluster m, fatOffset (width m) c + fatSpan (width m) ≤ sectorsPerFat m * 512
  regions : fatStart m + numFats m * sectorsPerFat m + rootSectors m = dataStart m
  root : width m = .fat32 → 2 ≤ rootCluster m ∧ rootCluster m < maxCluster m

/-- `load_fat32_root_chain`, its first pass, over the image of the metadata. -/
def rootChain (image : Bytes) : Nat → Nat → List Nat
  | 0, _ => []
  | n + 1, cluster =>
    if cluster < 2 then []
    else
      let next := if maxCluster m ≤ cluster then 0x0FFFFFFF
        else readLe32 image (fatStart m * 512 + cluster * 4 % 2 ^ 32) % 2 ^ 28
      if 0x0FFFFFF8 ≤ next ∨ next < 2 then [cluster] else cluster :: rootChain image n next

end Boot

open Boot

/-- What `fat_init` works with: the device's bytes, its number of sectors and which reads of how
many sectors succeed, which allocations succeed, and what lies in memory behind the image. -/
structure Device where
  bytes : Bytes
  totalSectors : Nat
  read : Nat → Nat → Bool
  mem : Nat → Bool
  behind : Bytes

/-- `load_fat32_root_chain`. -/
def loadFat32RootChain (d : Device) : Bool :=
  let m := d.bytes
  let image := fun a => if a < dataStart m * 512 then m a else d.behind a
  let chain := rootChain m image 128 (rootCluster m)
  chain ≠ [] && d.mem 3 && chain.all fun c =>
    d.read ((dataStart m + (c - 2) * clusterSize m) % 2 ^ 32) (clusterSize m)

/-- `fat_init`. -/
def fatInit (d : Device) : Except Int Unit :=
  let m := d.bytes
  if d.totalSectors = 0 ∨ d.read 0 1 = false ∨ readLe16 m 510 ≠ 0xAA55 then .error (-1)
  else if readLe16 m 11 = 0 ∨ clusterSize m = 0 ∨ numFats m = 0 ∨
    totalSectors m = 0 then .error (-1)
  else if readLe16 m 11 ≠ 512 then .error (-1)
  else if d.totalSectors < totalSectors m ∨ 128 < clusterSize m then .error (-2)
  else if sectorsPerFat m = 0 then .error (-1)
  else if dataStart m = 0 ∨ totalSectors m ≤ dataStart m then .error (-2)
  else if 16384 < dataStart m then .error (-3)
  else if d.mem 0 = false then .error (-4)
  else if d.read 0 (dataStart m) = false then .error (-5)
  else if d.mem 1 = false ∨ d.mem 2 = false then .error (-4)
  else if width m = .fat32 ∧ loadFat32RootChain d = false then .error (-5)
  else .ok ()

theorem fatOffset_mono (w : Width) {c c' : Nat} (h : c ≤ c') : fatOffset w c ≤ fatOffset w c' := by
  cases w <;> simp only [fatOffset] <;> omega

theorem rootChain_eq_nil {m image : Bytes} {n cluster : Nat} (h : cluster < 2) :
    rootChain m image n cluster = [] := by
  cases n with
  | zero => rfl
  | succ n => rw [rootChain, if_pos h]

/-- A check that was passed. -/
theorem ok_of_ite {p : Prop} [Decidable p] {e : Int} {x : Except Int Unit}
    (h : (if p then .error e else x) = .ok ()) : ¬ p ∧ x = .ok () := by
  split_ifs at h with hp
  exact ⟨hp, h⟩

/-- What a mounted volume has passed. -/
theorem of_fatInit {d : Device} (h : fatInit d = .ok ()) :
    clusterSize d.bytes ≠ 0 ∧ numFats d.bytes ≠ 0 ∧ dataStart d.bytes < totalSectors d.bytes ∧
      sectorsPerFat d.bytes ≠ 0 ∧ (width d.bytes = .fat32 → 2 ≤ rootCluster d.bytes) := by
  obtain ⟨hfields, h2⟩ := ok_of_ite (ok_of_ite h).2
  obtain ⟨hspf, h5⟩ := ok_of_ite (ok_of_ite (ok_of_ite h2).2).2
  obtain ⟨hdata, h6⟩ := ok_of_ite h5
  have h10 := (ok_of_ite (ok_of_ite (ok_of_ite (ok_of_ite h6).2).2).2).2
  simp only [not_or] at hfields hdata
  refine ⟨hfields.2.1, hfields.2.2.1, Nat.lt_of_not_le hdata.2, hspf, fun hw => ?_⟩
  by_contra hlt
  refine (ok_of_ite h10).1 ⟨hw, ?_⟩
  rw [loadFat32RootChain, rootChain_eq_nil (Nat.lt_of_not_le hlt)]
  rfl

/-- **When what is mounted is sound**: the metadata does not wrap, the entry of the last cluster is
in the table, and the root cluster of FAT32 is one of the volume. -/
theorem sound_iff_of_fatInit {d : Device} (h : fatInit d = .ok ()) : Sound d.bytes ↔
      fatStart d.bytes + numFats d.bytes * sectorsPerFat d.bytes + rootSectors d.bytes < 2 ^ 32 ∧
      fatOffset (width d.bytes) (maxCluster d.bytes - 1) + fatSpan (width d.bytes) ≤
        sectorsPerFat d.bytes * 512 ∧
      (width d.bytes = .fat32 → rootCluster d.bytes < maxCluster d.bytes) := by
  obtain ⟨-, -, -, hspf, htwo⟩ := of_fatInit h
  generalize d.bytes = m at hspf htwo
  have hstart : dataStart m = (fatStart m + numFats m * sectorsPerFat m + rootSectors m) % 2 ^ 32 :=
    Nat.mod_add_mod ..
  constructor
  · intro hs
    refine ⟨?_, ?_, fun hw => (hs.root hw).2⟩
    · rw [hs.regions, hstart]
      exact Nat.mod_lt _ (by decide)
    rcases Nat.eq_zero_or_pos (maxCluster m) with hnone | hsome
    · rw [hnone]
      have hpos := Nat.mul_le_mul_right 512 (Nat.one_le_iff_ne_zero.2 hspf)
      exact Nat.le_trans (by cases width m <;> decide) hpos
    · exact hs.entries _ (Nat.sub_lt hsome Nat.one_pos)
  rintro ⟨hwrap, hlast, hcluster⟩
  refine ⟨fun c hc => ?_, ?_, fun hw => ⟨htwo hw, hcluster hw⟩⟩
  · have hmono := fatOffset_mono (width m) (Nat.le_sub_one_of_lt hc)
    exact Nat.le_trans (Nat.add_le_add_right hmono _) hlast
  · rw [hstart, Nat.mod_eq_of_lt hwrap]

/-- A boot sector with one table of one sector, for `lo + 256 * hi` sectors. -/
def floppy (lo hi : UInt8) : Device where
  bytes a := if a = 12 then 2 else if a = 13 ∨ a = 14 ∨ a = 16 ∨ a = 22 then 1
    else if a = 19 then lo else if a = 20 then hi
    else if a = 510 then 0x55 else if a = 511 then 0xAA else 0
  totalSectors := 2000
  read _ _ := true
  mem _ := true
  behind _ := 0

/-- With 100 sectors the table is long enough. -/
theorem sound_iff_of_fatInit_floppy : Sound (floppy 100 0).bytes :=
  (sound_iff_of_fatInit (by decide +kernel)).2 (by decide +kernel)

/-- **A table may be too short**: a volume of 2000 sectors is mounted, and the entries of most of
its clusters are outside. -/
theorem not_sound_floppy : fatInit (floppy 208 7) = .ok () ∧ ¬ Sound (floppy 208 7).bytes := by
  refine ⟨by decide +kernel, fun h => ?_⟩
  exact absurd (h.entries 1999 (by decide +kernel)) (by decide +kernel)

end Fat
