import LufiraOS.Exfat.Directory

/-!
# Making and removing names

`exfat_create` puts a new set at the first entry `0x00` if the rest of its cluster is large
enough, and at the start of a new cluster otherwise.  The walk ends at the first entry `0x00`:
with too little room behind it, what lies in the new cluster is not found.  `exfat_unlink` takes
the mark of use from every entry of a set.
-/

namespace Exfat

open List hiding lookup next

/-! ### The entries of a new name -/

/-- `sec_count` for a name of this length. -/
def secCount (len : Nat) : Nat := 1 + (len + 14) / 15

/-- `need_slots`. -/
def needSlots (len : Nat) : Nat := 1 + secCount len

/-- A byte of a number. -/
def byteOf (n j : Nat) : UInt8 := UInt8.ofNat (n / 256 ^ j % 256)

/-- One turn of the sums of 16 bits. -/
def rotate (sum x : Nat) : Nat := (sum % 2 * 2 ^ 15 + sum / 2 + x) % 2 ^ 16

/-- The hash of a name. -/
def nameHash (name : List UInt8) : Nat :=
  name.foldl (fun h c => rotate (rotate h (upper c).toNat) 0) 0

/-- The entries of a new set before the sum is entered; the sizes are those of a directory, or 0. -/
def rawSlot (name : List UInt8) (isDir : Bool) (first size : Nat) : Nat → Slot
  | 0 => fun b =>
    if b = 0 then 0x85
    else if b = 1 then UInt8.ofNat (secCount name.length)
    else if b = 4 then (if isDir then 0x10 else 0x20)
    else 0
  | 1 => fun b =>
    if b = 0 then 0xC0
    else if b = 1 then 1
    else if b = 3 then UInt8.ofNat name.length
    else if b = 4 ∨ b = 5 then byteOf (nameHash name) (b - 4)
    else if 8 ≤ b ∧ b < 16 then byteOf size (b - 8)
    else if 20 ≤ b ∧ b < 24 then byteOf first (b - 20)
    else if 24 ≤ b then byteOf size (b - 24)
    else 0
  | s + 2 => fun b =>
    if b = 0 then 0xC1
    else if b % 2 = 0 then name.getD (15 * s + (b - 2) / 2) 0
    else 0

/-- `recompute_checksum`: the sum over all bytes but those that hold it. -/
def checksum (set : Nat → Slot) (secs : Nat) : Nat :=
  (List.range (32 * (1 + secs))).foldl
    (fun sum i => if i = 2 ∨ i = 3 then sum else rotate sum (set (i / 32) (i % 32)).toNat) 0

/-- The entries of a new set. -/
def newSlot (name : List UInt8) (isDir : Bool) (first size i : Nat) : Slot := fun b =>
  if i = 0 ∧ (b = 2 ∨ b = 3) then
    byteOf (checksum (rawSlot name isDir first size) (secCount name.length)) (b - 2)
  else rawSlot name isDir first size i b

namespace Dir

/-- The first entry `0x00`. -/
def firstZero (d : Dir) : Option Nat := (List.range d.total).find? fun p => d.type p == 0

/-- `find_free_run`. -/
def findFreeRun (d : Dir) (need : Nat) : Option Nat :=
  match d.firstZero with
  | some p => if p + need ≤ d.clusterEnd p then some p else none
  | none => none

/-- The directory with a cluster more, which `alloc_cluster` has cleared. -/
def extended (d : Dir) : Dir :=
  { d with slots := d.slots ++ List.replicate d.perCluster zeroSlot }

/-- A set is written at a position; what would lie behind the image is not followed. -/
def writeSet (d : Dir) (q n : Nat) (f : Nat → Slot) : Dir :=
  { d with slots := (List.range d.total).map fun p =>
      if q ≤ p ∧ p < q + n then f (p - q) else d.slot p }

/-- The last part of `exfat_create`. -/
def finish (d : Dir) (q : Nat) (name : List UInt8) (isDir : Bool) (cluster : Option Nat) :
    Option Dir :=
  if isDir then
    match cluster with
    | none => none
    | some c => some (d.writeSet q (needSlots name.length)
        (newSlot name true c (32 * d.perCluster)))
  else some (d.writeSet q (needSlots name.length) (newSlot name false 0 0))

/-- `exfat_create`; nothing for -1.  `extend`: there is a cluster for the chain of the parent, and
`cluster` is that for a new directory.  The cache has room for 256 clusters of a directory. -/
def create (d : Dir) (name : List UInt8) (isDir extend : Bool) (cluster : Option Nat) :
    Option Dir :=
  if name.length = 0 ∨ 255 < name.length then none
  else if (d.lookup name).isSome then none
  else
    match d.findFreeRun (needSlots name.length) with
    | some q => d.finish q name isDir cluster
    | none =>
      if extend = false then none
      else if 256 * d.perCluster ≤ d.total then none
      else d.extended.finish d.total name isDir cluster

/-- The mark of use is taken away. -/
def clearInUse (s : Slot) : Slot := fun b => if b = 0 then s 0 &&& 0x7F else s b

/-- `exfat_unlink`; nothing for -1.  `empty`: a directory with that name has no entries. -/
def unlink (d : Dir) (name : List UInt8) (empty : Bool) : Option Dir :=
  match d.lookup name with
  | none => none
  | some v =>
    if v.isDir && decide (2 ≤ v.firstCluster) && !empty then none
    else some { d with slots := (List.range d.total).map fun p =>
      if v.pos ≤ p ∧ p < v.pos + (1 + v.secCount) then clearInUse (d.slot p) else d.slot p }

/-- A chain of clusters of 512 bytes or more; behind the first entry `0x00` all is zero. -/
structure Tidy (d : Dir) : Prop where
  large : 16 ≤ d.perCluster
  whole : d.perCluster ∣ d.total
  tail : ∀ p q, p < q → d.type p = 0 → d.slot q = zeroSlot

/-- Where `exfat_create` puts a set of this many entries. -/
def place (d : Dir) (need : Nat) : Nat := (d.findFreeRun need).getD d.total

/-- **Room for a name**: the set is put where the walk ends, and fits into a cluster. -/
def HasRoom (d : Dir) (name : List UInt8) : Prop :=
  d.walkEnd = d.place (needSlots name.length) ∧ needSlots name.length ≤ d.perCluster

/-- The new name is found as it was asked for, and all others as they were. -/
def Created (d d' : Dir) (name : List UInt8) (isDir : Bool) : Prop :=
  (∃ v, d'.lookup name = some v ∧ v.name = name ∧ v.isDir = isDir) ∧
    ∀ m v, d.lookup m = some v → d'.lookup m = some v

/-- The name is gone, and all others are found as they were. -/
def Removed (d d' : Dir) (name : List UInt8) : Prop :=
  d'.lookup name = none ∧ ∀ m, sameName name m = false → d'.lookup m = d.lookup m

end Dir

open Dir

variable {d d' : Dir} {name : List UInt8} {isDir extend : Bool} {cluster : Option Nat} {p q : Nat}
  {f : Nat → Slot} {n : Nat} {empty : Bool}

/-! ### Slots -/

theorem slot_of_total_le (h : d.total ≤ p) : d.slot p = zeroSlot := getD_eq_default _ _ h

theorem type_of_total_le (h : d.total ≤ p) : d.type p = 0 := by
  rw [type, slot_of_total_le h]
  rfl

theorem slot_map (hp : p < d.total) :
    ({ d with slots := (List.range d.total).map f } : Dir).slot p = f p := by
  simp [slot, List.getD, hp]

theorem slot_map_of_le (hp : d.total ≤ p) :
    ({ d with slots := (List.range d.total).map f } : Dir).slot p = zeroSlot := by
  refine slot_of_total_le ?_
  simpa [total] using hp

theorem slot_extended : d.extended.slot p = d.slot p := by
  unfold slot extended
  rcases Nat.lt_or_ge p d.total with hp | hp
  · rw [getD_append _ _ _ _ hp]
  rw [getD_append_right _ _ _ _ hp, getD_eq_default d.slots _ hp]
  exact getElem?_getD_replicate_default_eq ..

theorem total_extended : d.extended.total = d.total + d.perCluster := by
  simp [extended, total]

theorem Dir.Tidy.pos (hd : d.Tidy) : 0 < d.perCluster := Nat.lt_of_lt_of_le (by decide) hd.large

theorem clusterEnd_le (hd : d.Tidy) (hp : p < d.total) : d.clusterEnd p ≤ d.total := by
  obtain ⟨n, hn⟩ := hd.whole
  have hdiv : p / d.perCluster < n := Nat.div_lt_of_lt_mul (hn ▸ hp)
  rw [clusterEnd, hn, Nat.mul_comm]
  exact Nat.mul_le_mul_left _ hdiv

theorem clusterEnd_total (hd : d.Tidy) : d.clusterEnd d.total = d.total + d.perCluster := by
  obtain ⟨n, hn⟩ := hd.whole
  rw [clusterEnd, hn, Nat.mul_div_cancel_left _ hd.pos, Nat.add_mul, Nat.one_mul, Nat.mul_comm]

theorem walkEnd_spec (hd : d.Tidy) :
    Path d 0 d.entries d.walkEnd ∧ d.walkEnd ≤ d.total ∧ d.type d.walkEnd = 0 := by
  obtain ⟨hpath, hend⟩ := d.path_end 0
  refine ⟨hpath, hpath.le_total (fun _ => clusterEnd_le hd) (Nat.zero_le _), ?_⟩
  rcases hend with h | h
  · exact type_of_total_le h
  · exact h

theorem firstZero_spec (h : d.firstZero = some q) : q < d.total ∧ d.type q = 0 := by
  unfold firstZero at h
  have hq := find?_some h
  exact ⟨mem_range.1 (mem_of_find?_eq_some h), eq_of_beq hq⟩

/-! ### What `exfat_create` writes -/

/-- The new directory: the old one, longer perhaps, with the set at the position `q`. -/
structure NewSet (d d' : Dir) (name : List UInt8) (isDir : Bool) (q : Nat) : Prop where
  length : 0 < name.length ∧ name.length ≤ 255
  fresh : d.lookup name = none
  perCluster : d'.perCluster = d.perCluster
  place : q = d.place (needSlots name.length)
  slots : ∃ first size, ∀ p, d'.slot p =
    if q ≤ p ∧ p < q + needSlots name.length ∧ p < d'.total then
      newSlot name isDir first size (p - q)
    else d.slot p
  room : (d'.total = d.total ∧ d.firstZero = some q ∧
      q + needSlots name.length ≤ d.clusterEnd q) ∨
    (d'.total = d.total + d.perCluster ∧ q = d.total)

theorem slot_writeSet : (d.writeSet q n f).slot p =
      if q ≤ p ∧ p < q + n ∧ p < d.total then f (p - q) else d.slot p := by
  unfold writeSet
  rcases Nat.lt_or_ge p d.total with hp | hp
  · rw [slot_map hp]
    by_cases hin : q ≤ p ∧ p < q + n
    · rw [if_pos hin, if_pos ⟨hin.1, hin.2, hp⟩]
    · rw [if_neg hin, if_neg fun h => hin ⟨h.1, h.2.1⟩]
  · rw [slot_map_of_le hp, if_neg (by omega), slot_of_total_le hp]

theorem total_writeSet : (d.writeSet q n f).total = d.total := by
  simp [writeSet, total]

theorem finish_spec (h : d.finish q name isDir cluster = some d') :
    ∃ first size, d' = d.writeSet q (needSlots name.length) (newSlot name isDir first size) := by
  cases isDir with
  | false => exact ⟨0, 0, (Option.some.inj h).symm⟩
  | true =>
    cases cluster with
    | none => cases h
    | some c => exact ⟨c, _, (Option.some.inj h).symm⟩

theorem newSet_of_create (h : d.create name isDir extend cluster = some d') :
    ∃ q, NewSet d d' name isDir q := by
  unfold create at h
  split at h
  · cases h
  · next hlen =>
    split at h
    · cases h
    · next hfresh =>
      have hlen' : 0 < name.length ∧ name.length ≤ 255 := by omega
      have hnone : d.lookup name = none := by simpa using hfresh
      cases hrun : d.findFreeRun (needSlots name.length) with
      | some q =>
        simp only [hrun] at h
        obtain ⟨first, size, rfl⟩ := finish_spec h
        refine ⟨q, hlen', hnone, rfl, by rw [place, hrun]; rfl, ⟨first, size, fun p => ?_⟩,
          .inl ⟨total_writeSet, ?_⟩⟩
        · rw [slot_writeSet, total_writeSet]
        · unfold findFreeRun at hrun
          cases hzero : d.firstZero with
          | none => simp [hzero] at hrun
          | some z =>
            simp only [hzero] at hrun
            split at hrun
            · next hroom =>
              cases hrun
              exact ⟨rfl, hroom⟩
            · cases hrun
      | none =>
        simp only [hrun] at h
        split at h
        · cases h
        split at h
        · cases h
        obtain ⟨first, size, rfl⟩ := finish_spec h
        refine ⟨d.total, hlen', hnone, rfl, by rw [place, hrun]; rfl,
          ⟨first, size, fun p => ?_⟩, .inr ⟨by rw [total_writeSet, total_extended], rfl⟩⟩
        rw [slot_writeSet, total_writeSet, slot_extended]

section Create

variable (h : NewSet d d' name isDir q)
include h

theorem NewSet.lt_total' (hd : d.Tidy) : q < d'.total := by
  have hpos := hd.pos
  rcases h.room with ⟨ht, hz, -⟩ | ⟨ht, hq⟩
  · rw [ht]
    exact (firstZero_spec hz).1
  · omega

theorem NewSet.slot_below (hp : p < q) : d'.slot p = d.slot p := by
  obtain ⟨first, size, hslots⟩ := h.slots
  rw [hslots, if_neg (by omega)]

theorem NewSet.type_place (hd : d.Tidy) : d'.type q = 0x85 := by
  have hlt := h.lt_total' hd
  obtain ⟨first, size, hslots⟩ := h.slots
  rw [type, hslots, if_pos ⟨Nat.le_refl _, by unfold needSlots; omega, hlt⟩, Nat.sub_self]
  rfl

/-- Where the set is put there was nothing. -/
theorem NewSet.type_old : d.type q = 0 := by
  rcases h.room with ⟨-, hz, -⟩ | ⟨-, hq⟩
  · exact (firstZero_spec hz).2
  · exact type_of_total_le (Nat.le_of_eq hq.symm)

/-- Behind its first entry the set has no further one, and then there is nothing. -/
theorem NewSet.type_behind (hd : d.Tidy) (hp : q < p) : d'.type p ≠ 0x85 := by
  obtain ⟨first, size, hslots⟩ := h.slots
  rw [type, hslots]
  split
  · obtain ⟨i, hi⟩ : ∃ i, p - q = i + 1 := ⟨p - q - 1, by omega⟩
    rw [hi]
    cases i with
    | zero => show (0xC0 : UInt8) ≠ 0x85; decide
    | succ i => show (0xC1 : UInt8) ≠ 0x85; decide
  · rw [hd.tail q p hp h.type_old]
    decide

theorem NewSet.agreeBelow (hd : d.Tidy) : AgreeBelow d d' q where
  perCluster := h.perCluster
  total := Nat.le_of_lt (h.lt_total' hd)
  slots := fun _ hp => h.slot_below hp
  stream := by rw [h.type_old]; decide
  stream' := by rw [h.type_place hd]; decide

theorem NewSet.secCount_place (hd : d.Tidy) : (d'.slot q 1).toNat = secCount name.length := by
  have hlt := h.lt_total' hd
  have hlen := h.length
  obtain ⟨first, size, hslots⟩ := h.slots
  rw [hslots, if_pos ⟨Nat.le_refl _, by unfold needSlots; omega, hlt⟩, Nat.sub_self]
  show (UInt8.ofNat (secCount name.length)).toNat = _
  rw [UInt8.toNat_ofNat']
  exact Nat.mod_eq_of_lt (by unfold secCount; omega)

/-- The set fits into its cluster if it is no longer than one. -/
theorem NewSet.fits_iff (hd : d.Tidy) :
    q + needSlots name.length ≤ d.clusterEnd q ↔ needSlots name.length ≤ d.perCluster := by
  rcases h.room with ⟨-, -, hroom⟩ | ⟨-, hq⟩
  · refine ⟨fun _ => ?_, fun _ => hroom⟩
    have hmod := Nat.div_add_mod q d.perCluster
    rw [clusterEnd, Nat.add_mul, Nat.one_mul, Nat.mul_comm] at hroom
    omega
  · rw [hq, clusterEnd_total hd]
    omega

/-- All slots of a set that fits are written. -/
theorem NewSet.slot_set (hd : d.Tidy) (hfits : needSlots name.length ≤ d.perCluster) {i : Nat}
    (hi : i < needSlots name.length) :
    ∃ first size, d'.slot (q + i) = newSlot name isDir first size i ∧ q + i < d'.total := by
  obtain ⟨first, size, hslots⟩ := h.slots
  have hlt : q + i < d'.total := by
    rcases h.room with ⟨ht, hz, hroom⟩ | ⟨ht, hq⟩
    · have hend := clusterEnd_le hd (firstZero_spec hz).1
      omega
    · omega
  refine ⟨first, size, ?_, hlt⟩
  rw [hslots, if_pos (by omega), Nat.add_sub_cancel_left]

end Create

/-! ### The name that is read back -/

/-- Entries of 15 characters each, one after the other. -/
theorem flatMap_range_fifteen {α : Type} (f : Nat → α) (n : Nat) :
    ((List.range n).flatMap fun s => (List.range 15).map fun k => f (15 * s + k)) =
      (List.range (15 * n)).map f := by
  induction n with
  | zero => rfl
  | succ n ih =>
    have hlast : List.range (n + 1) = List.range n ++ [n] := range_succ
    rw [hlast, flatMap_append, ih, Nat.mul_succ, range_add, map_append]
    simp

/-- The characters of a new entry. -/
theorem charsOf_newSlot (hname : ∀ c ∈ name, 0 < c.toNat ∧ c.toNat < 128) (first size s : Nat) :
    charsOf (newSlot name isDir first size (s + 2)) =
      (List.range 15).map fun k => (name[15 * s + k]?).getD 63 := by
  refine map_congr_left fun k hk => ?_
  have hlow : newSlot name isDir first size (s + 2) (2 + 2 * k) = name.getD (15 * s + k) 0 := by
    rw [newSlot, if_neg (by omega), rawSlot]
    dsimp only
    rw [if_neg (by omega), if_pos (by omega)]
    congr 1
    omega
  have hhigh : newSlot name isDir first size (s + 2) (2 + 2 * k + 1) = 0 := by
    rw [newSlot, if_neg (by omega), rawSlot]
    dsimp only
    rw [if_neg (by omega), if_neg (by omega)]
  have hread : rd16 (newSlot name isDir first size (s + 2)) (2 + 2 * k) =
      (name.getD (15 * s + k) 0).toNat := by
    rw [rd16, hlow, hhigh]
    rfl
  rw [hread, charOf, List.getD]
  cases hc : name[15 * s + k]? with
  | none => rfl
  | some c =>
    have hlt := hname c (mem_of_getElem? hc)
    rw [Option.getD_some, Option.getD_some, if_pos hlt]
    exact UInt8.ofNat_toNat

/-- **The name of the new set** is the name it was made for. -/
theorem NewSet.nameAt_place (h : NewSet d d' name isDir q) (hd : d.Tidy)
    (hname : ∀ c ∈ name, 0 < c.toNat ∧ c.toNat < 128)
    (hfits : needSlots name.length ≤ d.perCluster) :
    d'.nameAt q (secCount name.length) = name := by
  have hlen := h.length
  have hstream : (d'.slot (q + 1) 3).toNat = name.length := by
    obtain ⟨first, size, hslot, -⟩ := h.slot_set hd hfits (i := 1)
      (by unfold needSlots secCount; omega)
    rw [hslot]
    show (UInt8.ofNat name.length).toNat = _
    rw [UInt8.toNat_ofNat']
    exact Nat.mod_eq_of_lt (by omega)
  obtain ⟨first, size, hslots⟩ := h.slots
  have hnames : ((List.range (secCount name.length - 1)).map fun s => d'.slot (q + 2 + s)) =
      (List.range (secCount name.length - 1)).map fun s => newSlot name isDir first size
        (s + 2) := by
    refine map_congr_left fun s hs => ?_
    have hs' := mem_range.1 hs
    have hneed : s + 2 < needSlots name.length := by unfold needSlots; omega
    obtain ⟨-, -, -, hlt⟩ := h.slot_set hd hfits hneed
    rw [hslots, if_pos (by omega)]
    congr 1
    omega
  unfold nameAt
  rw [hstream, hnames, takeWhile_eq_self_iff.2]
  · rw [flatMap_map]
    simp only [charsOf_newSlot hname]
    rw [flatMap_range_fifteen fun i => (name[i]?).getD 63]
    refine ext_getElem? fun i => ?_
    rw [getElem?_take]
    by_cases hi : i < name.length
    · have hi' : i < 15 * (secCount name.length - 1) := by unfold secCount; omega
      rw [if_pos hi, getElem?_map, getElem?_range hi', getElem?_eq_getElem hi]
      simp [hi]
    · rw [if_neg hi, getElem?_eq_none (by omega)]
  intro ne hne
  obtain ⟨s, -, rfl⟩ := mem_map.1 hne
  rfl

/-! ### Room -/

theorem sameName_refl (a : List UInt8) : sameName a a = true := beq_self_eq_true _

section

variable (h : NewSet d d' name isDir q) (hd : d.Tidy)
  (hname : ∀ c ∈ name, 0 < c.toNat ∧ c.toNat < 128)

include h hd hname

theorem NewSet.visitAt_place (hfits : needSlots name.length ≤ d.perCluster) :
    d'.isSet q = true ∧ (d'.visitAt q).name = name ∧ (d'.visitAt q).isDir = isDir := by
  have hsec := h.secCount_place hd
  refine ⟨?_, ?_, ?_⟩
  · have hend : q + 1 + secCount name.length ≤ d'.clusterEnd q := by
      have hle := (h.fits_iff hd).2 hfits
      unfold clusterEnd at hle ⊢
      rw [h.perCluster]
      unfold needSlots at hle
      omega
    obtain ⟨first, size, hslot, -⟩ := h.slot_set hd hfits (i := 1)
      (by unfold needSlots secCount; omega)
    have htype : d'.type (q + 1) = 0xC0 := by
      rw [type, hslot]
      rfl
    simp only [isSet, h.type_place hd, hsec, htype, hend, beq_self_eq_true, decide_true,
      Bool.and_true]
  · show d'.nameAt q (d'.slot q 1).toNat = name
    rw [hsec]
    exact h.nameAt_place hd hname hfits
  obtain ⟨first, size, hslot, -⟩ := h.slot_set hd hfits (i := 0) (by unfold needSlots; omega)
  have hslot' : d'.slot q = newSlot name isDir first size 0 := hslot
  show (rd16 (d'.slot q) 4).testBit 4 = isDir
  have hattrs : rd16 (d'.slot q) 4 = if isDir then 0x10 else 0x20 := by
    rw [hslot']
    cases isDir <;> simp [rd16, newSlot, rawSlot]
  rw [hattrs]
  cases isDir <;> rfl

/-- With room the new set follows those that were found. -/
theorem NewSet.entries_of_room (hend : d.walkEnd = q)
    (hfits : needSlots name.length ≤ d.perCluster) :
    ∃ rest, d'.entries = d.entries ++ d'.visitAt q :: rest := by
  have hpath := (walkEnd_spec hd).1
  rw [hend] at hpath
  have hwalk := (Path.of_agreeBelow (h.agreeBelow hd) hpath).walkFrom
  have hset := (h.visitAt_place hd hname hfits).1
  have hstep := Dir.walkFrom_step (h.lt_total' hd) (by rw [h.type_place hd]; decide)
  refine ⟨(d'.walkFrom (d'.next q)).1, ?_⟩
  rw [Dir.entries, hwalk, hstep, visits, if_pos hset]
  rfl

end

/-- Without sets the walk finds nothing. -/
theorem walkFrom_nil (hnone : ∀ p, q ≤ p → d.isSet p = false) : (d.walkFrom q).1 = [] := by
  obtain ⟨hpath, -⟩ := d.path_end q
  generalize (d.walkFrom q).1 = vs at hpath
  generalize (d.walkFrom q).2 = e at hpath
  induction hpath with
  | nil p => rfl
  | @step p e vs hp hzero hrest ih =>
    have hlt := d.lt_next p
    rw [visits, hnone p (Nat.le_refl _), ih fun p' hp' => hnone p' (by omega)]
    rfl

theorem isSet_of_type (h : d.type p ≠ 0x85) : d.isSet p = false := by
  simp [isSet, h]

/-- A name ends at the first entry that is none of it, whatever comes then. -/
theorem takeWhile_map_range_congr {α : Type} (P : α → Bool) (f g : Nat → α) (n m : Nat)
    (h : ∀ s < m, f s = g s) (hf : P (f m) = false) (hg : P (g m) = false) :
    ((List.range n).map f).takeWhile P = ((List.range n).map g).takeWhile P := by
  induction n generalizing f g m with
  | zero => rfl
  | succ n ih =>
    rw [range_succ_eq_map, map_cons, map_cons, map_map, map_map]
    cases m with
    | zero => rw [takeWhile_cons_of_neg (by simp [hf]), takeWhile_cons_of_neg (by simp [hg])]
    | succ m =>
      have hrest := ih (f ∘ Nat.succ) (g ∘ Nat.succ) m (fun s hs => h (s + 1) (by omega)) hf hg
      rw [takeWhile_cons, takeWhile_cons, hrest, h 0 (by omega)]

section

variable (h : NewSet d d' name isDir q) (hd : d.Tidy)

include h hd

/-- A set that reaches over the place of the new one is read as before. -/
theorem NewSet.visits_over (hp : p < q) (hover : q < d.next p) : d'.visits p = d.visits p := by
  have hagree := h.agreeBelow hd
  have hset : d.isSet p = true := by
    by_contra hno
    rw [next, if_neg hno] at hover
    omega
  have hstream : p + 1 < q := by
    rcases Nat.lt_or_ge (p + 1) q with hlt | hge
    · exact hlt
    have heq : p + 1 = q := by omega
    simp only [isSet, Bool.and_eq_true, beq_iff_eq] at hset
    rw [heq, h.type_old] at hset
    exact absurd hset.2 (by decide)
  have hq : p + 2 + (q - (p + 2)) = q := by omega
  have hnames := takeWhile_map_range_congr (fun ne : Slot => ne 0 == 0xC1)
    (fun s => d'.slot (p + 2 + s)) (fun s => d.slot (p + 2 + s)) ((d.slot p 1).toNat - 1)
    (q - (p + 2)) (fun s hs => h.slot_below (by omega))
    (beq_false_of_ne (by rw [hq, ← Dir.type, h.type_place hd]; decide))
    (beq_false_of_ne (by rw [hq, ← Dir.type, h.type_old]; decide))
  rw [visits, visits, hagree.isSet hp, if_pos hset, if_pos hset]
  simp only [visitAt, nameAt, h.slot_below hp, h.slot_below hstream, hnames]

/-- If a set reaches over the place of the new one, the walk finds what it found. -/
theorem NewSet.entries_over (hover : q < d.walkEnd) : d'.entries = d.entries := by
  have hbehind : ∀ p, q < p → (d'.walkFrom p).1 = [] := fun p hp =>
    walkFrom_nil fun p' hp' => isSet_of_type (h.type_behind hd (by omega))
  have hagree := h.agreeBelow hd
  have hold := h.type_old
  obtain ⟨hpath, -, -⟩ := walkEnd_spec hd
  have hstart : 0 < q := by
    rcases Nat.eq_zero_or_pos q with hzero | hpos
    · rw [hzero] at hold
      have hend : d.walkEnd = 0 := by rw [walkEnd, Dir.walkFrom_end (.inr hold)]
      omega
    · exact hpos
  suffices hall : ∀ p vs e, Path d p vs e → p < q → q < e → (d'.walkFrom p).1 = vs from
    hall 0 d.entries d.walkEnd hpath hstart hover
  intro p vs e hpath
  induction hpath with
  | nil p => intro hp he; omega
  | @step p e vs hp hzero hrest ih =>
    intro hpq he
    have hstep := Dir.walkFrom_step (d := d') (Nat.lt_of_lt_of_le hpq hagree.total)
      (by rw [type, h.slot_below hpq]; exact hzero)
    rw [hstep, hagree.next hpq]
    rcases Nat.lt_trichotomy (d.next p) q with hlt | heq | hgt
    · rw [hagree.visits (Nat.le_of_lt hlt), ih hlt he]
    · -- the walk would end at the place itself
      rw [heq] at hrest
      cases hrest with
      | nil => omega
      | step _ hne _ => exact absurd hold hne
    have hnil : vs = [] := by
      cases hrest with
      | nil => rfl
      | step _ hne _ =>
        rw [type, hd.tail q _ hgt hold] at hne
        exact absurd rfl hne
    rw [h.visits_over hd hpq hgt, hbehind _ hgt, hnil]

/-- Without room the new name is not found. -/
theorem NewSet.lookup_of_no_room
    (hroom : ¬ (d.walkEnd = q ∧ needSlots name.length ≤ d.perCluster)) :
    d'.lookup name = none := by
  have hsame : d'.entries = d.entries := by
    obtain ⟨hpath, hle, hzero⟩ := walkEnd_spec hd
    rcases Nat.lt_trichotomy d.walkEnd q with hlt | heq | hgt
    · -- the walk ends before the new set
      have hsame : d'.slot d.walkEnd = d.slot d.walkEnd := h.slot_below hlt
      have hzero' : d'.type d.walkEnd = 0 := by rw [type, hsame]; exact hzero
      have hagree : AgreeBelow d d' d.walkEnd :=
        ⟨h.perCluster, by have := (h.agreeBelow hd).total; omega,
          fun p hp => h.slot_below (by omega), by rw [hzero]; decide, by rw [hzero']; decide⟩
      have hwalk := (Path.of_agreeBelow hagree hpath).walkFrom
      rw [Dir.walkFrom_end (.inr hzero'), append_nil] at hwalk
      rw [Dir.entries, hwalk]
    · -- the set is longer than a cluster
      have hlong : ¬ needSlots name.length ≤ d.perCluster := fun hfits => hroom ⟨heq, hfits⟩
      rw [heq] at hpath
      have hwalk := (Path.of_agreeBelow (h.agreeBelow hd) hpath).walkFrom
      have hnone : (d'.walkFrom q).1 = [] := by
        refine walkFrom_nil fun p hp => ?_
        rcases Nat.eq_or_lt_of_le hp with rfl | hlt
        · have hend : ¬ q + 1 + secCount name.length ≤ d'.clusterEnd q := by
            have hle : ¬ q + needSlots name.length ≤ d.clusterEnd q := fun hle =>
              hlong ((h.fits_iff hd).1 hle)
            unfold clusterEnd at hle ⊢
            rw [h.perCluster]
            unfold needSlots at hle
            omega
          simp only [isSet, h.secCount_place hd, hend, decide_false, Bool.and_false, Bool.false_and]
        · exact isSet_of_type (h.type_behind hd hlt)
      rw [Dir.entries, hwalk, hnone, append_nil]
    · exact h.entries_over hd hgt
  rw [lookup, hsame]
  exact h.fresh

end

/-- **A new name**: it is found, and all others as before, if and only if there is room for it. -/
theorem created_iff (hd : d.Tidy) (hname : ∀ c ∈ name, 0 < c.toNat ∧ c.toNat < 128)
    (hcreate : d.create name isDir extend cluster = some d') :
    Created d d' name isDir ↔ d.HasRoom name := by
  obtain ⟨q, h⟩ := newSet_of_create hcreate
  rw [HasRoom, ← h.place]
  constructor
  · rintro ⟨⟨v, hv, -⟩, -⟩
    by_contra hroom
    rw [h.lookup_of_no_room hd hroom] at hv
    cases hv
  rintro ⟨hend, hfits⟩
  obtain ⟨rest, hentries⟩ := h.entries_of_room hd hname hend hfits
  obtain ⟨-, hvname, hvdir⟩ := h.visitAt_place hd hname hfits
  refine ⟨⟨d'.visitAt q, ?_, hvname, hvdir⟩, fun m v hm => ?_⟩
  · have hfresh := h.fresh
    unfold lookup at hfresh ⊢
    rw [hentries, find?_append, hfresh, Option.none_or,
      find?_cons_of_pos (p := fun v : Visit => sameName name v.name)
        (by rw [hvname]; exact sameName_refl name)]
  · unfold lookup at hm ⊢
    rw [hentries, find?_append, hm, Option.some_or]

/-! ### Removing a name -/

/-- The sets that the walk meets behind a set. -/
def Dir.behind (d : Dir) (v : Visit) : List Visit := (d.walkFrom (d.next v.pos)).1

/-- An entry of the set looks like the end of the directory once its mark of use is gone. -/
def Dir.Cuts (d : Dir) (v : Visit) : Prop :=
  ∃ p, v.pos ≤ p ∧ p < v.pos + (1 + v.secCount) ∧ d.type p = 0x80

/-- **The name can be removed alone**: no other set has it, and no entry of its set ends the
directory.  If one does, no set behind it has a name that is not found before. -/
def Dir.Removable (d : Dir) (name : List UInt8) : Prop :=
  ∀ v, d.lookup name = some v →
    (¬ d.Cuts v → ∀ w ∈ d.behind v, sameName name w.name = false) ∧
      (d.Cuts v → ∀ w ∈ d.behind v, sameName name w.name = true ∨
        ∃ x ∈ d.entries, x.pos < v.pos ∧ sameName w.name x.name = true)

theorem sameName_iff {a b : List UInt8} : sameName a b = true ↔ a.map upper = b.map upper :=
  beq_iff_eq

theorem Path.pos_bounds {vs : List Visit} (h : Path d p vs q) :
    ∀ w ∈ vs, p ≤ w.pos ∧ w.pos < q := by
  induction h with
  | nil p => intro w hw; cases hw
  | @step p q vs hp hzero hrest ih =>
    intro w hw
    have hlt := d.lt_next p
    have hle := hrest.le
    rcases mem_append.1 hw with hw | hw
    · unfold visits at hw
      split at hw
      · rw [mem_singleton] at hw
        rw [hw]
        exact ⟨Nat.le_refl _, by show p < q; omega⟩
      · cases hw
    · have := ih w hw
      omega

theorem toNat_clear (b : UInt8) : (b &&& 0x7F).toNat = b.toNat % 128 := by
  rw [UInt8.toNat_and]
  exact Nat.and_two_pow_sub_one_eq_mod b.toNat 7

theorem clear_ne (b : UInt8) : b &&& 0x7F ≠ 0x85 := by
  intro h
  have hmod := toNat_clear b
  rw [h, show (0x85 : UInt8).toNat = 133 from rfl] at hmod
  omega

theorem clear_eq_zero (b : UInt8) : b &&& 0x7F = 0 ↔ b = 0 ∨ b = 0x80 := by
  have hlt := b.toNat_lt
  rw [← UInt8.toNat_inj, ← UInt8.toNat_inj, ← UInt8.toNat_inj, toNat_clear]
  show b.toNat % 128 = 0 ↔ b.toNat = 0 ∨ b.toNat = 128
  omega

/-- The walk looks at what lies before it only. -/
theorem walkFrom_congr_above (hper : d'.perCluster = d.perCluster) (htotal : d'.total = d.total)
    (hslots : ∀ j, p ≤ j → d'.slot j = d.slot j) : d'.walkFrom p = d.walkFrom p := by
  unfold walkFrom
  rw [htotal]
  generalize d.total - p = turns
  induction turns generalizing p with
  | zero => rfl
  | succ turns ih =>
    have htype : d'.type p = d.type p := by rw [type, hslots p (Nat.le_refl _), type]
    have htype' : d'.type (p + 1) = d.type (p + 1) := by rw [type, hslots (p + 1) (by omega), type]
    have hend : d'.clusterEnd p = d.clusterEnd p := by rw [clusterEnd, hper, clusterEnd]
    have hset : d'.isSet p = d.isSet p := by
      unfold isSet
      rw [htype, htype', hend, hslots p (Nat.le_refl _)]
    have hnames : ∀ n, ((List.range n).map fun s => d'.slot (p + 2 + s)) =
        (List.range n).map fun s => d.slot (p + 2 + s) := fun n =>
      map_congr_left fun s _ => hslots _ (by omega)
    have hvisits : d'.visits p = d.visits p := by
      simp only [visits, hset, visitAt, nameAt, hslots p (Nat.le_refl _),
        hslots (p + 1) (by omega), hnames]
    have hnext : d'.next p = d.next p := by
      simp only [next, hset, hslots p (Nat.le_refl _)]
    have hlt := d.lt_next p
    rw [walkLoop, walkLoop, htotal, htype, hnext, hvisits, ih fun j hj => hslots j (by omega)]

/-- Over the entries that were cleared the walk goes one by one. -/
theorem walkFrom_cleared {e : Nat} (hper : d'.perCluster = d.perCluster)
    (htotal : d'.total = d.total) (he : e ≤ d.total)
    (hcleared : ∀ j, q ≤ j → j < e → d'.type j = d.type j &&& 0x7F)
    (hslots : ∀ j, e ≤ j → d'.slot j = d.slot j) (hp : q ≤ p) (hpe : p ≤ e) :
    ((∃ j, p ≤ j ∧ j < e ∧ d'.type j = 0) → (d'.walkFrom p).1 = []) ∧
      ((¬ ∃ j, p ≤ j ∧ j < e ∧ d'.type j = 0) → (d'.walkFrom p).1 = (d.walkFrom e).1) := by
  induction hn : e - p generalizing p with
  | zero =>
    have hpe' : p = e := by omega
    constructor
    · rintro ⟨j, hj, hj', -⟩
      omega
    · intro _
      rw [hpe', walkFrom_congr_above hper htotal hslots]
  | succ n ih =>
    by_cases hzero : d'.type p = 0
    · exact ⟨fun _ => by rw [Dir.walkFrom_end (.inr hzero)],
        fun hno => absurd ⟨p, Nat.le_refl _, by omega, hzero⟩ hno⟩
    have hset : d'.isSet p = false := isSet_of_type (by
      rw [hcleared p hp (by omega)]
      exact clear_ne _)
    have hstep := Dir.walkFrom_step (d := d') (p := p) (by omega) hzero
    have hnext : d'.next p = p + 1 := by rw [next, hset]; rfl
    have hvisits : d'.visits p = [] := by rw [visits, hset]; rfl
    rw [hstep, hnext, hvisits]
    obtain ⟨hcut, hrest⟩ := ih (p := p + 1) (by omega) (by omega) (by omega)
    constructor
    · rintro ⟨j, hj, hj', hz⟩
      have hne : j ≠ p := fun h => hzero (h ▸ hz)
      exact hcut ⟨j, by omega, hj', hz⟩
    intro hno
    refine hrest ?_
    rintro ⟨j, hj, hj', hz⟩
    exact hno ⟨j, by omega, hj', hz⟩

theorem type_of_isSet (h : d.isSet p = true) : d.type p = 0x85 := by
  simp only [isSet, Bool.and_eq_true, beq_iff_eq] at h
  exact h.1.1

/-- What `exfat_unlink` writes: the entries of the set are not in use. -/
theorem slot_unlink {v : Visit} (hv : d.lookup name = some v)
    (hend : v.pos + (1 + v.secCount) ≤ d.total) (hunlink : d.unlink name empty = some d') :
    d'.perCluster = d.perCluster ∧ d'.total = d.total ∧
      ∀ p, d'.slot p = if v.pos ≤ p ∧ p < v.pos + (1 + v.secCount) then clearInUse (d.slot p)
        else d.slot p := by
  unfold unlink at hunlink
  simp only [hv] at hunlink
  split at hunlink
  · cases hunlink
  have hd' := Option.some.inj hunlink
  refine ⟨by rw [← hd'], by rw [← hd']; simp [total], fun p => ?_⟩
  rw [← hd']
  rcases Nat.lt_or_ge p d.total with hp | hp
  · rw [slot_map hp]
  · rw [slot_map_of_le hp, if_neg (by omega), slot_of_total_le hp]

/-- **What is left after `exfat_unlink`**: the sets before the one removed, and those behind it
unless an entry of it now ends the directory. -/
theorem entries_unlink (hd : d.Tidy) {v : Visit} (hv : d.lookup name = some v)
    (hunlink : d.unlink name empty = some d') :
    ∃ pre, d.entries = pre ++ v :: d.behind v ∧ (∀ w ∈ pre, sameName name w.name = false) ∧
      sameName name v.name = true ∧
      (∀ x, x ∈ d.entries ∧ x.pos < v.pos ↔ x ∈ pre) ∧
      (d.Cuts v → d'.entries = pre) ∧ (¬ d.Cuts v → d'.entries = pre ++ d.behind v) := by
  obtain ⟨pre, hpath, hlt, hset, hvisit, hsame, hpre, hentries⟩ := Dir.lookup_split hv
  have hsec : v.secCount = (d.slot v.pos 1).toNat := congrArg Visit.secCount hvisit
  have hnext : d.next v.pos = v.pos + (1 + v.secCount) := by
    rw [next, if_pos hset, hsec]
    omega
  have hend : v.pos + (1 + v.secCount) ≤ d.total := by
    have hstep := Path.step hlt (by rw [type_of_isSet hset]; decide) (.nil (d.next v.pos))
    rw [← hnext]
    exact hstep.le_total (fun _ => clusterEnd_le hd) (Nat.le_of_lt hlt)
  have htype := type_of_isSet hset
  obtain ⟨hper, htotal, hslot⟩ := slot_unlink hv hend hunlink
  have hcleared : ∀ j, v.pos ≤ j → j < v.pos + (1 + v.secCount) →
      d'.type j = d.type j &&& 0x7F := by
    intro j hj hj'
    rw [type, hslot, if_pos ⟨hj, hj'⟩]
    rfl
  have hagree : AgreeBelow d d' v.pos := by
    refine ⟨hper, by omega, fun p hp => ?_, by rw [htype]; decide, ?_⟩
    · rw [hslot, if_neg (by omega)]
    · rw [hcleared _ (Nat.le_refl _) (by omega), htype]
      decide
  have hwalk := (Path.of_agreeBelow hagree hpath).walkFrom
  obtain ⟨hcut, hrest⟩ := walkFrom_cleared hper htotal hend hcleared
    (fun j hj => by rw [hslot, if_neg (by omega)]) (Nat.le_refl v.pos) (by omega)
  have hzero : ∀ j, v.pos ≤ j → j < v.pos + (1 + v.secCount) →
      (d'.type j = 0 ↔ d.type j = 0 ∨ d.type j = 0x80) := by
    intro j hj hj'
    rw [hcleared j hj hj']
    exact clear_eq_zero _
  refine ⟨pre, hentries, hpre, hsame, fun x => ⟨?_, fun hx => ?_⟩, fun hcuts => ?_, fun hcuts => ?_⟩
  · rintro ⟨hx, hpos⟩
    rw [hentries, mem_append, mem_cons] at hx
    rcases hx with hx | rfl | hx
    · exact hx
    · omega
    · have := ((d.path_end (d.next v.pos)).1.pos_bounds x hx).1
      omega
  · exact ⟨by rw [hentries]; exact mem_append_left _ hx, (hpath.pos_bounds x hx).2⟩
  · obtain ⟨j, hj, hj', htype'⟩ := hcuts
    rw [Dir.entries, hwalk, hcut ⟨j, hj, hj', (hzero j hj hj').2 (.inr htype')⟩, append_nil]
  rw [Dir.entries, hwalk]
  by_cases hany : ∃ j, v.pos ≤ j ∧ j < v.pos + (1 + v.secCount) ∧ d'.type j = 0
  · -- then the directory ended in this set before
    obtain ⟨j, hj, hj', hz⟩ := hany
    have hz' : d.type j = 0 := by
      rcases (hzero j hj hj').1 hz with h | h
      · exact h
      · exact absurd ⟨j, hj, hj', h⟩ hcuts
    have hnil : d.behind v = [] := by
      have hnextZero : d.type (d.next v.pos) = 0 := by
        rw [type, hd.tail j _ (by omega) hz']
        rfl
      rw [behind, Dir.walkFrom_end (.inr hnextZero)]
    rw [hcut ⟨j, hj, hj', hz⟩, hnil]
  · rw [hrest hany, behind, hnext]

/-- **A name that is removed**: it is gone, and all others are as before, if and only if it can be
removed alone. -/
theorem removed_iff (hd : d.Tidy) (hunlink : d.unlink name empty = some d') :
    Removed d d' name ↔ d.Removable name := by
  cases hv : d.lookup name with
  | none => simp [unlink, hv] at hunlink
  | some v =>
    obtain ⟨pre, hentries, hpre, hsame, hbefore, hcut, hrest⟩ := entries_unlink hd hv hunlink
    have hv' : ∀ m, sameName name m = false → sameName m v.name = false := by
      intro m hm
      rw [Bool.eq_false_iff] at hm ⊢
      intro hmv
      exact hm (sameName_iff.2 ((sameName_iff.1 hsame).trans (sameName_iff.1 hmv).symm))
    have hfindPre : pre.find? (fun w => sameName name w.name) = none :=
      find?_eq_none.2 fun w hw => by simp [hpre w hw]
    by_cases hcuts : d.Cuts v
    · constructor
      · rintro ⟨-, hothers⟩ v₁ hv₁
        rw [hv] at hv₁
        cases hv₁
        refine ⟨fun h => absurd hcuts h, fun _ w hw => ?_⟩
        by_cases hw' : sameName name w.name = true
        · exact .inl hw'
        right
        have heq := hothers w.name (Bool.eq_false_iff.2 hw')
        unfold lookup at heq
        rw [hcut hcuts] at heq
        have hsome : (d.entries.find? fun x => sameName w.name x.name).isSome = true := by
          rw [find?_isSome]
          exact ⟨w, by rw [hentries]; simp [hw], sameName_refl _⟩
        rw [← heq, find?_isSome] at hsome
        obtain ⟨x, hx, hxw⟩ := hsome
        exact ⟨x, ((hbefore x).2 hx).1, ((hbefore x).2 hx).2, hxw⟩
      intro hremovable
      have hbehind := (hremovable v hv).2 hcuts
      refine ⟨by rw [lookup, hcut hcuts, hfindPre], fun m hm => ?_⟩
      unfold lookup
      rw [hcut hcuts, hentries, find?_append]
      cases hfind : pre.find? (fun w => sameName m w.name) with
      | some x => rfl
      | none =>
        rw [Option.none_or]
        symm
        rw [find?_eq_none] at hfind ⊢
        intro w hw hmw
        rcases mem_cons.1 hw with rfl | hw
        · rw [hv' m hm] at hmw
          cases hmw
        rcases hbehind w hw with hnw | ⟨x, hx, hpos, hwx⟩
        · rw [Bool.eq_false_iff] at hm
          exact hm (sameName_iff.2 ((sameName_iff.1 hnw).trans (sameName_iff.1 hmw).symm))
        · exact hfind x ((hbefore x).1 ⟨hx, hpos⟩)
            (sameName_iff.2 ((sameName_iff.1 hmw).trans (sameName_iff.1 hwx)))
    constructor
    · rintro ⟨hgone, -⟩ v₁ hv₁
      rw [hv] at hv₁
      cases hv₁
      refine ⟨fun _ w hw => ?_, fun h => absurd h hcuts⟩
      rw [lookup, hrest hcuts, find?_eq_none] at hgone
      exact Bool.eq_false_iff.2 (hgone w (mem_append_right _ hw))
    intro hremovable
    have hbehind := (hremovable v hv).1 hcuts
    refine ⟨?_, fun m hm => ?_⟩
    · rw [lookup, hrest hcuts, find?_append, hfindPre, Option.none_or, find?_eq_none]
      exact fun w hw => by simp [hbehind w hw]
    unfold lookup
    rw [hrest hcuts, hentries, find?_append, find?_append,
      find?_cons_of_neg (p := fun w : Visit => sameName m w.name) (by simp [hv' m hm])]

/-- A root of one cluster of 512 bytes with 12 entries for files: the bitmap, the table of upper
case and what is given. -/
def smallRoot (files : List Slot) : Dir where
  perCluster := 16
  slots := (fun b => if b = 0 then 0x81 else 0) :: (fun b => if b = 0 then 0x82 else 0) ::
    (files ++ List.replicate (14 - files.length) zeroSlot)

/-- The entries of an empty file with a name of one letter. -/
def emptyFile (c : UInt8) : List Slot := (List.range 3).map (newSlot [c] false 0 0)

/-- The root with the files `A` to `D`. -/
def fullRoot : Dir := smallRoot (emptyFile 65 ++ emptyFile 66 ++ emptyFile 67 ++ emptyFile 68)

theorem tidy_of_used (hlarge : 16 ≤ d.perCluster) (hwhole : d.perCluster ∣ d.total)
    (hused : ∀ p < n, d.type p ≠ 0) (hfree : ∀ p < d.total, n ≤ p → d.slot p = zeroSlot) :
    d.Tidy := by
  refine ⟨hlarge, hwhole, fun p q hpq hp => ?_⟩
  rcases Nat.lt_or_ge q d.total with hq | hq
  · rcases Nat.lt_or_ge p n with hn | hn
    · exact absurd hp (hused p hn)
    · exact hfree q hq (by omega)
  · exact slot_of_total_le hq

theorem fullRoot_tidy : fullRoot.Tidy := by
  refine tidy_of_used (n := 14) (by decide) (by decide) (by decide +kernel) fun p hp hn => ?_
  have hp' : p = 14 ∨ p = 15 := by
    have : fullRoot.total = 16 := rfl
    omega
  rcases hp' with rfl | rfl <;> rfl

/-- The root with the files `A` and `B`. -/
def twoFiles : Dir := smallRoot (emptyFile 65 ++ emptyFile 66)

theorem twoFiles_tidy : twoFiles.Tidy := by
  refine tidy_of_used (n := 8) (by decide) (by decide) (by decide +kernel) fun p hp hn => ?_
  obtain ⟨i, rfl⟩ : ∃ i, p = i + 8 := ⟨p - 8, by omega⟩
  exact getElem?_getD_replicate_default_eq ..

/-- No entry of the set of `A` looks like the end, and no set behind it has the name. -/
theorem twoFiles_removable : twoFiles.Removable [65] := by
  intro v hv
  have hpos : (twoFiles.lookup [65]).map (fun v => (v.pos, v.secCount)) = some (2, 2) := by
    decide +kernel
  have hbehind : ∀ w ∈ (twoFiles.walkFrom 5).1, sameName [65] w.name = false := by decide +kernel
  have hnext : twoFiles.next 2 = 5 := by decide +kernel
  have htype : ∀ p < 5, 2 ≤ p → twoFiles.type p ≠ 0x80 := by decide +kernel
  rw [hv, Option.map_some, Option.some.injEq, Prod.mk.injEq] at hpos
  refine ⟨fun _ w hw => ?_, fun ⟨p, hlo, hhi, hp⟩ => absurd hp (htype p (by omega) (by omega))⟩
  rw [behind, hpos.1, hnext] at hw
  exact hbehind w hw

end Exfat
