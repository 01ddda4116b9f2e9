import LufiraOS.Fat.Durable

/-!
# Entries of the table

`get_fat_entry` and `set_fat_entry` on the bytes of the image.  Two entries of 12 bits share a
byte, of which each store keeps the half that is not its own.
-/

namespace Fat

open ByteStore

variable {w : Width} {m m' : Bytes} {base c value a x spf : Nat}

/-- The entry of a cluster in the table at `base`. -/
def rawFat (w : Width) (m : Bytes) (base cluster : Nat) : Nat :=
  let o := base + fatOffset w cluster
  let word := (m o).toNat + 256 * (m (o + 1)).toNat
  match w with
  | .fat12 => if cluster % 2 = 1 then word / 16 else word % 4096
  | .fat16 => word
  | .fat32 => word + 65536 * ((m (o + 2)).toNat + 256 * (m (o + 3)).toNat)

/-- The values of an entry. -/
def entryValues : Width → Nat
  | .fat12 => 2 ^ 12
  | .fat16 => 2 ^ 16
  | .fat32 => 2 ^ 28

namespace Vol

/-- Where a copy of the table begins. -/
def table (v : Vol) (j : Nat) : Nat := (v.layout.fatStart + j * v.layout.sectorsPerFat) * 512

/-- `get_fat_entry`, which reads the first copy. -/
def getFatEntry (v : Vol) (cluster : Nat) : Nat :=
  if v.fs.InRange cluster then readAs v.fs.width (rawFat v.fs.width v.image (v.table 0) cluster)
  else 0x0FFFFFFF

/-- `set_fat_entry`. -/
def setFatEntry (v : Vol) (cluster value : Nat) : Vol :=
  if v.fs.InRange cluster then v.apply (.fat cluster value) else v

/-- The copies of the table are in the image, and each holds an entry for every cluster. -/
structure Holds (v : Vol) : Prop where
  entries : ∀ c, v.fs.InRange c →
    fatOffset v.fs.width c + fatSpan v.fs.width ≤ v.layout.sectorsPerFat * 512
  some : 0 < v.layout.numFats
  inside : v.layout.fatStart + v.layout.numFats * v.layout.sectorsPerFat ≤ v.layout.dataStart

/-- What `set_fat_entry` is for.  The marks of FAT12 for the end are read back with all upper bits.
-/
structure Sets (v v' : Vol) (c value : Nat) : Prop where
  own : (v.fs.width = .fat12 → value < 0xFF8) → v'.getFatEntry c = value
  eoc : v.fs.isEoc value = true → v.fs.isEoc (v'.getFatEntry c) = true
  other : ∀ x, x ≠ c → v'.getFatEntry x = v.getFatEntry x
  copies : ∀ j < v.layout.numFats, rawFat v.fs.width v'.image (v.table j) c = value
  dirty : ∀ a < v.table 1, v'.image a ≠ v.image a → v'.dirty (a / 512) = true

end Vol

/-- A byte of which the upper, or the lower, half is replaced. -/
theorem toNat_halves (b : UInt8) {n : Nat} (h : n < 16) :
    ((b &&& 0x0F) ||| UInt8.ofNat (n * 16)).toNat = b.toNat % 16 + n * 16 ∧
      ((b &&& 0xF0) ||| UInt8.ofNat n).toNat = b.toNat / 16 * 16 + n := by
  have hall : ∀ k < 256, ∀ n < 16,
      ((UInt8.ofNat k &&& 0x0F) ||| UInt8.ofNat (n * 16)).toNat = k % 16 + n * 16 ∧
        ((UInt8.ofNat k &&& 0xF0) ||| UInt8.ofNat n).toNat = k / 16 * 16 + n := by decide +kernel
  simpa using hall b.toNat b.toNat_lt n h

/-- An entry depends on its bytes. -/
theorem rawFat_congr (h : ∀ k < fatSpan w,
      m (base + fatOffset w c + k) = m' (base + fatOffset w c + k)) :
    rawFat w m base c = rawFat w m' base c := by
  have hfirst : m (base + fatOffset w c) = m' (base + fatOffset w c) := h 0 (by cases w <;> decide)
  cases w with
  | fat32 => simp only [rawFat, hfirst, h 1 (by decide), h 2 (by decide), h 3 (by decide)]
  | _ => simp only [rawFat, hfirst, h 1 (by decide)]

/-- The bytes after the store of an entry of 12 bits. -/
theorem toNat_putFat12 (a : Nat) : (putFat .fat12 m base c value a).toNat =
      if a = base + (c + c / 2) + 1 then
        if c % 2 = 1 then value / 16 % 256 else (m a).toNat / 16 * 16 + value / 256 % 16
      else if a = base + (c + c / 2) then
        if c % 2 = 1 then (m a).toNat % 16 + value % 16 * 16 else value % 256
      else (m a).toNat := by
  have hlow := (toNat_halves (m (base + (c + c / 2))) (Nat.mod_lt value (by decide : 0 < 16))).1
  have hhigh := (toNat_halves (m (base + (c + c / 2) + 1)) (by omega : value / 256 % 16 < 16)).2
  simp only [putFat, putByte, fatOffset]
  split
  · simp only [Function.update_apply]
    split_ifs with h1 h2
    · exact UInt8.toNat_ofNat'
    · rw [hlow, h2]
    · rfl
  simp only [Function.update_apply]
  split_ifs with h1 h2 h3
  · omega
  · rw [hhigh, h1]
  · exact UInt8.toNat_ofNat'
  · rfl

/-- The bits of an entry keep all of a value of its width. -/
theorem stored_of_lt (hv : value < entryValues w) : Fs.stored w value = value := by
  cases w <;> simp only [entryValues, Fs.stored] at hv ⊢ <;> omega

/-- **One store into one table**: the bits that the entry keeps are read back, and no other entry is
changed. -/
theorem rawFat_putFat : rawFat w (putFat w m base c value) base x =
    if x = c then Fs.stored w value else rawFat w m base x := by
  have hother : fatOffset w x + fatSpan w ≤ fatOffset w c ∨
      fatOffset w c + fatSpan w ≤ fatOffset w x →
      rawFat w (putFat w m base c value) base x = rawFat w m base x :=
    fun h => rawFat_congr fun k hk => putFat_outside (by omega)
  cases w with
  | fat12 =>
    -- two entries share a byte
    simp only [rawFat, toNat_putFat12, fatOffset, Fs.stored]
    split_ifs <;> omega
  | _ =>
    split_ifs with h
    · subst h
      simp [rawFat, putFat, putByte, Fs.stored]
      omega
    · exact hother (by simp only [fatOffset, fatSpan]; omega)

/-- Nothing is stored before the first table. -/
theorem putFats_before {n start : Nat} (h : a < start * 512) :
    putFats w spf c value n start m a = m a := by
  induction n generalizing start m with
  | zero => rfl
  | succ n ih =>
    have hlater := Nat.lt_of_lt_of_le h (Nat.mul_le_mul_right 512 (Nat.le_add_right start spf))
    exact (ih hlater).trans (putFat_outside (.inl (Nat.lt_of_lt_of_le h (Nat.le_add_right ..))))

/-- Nothing is stored behind the last table. -/
theorem putFats_behind {n start : Nat} (hc : fatOffset w c + fatSpan w ≤ spf * 512)
    (h : (start + n * spf) * 512 ≤ a) : putFats w spf c value n start m a = m a := by
  induction n generalizing start m with
  | zero => rfl
  | succ n ih =>
    have hnext : start + (n + 1) * spf = start + spf + n * spf := by
      rw [Nat.add_mul, Nat.one_mul]
      omega
    rw [hnext] at h
    rw [putFats, ih h]
    refine putFat_outside (.inr ?_)
    rw [Nat.add_mul, Nat.add_mul] at h
    omega

/-- **The stores into all tables**, seen in one of them. -/
theorem rawFat_putFats {n start j : Nat}
    (hc : fatOffset w c + fatSpan w ≤ spf * 512) (hx : fatOffset w x + fatSpan w ≤ spf * 512)
    (hj : j < n) :
    rawFat w (putFats w spf c value n start m) ((start + j * spf) * 512) x =
      if x = c then Fs.stored w value else rawFat w m ((start + j * spf) * 512) x := by
  induction n generalizing start m j with
  | zero => exact absurd hj (Nat.not_lt_zero j)
  | succ n ih =>
    rw [putFats]
    cases j with
    | zero =>
      rw [Nat.zero_mul, Nat.add_zero, ← rawFat_putFat]
      exact rawFat_congr fun k hk => putFats_before (by omega)
    | succ j =>
      have hnext : start + (j + 1) * spf = start + spf + j * spf := by
        rw [Nat.add_mul, Nat.one_mul]
        omega
      rw [hnext, ih (Nat.lt_of_succ_lt_succ hj)]
      congr 1
      refine rawFat_congr fun k hk => putFat_outside (.inr ?_)
      rw [Nat.add_mul, Nat.add_mul]
      omega

namespace Vol

variable {v : Vol}

theorem setFatEntry_eq (hc : v.fs.InRange c) (value : Nat) : (v.setFatEntry c value).fs = v.fs ∧
    (v.setFatEntry c value).layout = v.layout ∧ (v.setFatEntry c value).image = putFats v.fs.width
      v.layout.sectorsPerFat c value v.layout.numFats v.layout.fatStart v.image := by
  rw [setFatEntry, if_pos hc]
  have hmark := fun u : Vol => markFat_eq u c
  have hfs : ∀ u : Vol, (u.markFat c).fs = u.fs := by
    intro u
    simp only [markFat, mark]
    split_ifs <;> rfl
  exact ⟨hfs _, (hmark _).2.2, (hmark _).1⟩

/-- A change in the first copy is one of the entry, and is marked. -/
theorem dirty_setFatEntry (h : v.Holds) (hc : v.fs.InRange c) (hhi : a < v.table 1)
    (hne : (v.setFatEntry c value).image a ≠ v.image a) :
    (v.setFatEntry c value).dirty (a / 512) = true := by
  obtain ⟨n, hn⟩ := Nat.exists_eq_succ_of_ne_zero (Nat.ne_of_gt h.some)
  have hinside := h.inside
  rw [hn, Nat.succ_mul] at hinside
  rw [table, Nat.one_mul] at hhi
  rw [(setFatEntry_eq hc value).2.2, hn, putFats, putFats_before hhi] at hne
  by_contra hclean
  rw [Bool.not_eq_true, setFatEntry, if_pos hc] at hclean
  obtain ⟨hfirst, hsecond, -⟩ := markFat_dirty (by dsimp only; omega) hclean
  refine hne (putFat_outside ?_)
  by_contra hspan
  push Not at hspan
  rcases sector_of_fat hspan.1 hspan.2 with hsector | ⟨hbig, hsector⟩
  · exact hfirst hsector
  · exact hsecond hbig hsector

/-- **`set_fat_entry` sets one entry**, in every copy, and marks what it changes. -/
theorem sets_setFatEntry (h : v.Holds) (hc : v.fs.InRange c) (hv : value < entryValues v.fs.width) :
    Sets v (v.setFatEntry c value) c value := by
  obtain ⟨hfs, hlayout, himage⟩ := setFatEntry_eq hc value
  have hcopy : ∀ x, v.fs.InRange x → ∀ j < v.layout.numFats, rawFat v.fs.width
      (v.setFatEntry c value).image (v.table j) x =
        if x = c then value else rawFat v.fs.width v.image (v.table j) x := by
    intro x hx j hj
    have hstored : rawFat v.fs.width (v.setFatEntry c value).image (v.table j) x =
        if x = c then Fs.stored v.fs.width value else rawFat v.fs.width v.image (v.table j) x := by
      rw [himage]
      exact rawFat_putFats (h.entries c hc) (h.entries x hx) hj
    rwa [stored_of_lt hv] at hstored
  have hget : ∀ x, (v.setFatEntry c value).getFatEntry x =
      if x = c then readAs v.fs.width value else v.getFatEntry x := by
    intro x
    rw [getFatEntry, getFatEntry, table, hfs, hlayout]
    by_cases hx : v.fs.InRange x
    · rw [if_pos hx, if_pos hx, ← table, hcopy x hx 0 h.some]
      split <;> rfl
    · rw [if_neg hx, if_neg hx, if_neg fun heq : x = c => hx (heq ▸ hc)]
  have hown := (hget c).trans (if_pos rfl)
  refine ⟨fun hsmall => hown.trans ?_, fun heoc => ?_, fun x hx => (hget x).trans (if_neg hx),
    fun j hj => (hcopy c hc j hj).trans (if_pos rfl), fun a => dirty_setFatEntry h hc⟩
  · cases hw : v.fs.width <;> simp only [hw, readAs, entryValues] at *
    · exact if_neg (Nat.not_le.2 (hsmall trivial))
    · exact Nat.mod_eq_of_lt hv
  · rw [hown]
    rw [Fs.isEoc_eq, decide_eq_true_eq] at heoc ⊢
    cases hw : v.fs.width <;> simp only [hw, readAs, eocLimit, entryValues] at *
    · split <;> omega
    · exact heoc
    · omega

/-- Cluster 3 of the small volume, in the second half of a byte. -/
theorem sets_setFatEntry_small : Sets (small 2) ((small 2).setFatEntry 3 0xFFF) 3 0xFFF := by
  refine sets_setFatEntry ⟨?_, by decide, by decide⟩ (by decide) (by decide)
  rintro c ⟨-, hc⟩
  have hlt : c < 12 := hc
  show c + c / 2 + 2 ≤ 512
  omega

end Vol

end Fat
