import LufiraOS.Driver.Release

/-!
# What happens to the entries of a directory

`add_dirent` fills one position of its directory and `remove_dirent` empties one;
all the other entries, in this directory and in every other one, stay.  The
emptiness scan of `lufirafs_unlink` has seen every entry when no `kmalloc`
fails.
-/

namespace LufiraFs

open ByteStore Vol

namespace Mount

section

variable {fs : Mount} {d : Nat} {name : CStr} {r : Inode} {i n index : Nat}

theorem Ready.dataStart_pos (h : fs.Ready) : 0 < fs.vol.dataStart := by
  have hdata := h.laid.dataStart
  rw [vol_dataStart, dataStart]
  omega

/-! ## Adding and removing -/

/-- **`add_dirent`** fills one unused position, or changes no entry when it
fails. -/
theorem addDirent_enters (h : fs.Ready) (hs : Sound fs.vol) (hd : fs.vol.IsIno d)
    (hshort : fs.vol.ShortNames d) (hname : name.length ≤ 59) (hi0 : i ≠ 0)
    (hi : i < 4294967296) :
    ∃ ok fs', fs.addDirent d name i = (ok, fs') ∧ Step {d} fs fs' ∧
      (fs'.vol.inode d).mode = (fs.vol.inode d).mode ∧
      (ok = false → ∀ n, fs'.vol.entryAt d n = fs.vol.entryAt d n) ∧
      (ok = true → ∃ n, Enters d n i name fs.vol fs'.vol) := by
  have hino := ofNat_ne_zero hi0 hi
  obtain ⟨ok, fs', hcall, hstep⟩ := addDirent_step h hs d name i
  refine ⟨ok, fs', hcall, hstep, ?_⟩
  rcases addDirent_cases h hs d name i with
    ⟨e, heq, hleads⟩ | ⟨r', fs₁, heq, _, hdraft⟩ | ⟨c, bn, k, fs₁, heq, _, hc, hin, hbn, hk, hbec⟩ |
      ⟨bn, r', fs₁, fs₂, heq, _, hdraft, h0, hblock, hbec⟩
  · obtain ⟨rfl, rfl⟩ := Prod.mk.inj (hcall.symm.trans heq)
    exact ⟨rfl, fun _ _ => rfl, by simp⟩
  · obtain ⟨rfl, rfl⟩ := Prod.mk.inj (hcall.symm.trans heq)
    have hrec : fs'.vol.inode d = fs.vol.inode d := by rw [hdraft.table]
    exact ⟨by rw [hrec], fun _ n => hdraft.gains.entryAt_abandon h.dataStart_pos hrec n, by simp⟩
  · obtain ⟨rfl, rfl⟩ := Prod.mk.inj (hcall.symm.trans heq)
    obtain ⟨_, hklt, hunused⟩ := findUnused_some hk
    refine ⟨by rw [hbec.vol]; rfl, by simp, fun _ => ⟨c * 128 + k, ?_⟩⟩
    rw [hbec.vol]
    refine hs.enters_write hd h.dataStart_pos hin hbn hc (by omega) hunused fun j hj => ?_
    rw [direntAt_putDirent (by omega) hj hino hname
      (hshort.shortAt hc hj (fetch_of_blockOf hin hbn)), toNat_ofNat_lt hi]
  · obtain ⟨rfl, rfl⟩ := Prod.mk.inj (hcall.symm.trans heq)
    have hmode : r'.mode = (fs.vol.inode d).mode := by simpa using hdraft.gains.attrs.mode
    refine ⟨by rw [hbec.vol, setInode_inode_same]; exact hmode, by simp,
      fun _ => ⟨blocksOf (fs.vol.inode d).size.toNat * 128, ?_⟩⟩
    rw [hbec.vol]
    refine enters_grow (hdraft.gains.entryAt_grow h.dataStart_pos hd h0 hblock _) fun j hj => ?_
    rw [direntAt_putDirent (by omega) hj hino hname fun _ _ hused => by simp at hused,
      toNat_ofNat_lt hi, direntAt_zeros]

section

variable (h : fs.Ready) (henv : fs.env = Env.allOk)

include h henv

/-- **`remove_dirent`** empties the position of an entry that is there. -/
theorem removeDirent_leaves (hs : Sound fs.vol) (hd : fs.vol.IsDir d) (hshort : fs.vol.ShortNames d)
    (hentry : fs.vol.entryAt d n = some (i, name)) :
    ∃ m j, Leaves d m j name fs.vol (fs.removeDirent d name).2.vol ∧
      (fs.removeDirent d name).2.vol.inode = fs.vol.inode := by
  rcases removeDirent_cases h d name with
    ⟨e, _, _, hmiss⟩ | ⟨c, bn, k, fs', heq, _, hc, hin, hbn, hk, hbec⟩
  · exact absurd hentry (lookupIn_none hd (hmiss henv) n i)
  · obtain ⟨_, hklt, hused, hname⟩ := findEntry_some hk
    have hfetch := fetch_of_blockOf hin hbn
    have hafter := hs.entryAt_write hd.1 h.dataStart_pos (k := k) hin hbn hc none (by omega)
      fun j hj => direntAt_clearDirent (by omega) hj (hshort.shortAt hc hj hfetch)
    rw [heq]
    refine ⟨c * 128 + k, (direntIno (fs.vol.block bn) k).toNat, ⟨?_, ?_, ?_⟩, by rw [hbec.vol]; rfl⟩
    · exact (entryIn_of_fetch hc (by omega) hfetch).trans
        (direntAt_eq_some.2 ⟨hused, rfl, hname⟩)
    · rw [hbec.vol, hafter, if_pos rfl]
    · intro m hm
      rw [hbec.vol, hafter, if_neg hm]

/-! ## Listing a directory -/

/-- `lufirafs_readdir` skips unused positions only. -/
theorem readdirLoop_none (hres : (readdirLoop r index n fs).1 = none) {m : Nat} (hlo : index ≤ m)
    (hhi : m < index + n) : fs.vol.entryIn r m = none := by
  induction n generalizing index with
  | zero => omega
  | succ n ih =>
    simp only [readdirLoop, fetchBlock_allOk h henv] at hres
    generalize hfound : fs.vol.fetch r (index / 128) = res at hres
    by_cases hm : m = index
    · subst hm
      unfold entryIn
      rw [hfound]
      cases res with
      | none => simp
      | some found =>
        obtain ⟨bn, blk⟩ := found
        by_cases hused : direntIno blk (m % 128) = 0
        · simp [direntAt, hused]
        · simp [hused] at hres
    cases res with
    | none => exact ih hres (by omega) (by omega)
    | some found =>
      obtain ⟨bn, blk⟩ := found
      by_cases hused : direntIno blk (index % 128) = 0
      · simp only [hused, if_true] at hres
        exact ih hres (by omega) (by omega)
      · simp [hused] at hres

/-- `lufirafs_readdir` delivers the first entry and moves behind it. -/
theorem readdirLoop_some (hn : index + n ≤ blocksOf r.size.toNat * 128)
    {ino : UInt32} {nm : CStr} {next : Nat}
    (hres : (readdirLoop r index n fs).1 = some (ino, nm, next)) :
    index < next ∧ next ≤ index + n ∧ (∀ m, index ≤ m → m + 1 < next → fs.vol.entryIn r m = none) ∧
      ∃ nm', fs.vol.entryIn r (next - 1) = some (ino.toNat, nm') ∧
        (nm'.length ≤ 59 → nm' = nm) := by
  induction n generalizing index with
  | zero => simp [readdirLoop] at hres
  | succ n ih =>
    simp only [readdirLoop, fetchBlock_allOk h henv] at hres
    generalize hfound : fs.vol.fetch r (index / 128) = res at hres
    have hskip : fs.vol.entryIn r index = none →
        (readdirLoop r (index + 1) n fs).1 = some (ino, nm, next) →
        index < next ∧ next ≤ index + (n + 1) ∧
          (∀ m, index ≤ m → m + 1 < next → fs.vol.entryIn r m = none) ∧
          ∃ nm', fs.vol.entryIn r (next - 1) = some (ino.toNat, nm') ∧
            (nm'.length ≤ 59 → nm' = nm) := by
      intro hunused hlater
      obtain ⟨hlo, hhi, hbefore, hat⟩ := ih (by omega) hlater
      refine ⟨by omega, by omega, fun m hm hmn => ?_, hat⟩
      by_cases hmi : m = index
      · rw [hmi, hunused]
      · exact hbefore m (by omega) hmn
    cases res with
    | none => exact hskip (by simp [entryIn, hfound]) hres
    | some found =>
      obtain ⟨bn, blk⟩ := found
      by_cases hused : direntIno blk (index % 128) = 0
      · simp only [hused, if_true] at hres
        exact hskip (by simp [entryIn, hfound, direntAt, hused]) hres
      simp only [hused, if_false, Option.some.injEq, Prod.mk.injEq] at hres
      obtain ⟨rfl, rfl, rfl⟩ := hres
      refine ⟨by omega, by omega, fun m hm hmn => by omega, direntName blk (index % 128),
        ?_, fun hlen => ?_⟩
      · have hlt : index < blocksOf r.size.toNat * 128 := by omega
        simp [entryIn, hlt, hfound, direntAt, hused]
      · -- the name is read for 60 bytes here and up to the end of the block by strcmp
        rw [cstrAt_take (show 60 ≤ 8192 - (64 * (index % 128) + 4) by omega)]
        exact (List.take_of_length_le (Nat.le_succ_of_le hlen)).symm

/-- **The emptiness scan.**  When it counts nothing, the directory has no entries
but `"."` and `".."`. -/
theorem countExtra_zero (hd : fs.vol.IsIno d) (hshort : fs.vol.ShortNames d) {fuel : Nat}
    (hfuel : blocksOf (fs.vol.inode d).size.toNat * 128 < fuel + index)
    (hzero : (countExtra d fuel index fs).1 = 0) {m : Nat} (hm : index ≤ m)
    (hentry : fs.vol.entryAt d m = some (i, name)) : name = dot ∨ name = dotDot := by
  induction fuel generalizing index with
  | zero =>
    have hlt := (entryIn_some hentry).1
    omega
  | succ fuel ih =>
    have hmlt := (entryIn_some hentry).1
    obtain ⟨e, hmalloc, hleads⟩ := fs.kmalloc_eq
    have hread : fs.readdir d index = readdirLoop (fs.vol.inode d) index
        (blocksOf (fs.vol.inode d).size.toNat * 128 - index) fs := by
      rw [withEnv_of_allOk henv hleads] at hmalloc
      have hok : fs.env.heap 0 = true := by rw [henv]; rfl
      simp only [readdir, readInode_some hd, hmalloc, hok]
    obtain ⟨res, e', hloop, hleads'⟩ := (fs.readdirLoop_uses (fs.vol.inode d) index
      (blocksOf (fs.vol.inode d).size.toNat * 128 - index)).pair
    rw [withEnv_of_allOk henv hleads'] at hloop
    rw [countExtra, hread, hloop] at hzero
    cases res with
    | none =>
      have hnone := readdirLoop_none h henv (m := m) (by rw [hloop]) hm (by omega)
      rw [entryAt, hnone] at hentry
      cases hentry
    | some found =>
      obtain ⟨ino, nm, next⟩ := found
      have hend : index + (blocksOf (fs.vol.inode d).size.toNat * 128 - index) ≤
          blocksOf (fs.vol.inode d).size.toNat * 128 := by omega
      obtain ⟨hlo, hhi, hbefore, nm', hat, hsame⟩ :=
        readdirLoop_some h henv hend (congrArg Prod.fst hloop)
      obtain rfl := hsame (hshort _ _ _ hat)
      dsimp only at hzero
      have hdots : nm' = dot ∨ nm' = dotDot := by
        by_contra hno
        rw [not_or] at hno
        rw [if_pos hno] at hzero
        omega
      have hrest : (countExtra d fuel next fs).1 = 0 := by
        split at hzero
        · omega
        · exact hzero
      by_cases hbefore' : m + 1 < next
      · rw [entryAt, hbefore m hm hbefore'] at hentry
        cases hentry
      by_cases hm' : m + 1 = next
      · have hpos : next - 1 = m := by omega
        rw [hpos, ← entryAt, hentry] at hat
        simp only [Option.some.injEq, Prod.mk.injEq] at hat
        rw [hat.2]
        exact hdots
      · exact ih (by omega) hrest (by omega)

end

end

end Mount

end LufiraFs
