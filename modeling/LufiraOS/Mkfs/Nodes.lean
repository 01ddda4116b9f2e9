import LufiraOS.Mkfs.Format
import LufiraOS.Driver.Components

/-!
# New directories and files

What `ensure_dir_path` and `split_path` do to a region.  In any region whose
entries lead to inodes in use they keep it so; in a tidy region, as long as they
stand in directories, they extend the tree and end where the path leads.
-/

namespace LufiraFs

open ByteStore

namespace Mkfs

/-- A call that returns has been through both of its halves. -/
theorem bind_ok {ε α β : Type} {x : Except ε α} {f : α → Except ε β} {b : β}
    (h : x >>= f = .ok b) : ∃ a, x = .ok a ∧ f a = .ok b := by
  cases x with
  | error e => cases h
  | ok a => exact ⟨a, rfl, h⟩

namespace Region

section

variable {g g₁ g' : Region} {parent ino : Nat} {name : CStr} {names : List CStr} {path : CStr}

/-! ## One node -/

section

variable (h : Firm g)

include h

theorem allocInode_step (hcall : g.allocInode = .ok (ino, g')) :
    Step ∅ g g' ∧ g'.vol = g.vol ∧ g.vol.IsIno ino ∧ (g.vol.inode ino).mode = modeFree := by
  obtain ⟨hi, hfree, hsb, hvol⟩ := allocInode_ok hcall
  obtain ⟨blocks, inodes, htake⟩ := withFree_takeInode g.sb
  have hlaid : Laid g'.sb := by
    rw [hsb, htake]
    exact h.laid.withFree blocks inodes
  have hfirm : Firm g' := by
    refine ⟨hlaid, ?_, ?_, ?_⟩ <;> rw [hvol]
    · exact h.sound
    · exact h.filled
    · exact h.tight
  refine ⟨⟨hfirm, hvol ▸ Evolves.refl _ _, fun {k} hk => ?_⟩, hvol, hi, hfree⟩
  have hcount : g'.sb.freeBlocks = g.sb.freeBlocks := by
    rw [hsb, Superblock.takeInode]
    split <;> rfl
  rw [hvol]
  exact ⟨by rw [hcount, hk.count], hk.small⟩

/-- A record without blocks written over another one. -/
theorem writeInode_fresh (hi : g.vol.IsIno ino) {r : Inode}
    (hdirect : r.direct = fun _ => 0) (hindirect : r.indirect = 0) (hsize : r.size = 0) :
    Step {ino} g (g.writeInode ino r) ∧ (g.writeInode ino r).vol.inode ino = r := by
  have hvol := writeInode_vol h.laid hi r
  have hrec : (g.writeInode ino r).vol.inode ino = r := by
    rw [hvol, Vol.setInode_inode_same]
  have hsound : Sound (g.writeInode ino r).vol := by
    rw [hvol]
    exact h.sound.setInode fun _ => Or.inr (ptrOf_of_none hdirect hindirect _ _)
  have hev : Evolves {ino} g.vol (g.writeInode ino r).vol := by
    rw [hvol]
    exact .setInode _ _ _
  have hnone : ∀ b, (g.writeInode ino r).vol.fetch r b = none := by
    intro b
    have hz : blockOf (g.writeInode ino r).vol.block r b = 0 := by
      unfold blockOf
      split
      · exact ptrOf_of_none hdirect hindirect _ _
      · rfl
    have hlaid : Laid (g.writeInode ino r).sb := h.laid
    rw [Vol.fetch, hz, if_neg fun hin => vol_pos hlaid hin rfl]
  refine ⟨⟨h.evolve h.laid hsound hev ?_ ?_, hev, fun {k} hk => ?_⟩, hrec⟩
  · intro b hb
    rw [hrec, hsize] at hb
    exact absurd hb (Nat.not_lt_zero b)
  · intro _ b _
    rw [hrec]
    exact hnone b
  · rw [hvol]
    exact hk.congr (Vol.setInode_geo _ _ _) rfl

theorem addDirent_bound (hi : g.vol.IsIno ino) : ino ≠ 0 ∧ ino < 4294967296 := by
  have hbound := (isIno_iff h.laid).1 hi
  omega

/-- Giving an entry to a new node that is complete otherwise. -/
theorem attach_makes (hV : Sane g.vol) (hstep : Step {ino} g g₁)
    (hi : g.vol.IsIno ino) (hfree : (g.vol.inode ino).mode = modeFree)
    (hused : (g₁.vol.inode ino).mode ≠ modeFree) (hp : g.vol.Live parent)
    (hname : name.length ≤ 59)
    (hreserved : g₁.vol.IsDir ino → ∃ a b, a ≠ b ∧ g₁.vol.entryAt ino a = some (ino, dot) ∧
      g₁.vol.entryAt ino b = some (parent, dotDot) ∧
      ∀ c, c ≠ a → c ≠ b → g₁.vol.entryAt ino c = none)
    (hcall : g₁.addDirent parent name ino = .ok g') :
    Step {parent, ino} g g' ∧ Makes parent ino name g.vol g'.vol ∧
      g'.vol.inode ino = g₁.vol.inode ino := by
  have h0 := dataStart_pos h.laid
  have h0' := dataStart_pos hstep.firm.laid
  have hne : parent ≠ ino := by
    rintro rfl
    exact hp.2 hfree
  have hp₁ := hstep.isIno.2 hp.1
  have hi₁ := hstep.isIno.2 hi
  obtain ⟨hadd, hmode⟩ := addDirent_step hstep.firm hp₁ hcall
  -- nothing has happened to the parent before, nor happens to the new node now
  have hparent : g₁.vol.inode parent = g.vol.inode parent :=
    hstep.evolves.inode hp.1 (by simp [hne])
  have hentries : ∀ n, g₁.vol.entryAt parent n = g.vol.entryAt parent n :=
    hstep.evolves.entryAt_eq h0 hp.1 (by simp [hne])
  have hnode : g'.vol.inode ino = g₁.vol.inode ino := hadd.evolves.inode hi₁ (by simp [hne.symm])
  have hnodeEntries : ∀ n, g'.vol.entryAt ino n = g₁.vol.entryAt ino n :=
    hadd.evolves.entryAt_eq h0' hi₁ (by simp [hne.symm])
  have hall : Step {parent, ino} g g' := (hstep.mono (by simp)).trans (hadd.mono (by simp))
  refine ⟨hall, ⟨hall.evolves, hi, hfree, by rw [hnode]; exact hused, by rw [hmode, hparent],
    fun hd => ?_, fun hd => ?_⟩, hnode⟩
  · have hd₁ : g₁.vol.IsDir parent := ⟨hp₁, by rw [hparent]; exact hd.2⟩
    have hshort : g₁.vol.ShortNames parent := by
      intro n j nm hn
      rw [hentries] at hn
      exact hV.short hd _ _ _ hn
    obtain ⟨hino, hlt⟩ := addDirent_bound h hi
    obtain ⟨n, hn⟩ := addDirent_enters hstep.firm hd₁ hshort hname hino hlt hcall
    exact ⟨n, (hentries n).symm.trans hn.was, hn.now, fun hm => (hn.rest hm).trans (hentries _)⟩
  · have hd₁ : g₁.vol.IsDir ino := ⟨hi₁, by rw [← hnode]; exact hd.2⟩
    obtain ⟨a, b, hab, ha, hb, hrest⟩ := hreserved hd₁
    exact ⟨a, b, hab, (hnodeEntries a).trans ha, (hnodeEntries b).trans hb,
      fun c hca hcb => (hnodeEntries c).trans (hrest c hca hcb)⟩

/-- The two entries of a new directory. -/
theorem addDots_enters (hd : g.vol.IsDir ino) (hsize : (g.vol.inode ino).size = 0)
    (hp : g.vol.IsIno parent) (hdot : g.addDirent ino dot ino = .ok g₁)
    (hdotDot : g₁.addDirent ino dotDot parent = .ok g') :
    Step {ino} g g' ∧ (g'.vol.inode ino).mode = modeDir ∧
      ∃ a b, a ≠ b ∧ g'.vol.entryAt ino a = some (ino, dot) ∧
        g'.vol.entryAt ino b = some (parent, dotDot) ∧
        ∀ c, c ≠ a → c ≠ b → g'.vol.entryAt ino c = none := by
  have hempty := Vol.entryAt_of_size hsize
  have hshort : g.vol.ShortNames ino := fun n _ _ hn => by
    rw [hempty] at hn
    cases hn
  obtain ⟨hino, hlt⟩ := addDirent_bound h hd.1
  obtain ⟨hpar, hparLt⟩ := addDirent_bound h hp
  obtain ⟨hstep, hmode⟩ := addDirent_step h hd.1 hdot
  obtain ⟨a, ha⟩ := addDirent_enters h hd hshort (show dot.length ≤ 59 by decide) hino hlt hdot
  have hd₁ : g₁.vol.IsDir ino := ⟨hstep.isIno.2 hd.1, hmode.trans hd.2⟩
  obtain ⟨hstep', hmode'⟩ := addDirent_step hstep.firm hd₁.1 hdotDot
  obtain ⟨b, hb⟩ := addDirent_enters hstep.firm hd₁ (ha.shortNames hshort (by decide))
    (show dotDot.length ≤ 59 by decide) hpar hparLt hdotDot
  have hab : a ≠ b := by
    rintro rfl
    have hwas := hb.was
    rw [ha.now] at hwas
    cases hwas
  refine ⟨hstep.trans hstep', hmode'.trans hd₁.2, a, b, hab, (hb.rest hab).trans ha.now, hb.now,
    fun c hca hcb => ?_⟩
  rw [hb.rest hcb, ha.rest hca, hempty]

/-- **A new directory** as `ensure_dir_path` makes it. -/
theorem makeDir_makes (hV : Sane g.vol) (hp : g.vol.Live parent)
    (hname : name.length ≤ 59) (hcall : g.makeDir parent name = .ok (ino, g')) :
    Step {parent, ino} g g' ∧ Makes parent ino name g.vol g'.vol := by
  obtain ⟨⟨j, g₁⟩, halloc, hcall⟩ := bind_ok hcall
  obtain ⟨g₂, hdot, hcall⟩ := bind_ok hcall
  obtain ⟨g₃, hdotDot, hcall⟩ := bind_ok hcall
  obtain ⟨g₄, hadd, hcall⟩ := bind_ok hcall
  obtain ⟨rfl, rfl⟩ := Prod.mk.inj (Except.ok.inj hcall)
  obtain ⟨hcount, hvol, hi, hfree⟩ := allocInode_step h halloc
  have hi₁ : g₁.vol.IsIno j := hvol ▸ hi
  obtain ⟨hfresh, hrec⟩ := writeInode_fresh hcount.firm hi₁
    (r := { Inode.zero with mode := modeDir, linksCount := 2, perm := defaultDirPerm }) rfl rfl rfl
  have hone : Step {j} g _ := (hcount.mono (Set.empty_subset _)).trans hfresh
  obtain ⟨hdots, hmode, hreserved⟩ := addDots_enters hone.firm
    ⟨hone.isIno.2 hi, by rw [hrec]⟩ (by rw [hrec]; rfl) (hone.isIno.2 hp.1) hdot hdotDot
  obtain ⟨hstep, hmakes, -⟩ := attach_makes h hV (hone.trans hdots) hi hfree
    (by rw [hmode]; exact modeDir_ne_free) hp hname (fun _ => hreserved) hadd
  exact ⟨hstep, hmakes⟩

/-! ## Paths in any region -/

theorem enterDir_sane (hV : Sane g.vol) (hp : g.vol.Live parent)
    (hname : name.length ≤ 59) (hcall : g.enterDir parent name = .ok (ino, g')) :
    Step Set.univ g g' ∧ Sane g'.vol ∧ g'.vol.Live ino := by
  unfold enterDir at hcall
  split at hcall
  · cases hcall
  · next next hlook =>
    cases hcall
    exact ⟨.refl h _, hV, hV.lookupIn (lookupInDir_ok h hp.1 hlook)⟩
  obtain ⟨hstep, hmakes⟩ := makeDir_makes h hV hp hname hcall
  exact ⟨hstep.mono (Set.subset_univ _), hmakes.sane hV (dataStart_pos h.laid) hp hname,
    hmakes.live_new⟩

theorem ensureDirs_sane (hV : Sane g.vol)
    (hp : g.vol.Live parent) (hnames : ∀ name ∈ names, name.length ≤ 59)
    (hcall : ensureDirs names parent g = .ok (ino, g')) :
    Step Set.univ g g' ∧ Sane g'.vol ∧ g'.vol.Live ino := by
  induction names generalizing parent g with
  | nil =>
    cases hcall
    exact ⟨.refl h _, hV, hp⟩
  | cons name rest ih =>
    rw [ensureDirs] at hcall
    split at hcall
    · cases hcall
    · next next g₁ henter =>
      obtain ⟨hstep, hV₁, hnext⟩ := enterDir_sane h hV hp (hnames name (by simp)) henter
      obtain ⟨hstep', hres⟩ := ih hstep.firm hV₁ hnext
        (fun c hc => hnames c (List.mem_cons_of_mem _ hc)) hcall
      exact ⟨hstep.trans hstep', hres⟩

theorem ensureDirPath_sane (hV : Sane g.vol) (hcall : g.ensureDirPath path = .ok (ino, g')) :
    Step Set.univ g g' ∧ Sane g'.vol ∧ g'.vol.Live ino := by
  unfold ensureDirPath at hcall
  split at hcall
  · exact ensureDirs_sane h hV hV.root (fun _ hc => length_of_mem_components hc) hcall
  · cases hcall

end

/-! ## Paths in a tidy region -/

/-- The loop of `ensure_dir_path` stands in a directory all the time. -/
def OnDirs : List CStr → Nat → Region → Prop
  | [], cur, g => g.vol.IsDir cur
  | name :: rest, cur, g => g.vol.IsDir cur ∧
    match g.enterDir cur name with
    | .error _ => True
    | .ok (next, g') => OnDirs rest next g'

instance decidableOnDirs : (names : List CStr) → (cur : Nat) → (g : Region) →
    Decidable (OnDirs names cur g)
  | [], cur, g => inferInstanceAs (Decidable (g.vol.IsDir cur))
  | name :: rest, cur, g =>
    have : Decidable (match g.enterDir cur name with
        | .error _ => True
        | .ok (next, g') => OnDirs rest next g') :=
      match g.enterDir cur name with
      | .error _ => isTrue trivial
      | .ok (next, g') => decidableOnDirs rest next g'
    inferInstanceAs (Decidable (g.vol.IsDir cur ∧ _))

theorem OnDirs.isDir (h : OnDirs names parent g) : g.vol.IsDir parent := by
  cases names with
  | nil => exact h
  | cons name rest => exact h.1

/-- A node made in a directory of a tidy region. -/
theorem Tidy.makes (h : Tidy g) (hp : g.vol.IsDir parent) (hname : name.length ≤ 59)
    (hmiss : g.vol.lookupIn parent name = none) {S : Set Nat} (hstep : Step S g g')
    (hmakes : Makes parent ino name g.vol g'.vol) :
    Tidy g' ∧ Extends ∅ g.vol g'.vol ∧ g'.vol.lookupIn parent name = some ino := by
  have h0 := dataStart_pos h.firm.laid
  have horderly := hmakes.orderly h.orderly h0 hp hname hmiss
  have hext := hmakes.extends h0 hp
  obtain ⟨n, hn⟩ := hmakes.enters hp
  exact ⟨⟨hstep.firm, horderly⟩, hext, horderly.lookupIn_eq (hext.dir hp) hn.now⟩

theorem enterDir_tidy (h : Tidy g) (hp : g.vol.IsDir parent) (hname : name.length ≤ 59)
    (hcall : g.enterDir parent name = .ok (ino, g')) :
    Tidy g' ∧ Extends ∅ g.vol g'.vol ∧ g'.vol.lookupIn parent name = some ino := by
  unfold enterDir at hcall
  split at hcall
  · cases hcall
  · next next hlook =>
    cases hcall
    exact ⟨h, .refl _ _, lookupInDir_ok h.firm hp.1 hlook⟩
  · next hlook =>
    have hlive := h.orderly.tree.dirLive hp
    obtain ⟨hstep, hmakes⟩ := makeDir_makes h.firm h.orderly.sane hlive hname hcall
    exact h.makes hp hname (lookupInDir_ok h.firm hp.1 hlook) hstep hmakes

/-- **The loop of `ensure_dir_path`** ends where the path leads. -/
theorem ensureDirs_tidy (h : Tidy g) (hdirs : OnDirs names parent g)
    (hnames : ∀ name ∈ names, name.length ≤ 59)
    (hcall : ensureDirs names parent g = .ok (ino, g')) :
    Tidy g' ∧ Extends ∅ g.vol g'.vol ∧ g'.vol.IsDir ino ∧ g'.vol.walk names parent = some ino := by
  induction names generalizing parent g with
  | nil =>
    cases hcall
    exact ⟨h, .refl _ _, hdirs, rfl⟩
  | cons name rest ih =>
    obtain ⟨hp, hrest⟩ := hdirs
    rw [ensureDirs] at hcall
    split at hcall
    · cases hcall
    · next next g₁ henter =>
      rw [henter] at hrest
      obtain ⟨htidy, hext, hlook⟩ := enterDir_tidy h hp (hnames name (by simp)) henter
      obtain ⟨htidy', hext', hd, hwalk⟩ := ih htidy hrest
        (fun c hc => hnames c (List.mem_cons_of_mem _ hc)) hcall
      obtain ⟨hd₁, n, hn⟩ := Vol.lookupIn_some hlook
      refine ⟨htidy', hext.trans hext', hd, ?_⟩
      rw [Vol.walk, htidy'.orderly.lookupIn_eq (hext'.dir hd₁) (hext'.entry hd₁ hn)]
      exact hwalk

/-- **What `split_path` does when it returns**: the directories in front of the last
slash are there, and the last component is cut to 59 characters. -/
theorem splitPath_cases (hcall : g.splitPath path = .ok (parent, name, g')) :
    slash ∈ path ∧ (dirPart path).length < 512 ∧ name = (lastComponent path).take 59 ∧
      ((dirPart path = [] ∧ parent = g.vol.rootInode ∧ g' = g) ∨
        ((dirPart path).head? = some slash ∧
          ensureDirs (components (dirPart path).tail) g.vol.rootInode g = .ok (parent, g'))) := by
  unfold splitPath at hcall
  split at hcall
  · cases hcall
  · next hmem =>
    have hmem := not_not.1 hmem
    have hlen : path.length - (lastComponent path).length - 1 = (dirPart path).length := by
      have hsplit := congrArg List.length (dirPart_append hmem)
      rw [List.length_append, List.length_cons] at hsplit
      omega
    dsimp only at hcall
    split at hcall
    · next hzero =>
      obtain ⟨rfl, rfl, rfl⟩ := hcall
      rw [hlen] at hzero
      exact ⟨hmem, by omega, rfl, Or.inl ⟨List.length_eq_zero_iff.1 hzero, rfl, rfl⟩⟩
    split at hcall
    · cases hcall
    · next hshort =>
      split at hcall
      · cases hcall
      · next hensure =>
        obtain ⟨rfl, rfl, rfl⟩ := hcall
        refine ⟨hmem, by omega, rfl, Or.inr ?_⟩
        unfold ensureDirPath at hensure
        split at hensure
        · next hhead => exact ⟨hhead, hensure⟩
        · cases hensure

/-- **`split_path`** in any region. -/
theorem splitPath_sane (h : Firm g) (hV : Sane g.vol)
    (hcall : g.splitPath path = .ok (parent, name, g')) :
    Step Set.univ g g' ∧ Sane g'.vol ∧ g'.vol.Live parent ∧ name.length ≤ 59 := by
  obtain ⟨_, _, rfl, hends⟩ := splitPath_cases hcall
  have hshort : ((lastComponent path).take 59).length ≤ 59 := List.length_take_le _ _
  rcases hends with ⟨_, rfl, rfl⟩ | ⟨_, hensure⟩
  · exact ⟨.refl h _, hV, hV.root, hshort⟩
  obtain ⟨hstep, hV', hlive⟩ := ensureDirs_sane h hV hV.root
    (fun _ hc => length_of_mem_components hc) hensure
  exact ⟨hstep, hV', hlive, hshort⟩

/-- **`split_path`** of a path that is used with directories only. -/
theorem splitPath_tidy (h : Tidy g)
    (hdirs : OnDirs (components (dirPart path).tail) g.vol.rootInode g)
    (hcall : g.splitPath path = .ok (parent, name, g')) :
    Tidy g' ∧ Extends ∅ g.vol g'.vol ∧ g'.vol.IsDir parent ∧ path.head? = some slash ∧
      g'.vol.walk (components (dirPart path).tail) g'.vol.rootInode = some parent := by
  obtain ⟨hmem, _, _, hends⟩ := splitPath_cases hcall
  have hsplit := dirPart_append hmem
  rcases hends with ⟨hempty, rfl, rfl⟩ | ⟨hhead, hensure⟩
  · refine ⟨h, .refl _ _, hdirs.isDir, ?_, ?_⟩
    · rw [← hsplit, hempty]
      rfl
    · rw [hempty]
      rfl
  obtain ⟨htidy, hext, hd, hwalk⟩ := ensureDirs_tidy h hdirs
    (fun _ hc => length_of_mem_components hc) hensure
  refine ⟨htidy, hext, hd, ?_, by rw [hext.geo.rootInode]; exact hwalk⟩
  rw [← hsplit, List.head?_append, hhead]
  rfl

end

end Region

end Mkfs

end LufiraFs
