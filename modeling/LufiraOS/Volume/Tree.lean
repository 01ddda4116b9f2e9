import LufiraOS.Volume.Entries
import LufiraOS.Lib.Hierarchy

/-!
# The directory tree of a volume

The volume read as a hierarchy: the inodes in use, the directories and their
entries.  A volume is `Orderly` when the hierarchy is well formed and every name
ends inside its entry.  The three steps that keep it so are a step that no
directory notices, a new node with its entry, and a node removed with its entry.
-/

namespace LufiraFs

open ByteStore

/-- The volume as a directory hierarchy. -/
def Vol.hierarchy (V : Vol) : Hierarchy Nat Nat CStr where
  root := V.rootInode
  live := V.Live
  dir := V.IsDir
  entry := V.entryAt

/-- **The tree property.**  Every used entry of a directory names an inode in use,
names are unique within a directory, `"."` names the directory itself and `".."`
the directory that holds its entry, and every inode in use but the root has
exactly one entry besides those. -/
def Vol.TreeOk (V : Vol) : Prop := Hierarchy.WellFormed dot dotDot V.hierarchy

/-- The tree is well formed and its names are short. -/
structure Orderly (V : Vol) : Prop where
  tree : V.TreeOk
  short : ∀ {d}, V.IsDir d → V.ShortNames d

theorem dot_ne_dotDot : dot ≠ dotDot := by decide

theorem modeDir_ne_free : modeDir ≠ modeFree := by decide

/-- A file without blocks has no entries. -/
theorem Vol.entryAt_of_size {V : Vol} {d : Nat} (h : (V.inode d).size = 0) (n : Nat) :
    V.entryAt d n = none := by
  have hz : blocksOf (V.inode d).size.toNat = 0 := by
    rw [h]
    rfl
  simp [Vol.entryAt, Vol.entryIn, hz]

theorem Enters.shortNames {d n i : Nat} {name : CStr} {V V' : Vol} (h : Enters d n i name V V')
    (hshort : V.ShortNames d) (hname : name.length ≤ 59) : V'.ShortNames d := by
  intro m j nm hm
  by_cases hmn : m = n
  · subst hmn
    rw [h.now] at hm
    obtain ⟨_, rfl⟩ := Prod.mk.inj (Option.some.inj hm)
    exact hname
  · rw [h.rest hmn] at hm
    exact hshort _ _ _ hm

section

variable {V V' : Vol} {S : Set Nat}

theorem Evolves.mode_iff (h : Evolves S V V') {i : Nat}
    (hmode : V.IsIno i → i ∈ S → (V'.inode i).mode = (V.inode i).mode) (p : UInt32 → Prop) :
    V'.IsIno i ∧ p (V'.inode i).mode ↔ V.IsIno i ∧ p (V.inode i).mode := by
  rw [h.geo.isIno]
  refine and_congr_right fun hi => ?_
  by_cases hS : i ∈ S
  · rw [hmode hi hS]
  · rw [h.inode hi hS]

theorem Evolves.live_iff (h : Evolves S V V') {i : Nat}
    (hmode : i ∈ S → (V'.inode i).mode = (V.inode i).mode) : V'.Live i ↔ V.Live i :=
  h.mode_iff (fun _ => hmode) (· ≠ modeFree)

theorem Evolves.isDir_iff (h : Evolves S V V') {d : Nat}
    (hmode : d ∈ S → (V'.inode d).mode = (V.inode d).mode) : V'.IsDir d ↔ V.IsDir d :=
  h.mode_iff (fun _ => hmode) (· = modeDir)

/-- Only the mode of `j` may change. -/
theorem mode_of_pair {i j k : Nat} (hi : (V'.inode i).mode = (V.inode i).mode) (hk : k ≠ j)
    (hmem : k ∈ ({i, j} : Set Nat)) : (V'.inode k).mode = (V.inode k).mode := by
  rcases hmem with rfl | hmem
  · exact hi
  · exact absurd hmem hk

namespace Orderly

/-- In an orderly directory an entry is what the lookup finds. -/
theorem lookupIn_eq (h : Orderly V) {d n i : Nat} {name : CStr} (hd : V.IsDir d)
    (hn : V.entryAt d n = some (i, name)) : V.lookupIn d name = some i := by
  cases hlook : V.lookupIn d name with
  | none => exact absurd hn (Vol.lookupIn_none hd hlook n i)
  | some j =>
    obtain ⟨_, m, hm⟩ := Vol.lookupIn_some hlook
    obtain rfl : m = n := h.tree.unique hd hm hn
    rw [hn] at hm
    obtain ⟨rfl, _⟩ := Prod.mk.inj (Option.some.inj hm)
    rfl

/-- A name that a directory does not have is not reserved. -/
theorem not_reserved (h : Orderly V) {d : Nat} {name : CStr} (hd : V.IsDir d)
    (hfresh : ∀ n i, V.entryAt d n ≠ some (i, name)) : name ≠ dot ∧ name ≠ dotDot := by
  constructor
  · rintro rfl
    obtain ⟨n, hn⟩ := h.tree.selfEntry hd
    exact hfresh _ _ hn
  rintro rfl
  by_cases hroot : d = V.rootInode
  · subst hroot
    obtain ⟨n, hn⟩ := h.tree.rootParent
    exact hfresh _ _ hn
  · obtain ⟨n, _, e, hn, _⟩ := h.tree.parentEntry hd hroot
    exact hfresh _ _ hn

/-- A step that no directory notices. -/
theorem keep (h : Orderly V) (h0 : 0 < V.dataStart) (hev : Evolves S V V')
    (hmode : ∀ {i}, V.IsIno i → i ∈ S → (V'.inode i).mode = (V.inode i).mode)
    (hentry : ∀ {d}, V.IsDir d → d ∈ S → ∀ n, V'.entryAt d n = V.entryAt d n) : Orderly V' := by
  have hlive : ∀ i, V'.Live i ↔ V.Live i := fun i => hev.mode_iff hmode (· ≠ modeFree)
  have hdir : ∀ i, V'.IsDir i ↔ V.IsDir i := fun i => hev.mode_iff hmode (· = modeDir)
  have hsame : ∀ d n, V.IsDir d → V'.entryAt d n = V.entryAt d n := by
    intro d n hd
    by_cases hS : d ∈ S
    · exact hentry hd hS n
    · exact hev.entryAt_eq h0 hd.1 hS n
  refine ⟨h.tree.congr hev.geo.rootInode hlive hdir hsame, ?_⟩
  intro d hd n i nm hn
  have hd' := (hdir d).1 hd
  rw [hsame d n hd'] at hn
  exact h.short hd' _ _ _ hn

/-- **A new node**: a slot that was free is in use, and its parent has one more
entry. -/
theorem insert (h : Orderly V) (h0 : 0 < V.dataStart) {parent ino n : Nat} {name : CStr}
    (hev : Evolves {parent, ino} V V') (hp : V.IsDir parent) (hi : V.IsIno ino)
    (hfree : (V.inode ino).mode = modeFree) (hused : (V'.inode ino).mode ≠ modeFree)
    (hpmode : (V'.inode parent).mode = (V.inode parent).mode)
    (hname : name.length ≤ 59) (hfresh : ∀ n j, V.entryAt parent n ≠ some (j, name))
    (hn : Enters parent n ino name V V')
    (hreserved : V'.IsDir ino → ∃ a b, a ≠ b ∧ V'.entryAt ino a = some (ino, dot) ∧
      V'.entryAt ino b = some (parent, dotDot) ∧ ∀ c, c ≠ a → c ≠ b → V'.entryAt ino c = none) :
    Orderly V' := by
  obtain ⟨hdot, hdotDot⟩ := h.not_reserved hp hfresh
  have hnotDir : ∀ {e}, V.IsDir e → e ≠ ino := by
    rintro e he rfl
    rw [he.2] at hfree
    exact modeDir_ne_free hfree
  have hkeep : ∀ {e m}, V.IsDir e → ¬ (e = parent ∧ m = n) → V'.entryAt e m = V.entryAt e m := by
    intro e m he hat
    by_cases hep : e = parent
    · subst hep
      exact hn.rest fun hm => hat ⟨rfl, hm⟩
    · exact hev.entryAt_eq h0 he.1 (by simp [hep, hnotDir he]) m
  have hins : Hierarchy.Inserted dot dotDot V.hierarchy V'.hierarchy parent n ino name :=
    { root := hev.geo.rootInode
      new := fun hlive => hlive.2 hfree
      live := fun j => by
        by_cases hj : j = ino
        · subst hj
          exact iff_of_true ⟨hev.geo.isIno.2 hi, hused⟩ (Or.inr rfl)
        · rw [or_iff_left hj]
          exact hev.live_iff (mode_of_pair hpmode hj)
      dir := fun hj => hev.isDir_iff (mode_of_pair hpmode hj)
      inDir := hp
      notSelf := hdot
      notParent := hdotDot
      free := hn.was
      fresh := hfresh
      here := hn.now
      keep := hkeep
      reserved := hreserved }
  refine ⟨h.tree.insert dot_ne_dotDot hins, ?_⟩
  intro d hd m j nm hm
  by_cases hdi : d = ino
  · subst hdi
    -- the names of a new directory are the reserved ones
    obtain ⟨a, b, _, ha, hb, hrest⟩ := hreserved hd
    by_cases hma : m = a
    · rw [hma, ha] at hm
      obtain ⟨_, rfl⟩ := Prod.mk.inj (Option.some.inj hm)
      decide
    by_cases hmb : m = b
    · rw [hmb, hb] at hm
      obtain ⟨_, rfl⟩ := Prod.mk.inj (Option.some.inj hm)
      decide
    · rw [hrest m hma hmb] at hm
      cases hm
  have hd' := (hev.isDir_iff (mode_of_pair hpmode hdi)).1 hd
  by_cases hat : d = parent ∧ m = n
  · obtain ⟨rfl, rfl⟩ := hat
    exact hn.shortNames (h.short hp) hname _ _ _ hm
  · rw [hkeep hd' hat] at hm
    exact h.short hd' _ _ _ hm

/-- **A node removed**: its slot is free, and its parent has lost its entry. -/
theorem erase (h : Orderly V) (h0 : 0 < V.dataStart) {parent ino n : Nat} {name : CStr}
    (hev : Evolves {parent, ino} V V') (hroot : ino ≠ V.rootInode)
    (hnames : V.hierarchy.Names dot dotDot parent n ino)
    (hempty : ∀ {m j nm}, V.IsDir ino → V.entryAt ino m = some (j, nm) → nm = dot ∨ nm = dotDot)
    (hne : ino ≠ parent) (hfree : (V'.inode ino).mode = modeFree)
    (hpmode : (V'.inode parent).mode = (V.inode parent).mode)
    (hn : Leaves parent n ino name V V') : Orderly V' := by
  have hkeep : ∀ {e q}, V.IsDir e → e ≠ ino → ¬ (e = parent ∧ q = n) →
      V'.entryAt e q = V.entryAt e q := by
    intro e q he hei hat
    by_cases hep : e = parent
    · subst hep
      exact hn.rest fun hq => hat ⟨rfl, hq⟩
    · exact hev.entryAt_eq h0 he.1 (by simp [hep, hei]) q
  have hdir : ∀ j, V'.IsDir j ↔ V.IsDir j ∧ j ≠ ino := by
    intro j
    by_cases hji : j = ino
    · subst hji
      refine iff_of_false (fun hd => ?_) fun hd => hd.2 rfl
      exact modeDir_ne_free (hd.2.symm.trans hfree)
    · rw [and_iff_left hji]
      exact hev.isDir_iff (mode_of_pair hpmode hji)
  have hera : Hierarchy.Erased dot dotDot V.hierarchy V'.hierarchy parent n ino :=
    { root := hev.geo.rootInode
      notRoot := hroot
      other := hne
      named := hnames
      live := fun j => by
        by_cases hji : j = ino
        · subst hji
          exact iff_of_false (fun hl => hl.2 hfree) fun hl => hl.2 rfl
        · rw [and_iff_left hji]
          exact hev.live_iff (mode_of_pair hpmode hji)
      dir := hdir
      gone := hn.now
      keep := hkeep
      empty := hempty }
  refine ⟨h.tree.erase hera, ?_⟩
  intro d hd q j nm hq
  obtain ⟨hd', hdi⟩ := (hdir d).1 hd
  by_cases hat : d = parent ∧ q = n
  · obtain ⟨rfl, rfl⟩ := hat
    rw [hn.now] at hq
    cases hq
  · rw [hkeep hd' hdi hat] at hq
    exact h.short hd' _ _ _ hq

end Orderly

end

/-! ## Making nodes -/

/-- Slot `ino` was free and is in use, and `parent` has an entry for it if it is a
directory; a new directory has the two reserved entries. -/
structure Makes (parent ino : Nat) (name : CStr) (V V' : Vol) : Prop where
  evolves : Evolves {parent, ino} V V'
  isIno : V.IsIno ino
  free : (V.inode ino).mode = modeFree
  used : (V'.inode ino).mode ≠ modeFree
  parentMode : (V'.inode parent).mode = (V.inode parent).mode
  enters : V.IsDir parent → ∃ n, Enters parent n ino name V V'
  reserved : V'.IsDir ino → ∃ a b, a ≠ b ∧ V'.entryAt ino a = some (ino, dot) ∧
    V'.entryAt ino b = some (parent, dotDot) ∧ ∀ c, c ≠ a → c ≠ b → V'.entryAt ino c = none

/-- The entries of all directories are short and lead to inodes in use. -/
structure Sane (V : Vol) : Prop where
  root : V.Live V.rootInode
  short : ∀ {d}, V.IsDir d → V.ShortNames d
  target : ∀ {d n i name}, V.IsDir d → V.entryAt d n = some (i, name) → V.Live i

section

variable {V V' V'' : Vol} {parent ino : Nat} {name : CStr}

theorem Orderly.sane (h : Orderly V) : Sane V :=
  ⟨h.tree.dirLive h.tree.rootDir, h.short, h.tree.target⟩

theorem Sane.lookupIn (h : Sane V) {d i : Nat} (hlook : V.lookupIn d name = some i) : V.Live i := by
  obtain ⟨hd, n, hn⟩ := Vol.lookupIn_some hlook
  exact h.target hd hn

namespace Makes

section

variable (h : Makes parent ino name V V')

include h

theorem mode_eq {j : Nat} (hj : j ≠ ino)
    (hS : j ∈ ({parent, ino} : Set Nat)) : (V'.inode j).mode = (V.inode j).mode :=
  mode_of_pair h.parentMode hj hS

theorem live {j : Nat} (hj : V.Live j) : V'.Live j := by
  have hne : j ≠ ino := by
    rintro rfl
    exact hj.2 h.free
  exact (h.evolves.live_iff (h.mode_eq hne)).2 hj

theorem ne_of_isDir {d : Nat} (hd : V.IsDir d) : d ≠ ino := by
  rintro rfl
  exact modeDir_ne_free (hd.2.symm.trans h.free)

theorem live_new : V'.Live ino := ⟨h.evolves.geo.isIno.2 h.isIno, h.used⟩

/-- The node inserted in an orderly volume. -/
theorem orderly (hV : Orderly V) (h0 : 0 < V.dataStart)
    (hp : V.IsDir parent) (hname : name.length ≤ 59) (hmiss : V.lookupIn parent name = none) :
    Orderly V' := by
  obtain ⟨n, hn⟩ := h.enters hp
  exact hV.insert h0 h.evolves hp h.isIno h.free h.used h.parentMode hname
    (Vol.lookupIn_none hp hmiss) hn h.reserved

/-- The node made in a sane volume, whatever the parent is. -/
theorem sane (hV : Sane V) (h0 : 0 < V.dataStart)
    (hp : V.Live parent) (hname : name.length ≤ 59) : Sane V' := by
  have hdir : ∀ {d}, V'.IsDir d → d ≠ ino → V.IsDir d := fun hd hdi =>
    (h.evolves.isDir_iff (h.mode_eq hdi)).1 hd
  have hentry : ∀ {d n i nm}, V'.IsDir d → V'.entryAt d n = some (i, nm) →
      V'.Live i ∧ nm.length ≤ 59 := by
    intro d n i nm hd hn
    by_cases hdi : d = ino
    · subst hdi
      obtain ⟨a, b, _, ha, hb, hrest⟩ := h.reserved hd
      by_cases hna : n = a
      · rw [hna, ha] at hn
        cases hn
        exact ⟨h.live_new, by decide⟩
      by_cases hnb : n = b
      · rw [hnb, hb] at hn
        cases hn
        exact ⟨h.live hp, by decide⟩
      · rw [hrest n hna hnb] at hn
        cases hn
    have hd' := hdir hd hdi
    have hold : V.entryAt d n = some (i, nm) → V'.Live i ∧ nm.length ≤ 59 := fun hn' =>
      ⟨h.live (hV.target hd' hn'), hV.short hd' _ _ _ hn'⟩
    by_cases hdp : d = parent
    · subst hdp
      obtain ⟨m, hm⟩ := h.enters hd'
      by_cases hnm : n = m
      · rw [hnm, hm.now] at hn
        cases hn
        exact ⟨h.live_new, hname⟩
      · exact hold ((hm.rest hnm).symm.trans hn)
    · exact hold ((h.evolves.entryAt_eq h0 hd'.1 (by simp [hdp, hdi]) n).symm.trans hn)
  refine ⟨?_, fun hd n i nm hn => (hentry hd hn).2, fun hd hn => (hentry hd hn).1⟩
  rw [h.evolves.geo.rootInode]
  exact h.live hV.root

end

end Makes

/-- A step that no directory notices keeps a sane volume sane. -/
theorem Sane.keep (h : Sane V) (h0 : 0 < V.dataStart) {i : Nat} (hev : Evolves {i} V V')
    (hmode : (V'.inode i).mode = (V.inode i).mode) (hfile : ¬ V.IsDir i) : Sane V' := by
  have hlive : ∀ {j}, V'.Live j ↔ V.Live j := hev.live_iff fun hj => hj ▸ hmode
  have hdir : ∀ {j}, V'.IsDir j ↔ V.IsDir j := hev.isDir_iff fun hj => hj ▸ hmode
  have hentry : ∀ {d}, V.IsDir d → ∀ n, V'.entryAt d n = V.entryAt d n := fun hd =>
    hev.entryAt_eq h0 hd.1 fun hdi => hfile (hdi ▸ hd)
  refine ⟨?_, fun hd n j nm hn => ?_, fun hd hn => ?_⟩
  · rw [hev.geo.rootInode]
    exact hlive.2 h.root
  · rw [hentry (hdir.1 hd)] at hn
    exact h.short (hdir.1 hd) _ _ _ hn
  · rw [hentry (hdir.1 hd)] at hn
    exact hlive.2 (h.target (hdir.1 hd) hn)

end

/-! ## Volumes that grow -/

/-- Directories stay and keep their entries, and files in use but those in `X` stay
as they are. -/
structure Extends (X : Set Nat) (V V' : Vol) : Prop where
  geo : V.SameGeo V'
  dir : ∀ {d}, V.IsDir d → V'.IsDir d
  entry : ∀ {d n e}, V.IsDir d → V.entryAt d n = some e → V'.entryAt d n = some e
  file : ∀ {i}, V.Live i → ¬ V.IsDir i → i ∉ X →
    V'.inode i = V.inode i ∧ ∀ b, V'.fetch (V'.inode i) b = V.fetch (V.inode i) b

namespace Extends

variable {X Y : Set Nat} {V V' V'' : Vol}

theorem refl (X : Set Nat) (V : Vol) : Extends X V V :=
  ⟨Vol.SameGeo.refl V, id, fun _ hn => hn, fun _ _ _ => ⟨rfl, fun _ => rfl⟩⟩

theorem mono (h : Extends X V V') (hX : X ⊆ Y) : Extends Y V V' :=
  ⟨h.geo, h.dir, h.entry, fun hl hd hi => h.file hl hd fun hi' => hi (hX hi')⟩

theorem trans (h : Extends X V V') (h' : Extends X V' V'') : Extends X V V'' where
  geo := h.geo.trans h'.geo
  dir := fun hd => h'.dir (h.dir hd)
  entry := fun hd hn => h'.entry (h.dir hd) (h.entry hd hn)
  file := fun {i} hl hd hi => by
    obtain ⟨hrec, hfetch⟩ := h.file hl hd hi
    have hino : V'.IsIno i := h.geo.isIno.2 hl.1
    obtain ⟨hrec', hfetch'⟩ := h'.file (i := i) ⟨hino, by rw [hrec]; exact hl.2⟩
      (fun hd' => hd ⟨hl.1, by rw [← hrec]; exact hd'.2⟩) hi
    exact ⟨hrec'.trans hrec, fun b => (hfetch' b).trans (hfetch b)⟩

/-- Paths that lead somewhere still lead there. -/
theorem walk (h : Extends X V V') (hV' : Orderly V') {names : List CStr} {d i : Nat}
    (hwalk : V.walk names d = some i) : V'.walk names d = some i := by
  induction names generalizing d with
  | nil => exact hwalk
  | cons name rest ih =>
    obtain ⟨next, hlook, hrest⟩ := V.walk_cons_some hwalk
    obtain ⟨hd, n, hn⟩ := Vol.lookupIn_some hlook
    rw [Vol.walk, hV'.lookupIn_eq (h.dir hd) (h.entry hd hn)]
    exact ih hrest

end Extends

/-- Making a node in a directory extends the volume. -/
theorem Makes.extends {V V' : Vol} {parent ino : Nat} {name : CStr}
    (h : Makes parent ino name V V') (h0 : 0 < V.dataStart) (hp : V.IsDir parent) :
    Extends ∅ V V' where
  geo := h.evolves.geo
  dir := fun hd => (h.evolves.isDir_iff (h.mode_eq (h.ne_of_isDir hd))).2 hd
  entry := fun {d n e} hd hn => by
    have hdi := h.ne_of_isDir hd
    by_cases hdp : d = parent
    · subst hdp
      obtain ⟨m, hm⟩ := h.enters hp
      have hnm : n ≠ m := by
        rintro rfl
        rw [hm.was] at hn
        cases hn
      exact (hm.rest hnm).trans hn
    · exact (h.evolves.entryAt_eq h0 hd.1 (by simp [hdp, hdi]) n).trans hn
  file := fun {i} hl hd _ => by
    have hi : i ∉ ({parent, ino} : Set Nat) := by
      rintro (rfl | rfl)
      · exact hd hp
      · exact hl.2 h.free
    exact ⟨h.evolves.inode hl.1 hi, h.evolves.fetch_eq h0 hl.1 hi⟩

/-- Rewriting a file that is not a directory extends the volume but for that file. -/
theorem Evolves.extends {V V' : Vol} {i : Nat} (h : Evolves {i} V V') (h0 : 0 < V.dataStart)
    (hmode : (V'.inode i).mode = (V.inode i).mode) (hfile : ¬ V.IsDir i) : Extends {i} V V' where
  geo := h.geo
  dir := fun hd => (h.isDir_iff fun hj => hj ▸ hmode).2 hd
  entry := fun hd hn => (h.entryAt_eq h0 hd.1 (fun hdi => hfile (hdi ▸ hd)) _).trans hn
  file := fun hl _ hj => ⟨h.inode hl.1 hj, h.fetch_eq h0 hl.1 hj⟩

end LufiraFs
