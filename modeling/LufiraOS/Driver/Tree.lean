import LufiraOS.Driver.Paths
import LufiraOS.Volume.Tree
import LufiraOS.Lib.Run

/-!
# The directory tree under path operations

`Tidy` is the state between two path operations in an environment in which
nothing fails: the volume is sound and orderly.  Creating in a directory inserts
a node, removing under any name but `"."` erases one.
-/

namespace LufiraFs

open ByteStore

namespace Mount

/-- A mount between two operations: nothing will fail, ownership holds, and the
tree is in order. -/
structure Tidy (fs : Mount) : Prop where
  ready : fs.Ready
  env : fs.env = Env.allOk
  sound : Sound fs.vol
  orderly : Orderly fs.vol

section

variable {fs fs' : Mount} {S : Set Nat} {ino parent : Nat} {name : CStr}

theorem Step.allOk (h : Step S fs fs') (henv : fs.env = Env.allOk) : fs'.env = Env.allOk := by
  have hused := h.used
  rw [henv] at hused
  exact hused.allOk

theorem Step.entryAt_eq (h : Step S fs fs') (hready : fs.Ready) {d : Nat} (hd : fs.vol.IsIno d)
    (hS : d ∉ S) (n : Nat) : fs'.vol.entryAt d n = fs.vol.entryAt d n :=
  h.evolves.entryAt_eq hready.dataStart_pos hd hS n

/-! ## Creating -/

/-- The two entries of a new directory. -/
theorem addDots_enters (h : fs.Ready) (hs : Sound fs.vol)
    (hi : fs.vol.IsIno ino) (hp : fs.vol.IsIno parent) (hsize : (fs.vol.inode ino).size = 0)
    (mode : UInt32) :
    ∃ ok fs', fs.addDots ino parent mode = (ok, fs') ∧ Step {ino} fs fs' ∧
      (fs'.vol.inode ino).mode = (fs.vol.inode ino).mode ∧
      (ok = true → mode = modeDir → ∃ a b, a ≠ b ∧ fs'.vol.entryAt ino a = some (ino, dot) ∧
        fs'.vol.entryAt ino b = some (parent, dotDot) ∧
        ∀ c, c ≠ a → c ≠ b → fs'.vol.entryAt ino c = none) := by
  have hempty := Vol.entryAt_of_size hsize
  have hshort : fs.vol.ShortNames ino := by
    intro n i nm hn
    rw [hempty] at hn
    cases hn
  have hbound : ∀ {j}, fs.vol.IsIno j → j ≠ 0 ∧ j < 4294967296 := by
    intro j hj
    have := h.isIno_iff.1 hj
    omega
  unfold addDots
  split
  · obtain ⟨ok, fs₁, hadd, hstep, hmode, _, henters⟩ := addDirent_enters h hs hi hshort
      (show dot.length ≤ 59 by decide) (hbound hi).1 (hbound hi).2
    cases ok with
    | false => exact ⟨false, fs₁, by simp only [hadd], hstep, hmode, by simp⟩
    | true =>
      obtain ⟨a, ha⟩ := henters rfl
      obtain ⟨ok, fs₂, hadd', hstep', hmode', _, henters'⟩ := addDirent_enters hstep.ready
        hstep.sound (hstep.isIno.2 hi) (ha.shortNames hshort (by decide))
        (show dotDot.length ≤ 59 by decide) (hbound hp).1 (hbound hp).2
      refine ⟨ok, fs₂, by simp only [hadd, hadd'], hstep.trans hstep', hmode'.trans hmode,
        fun hok _ => ?_⟩
      obtain ⟨b, hb⟩ := henters' hok
      have hab : a ≠ b := by
        rintro rfl
        have hwas := hb.was
        rw [ha.now] at hwas
        cases hwas
      refine ⟨a, b, hab, (hb.rest hab).trans ha.now, hb.now, fun c hca hcb => ?_⟩
      rw [hb.rest hcb, ha.rest hca, hempty]
  · next hmode => exact ⟨true, fs, rfl, .refl h hs _, rfl, fun _ hdir => absurd hdir hmode⟩

/-- A slot that was free and has been given back leaves the tree as it was. -/
theorem Tidy.giveBack (h : Tidy fs) (hp : fs.vol.IsDir parent)
    (hne : parent ≠ ino) (hi : fs.vol.IsIno ino) (hfree : (fs.vol.inode ino).mode = modeFree)
    (hstep : Step {parent, ino} fs fs')
    (hmode : (fs'.vol.inode parent).mode = (fs.vol.inode parent).mode)
    (hentries : ∀ n, fs'.vol.entryAt parent n = fs.vol.entryAt parent n) :
    Tidy (fs'.freeInodeSlot ino) := by
  have hi' : fs'.vol.IsIno ino := hstep.isIno.2 hi
  have hgive := freeInodeSlot_step hstep.ready hstep.sound hi'
  have hall := hstep.trans (hgive.mono (show ({ino} : Set Nat) ⊆ {parent, ino} by simp))
  have hbec := freeInodeSlot_becomes hstep.ready hi'
  refine ⟨hall.ready, hall.allOk h.env, hall.sound,
    h.orderly.keep h.ready.dataStart_pos hall.evolves ?_ ?_⟩
  · rintro i _ (rfl | rfl)
    · rw [hbec.vol, Vol.setInode_inode_ne _ _ hne, hmode]
    · rw [hbec.vol, Vol.setInode_inode_same, hfree]
      rfl
  · rintro d hd (rfl | rfl) n
    · rw [hgive.entryAt_eq hstep.ready (hstep.isIno.2 hp.1) (by simp [hne]), hentries]
    · exact absurd (hd.2.symm.trans hfree) modeDir_ne_free

/-- **Creating behind the checks** inserts a node, or gives the slot back. -/
theorem Tidy.createInode (h : Tidy fs) {mode : UInt32}
    (hp : fs.vol.IsDir parent) (hi : fs.vol.IsIno ino)
    (hfree : (fs.vol.inode ino).mode = modeFree) (hname : name.length ≤ 59)
    (hfresh : ∀ n j, fs.vol.entryAt parent n ≠ some (j, name))
    (hmode : mode ≠ modeFree) (uid gid perm : UInt32) :
    Tidy (fs.createInode parent name mode uid gid perm ino).2 := by
  have hne : parent ≠ ino := by
    rintro rfl
    exact modeDir_ne_free (hp.2.symm.trans hfree)
  have hsub : ({ino} : Set Nat) ⊆ {parent, ino} := by simp
  have hsub' : ({parent} : Set Nat) ⊆ {parent, ino} := by simp
  have hbec := writeInode_becomes h.ready hi (newInode mode uid gid perm)
  have hwrite : Step {ino} fs (fs.writeInode ino (newInode mode uid gid perm)) :=
    .ofBecomes hbec (h.sound.setInode fun _ => Or.inr (ptrOf_of_none rfl rfl _ _))
      (.setInode _ _ _) rfl rfl
  have hrec : (fs.writeInode ino (newInode mode uid gid perm)).vol.inode ino =
      newInode mode uid gid perm := by
    rw [hbec.vol, Vol.setInode_inode_same]
  obtain ⟨ok, fs₁, hdots, hstep₁, hmode₁, hreserved⟩ := addDots_enters hwrite.ready hwrite.sound
    (hwrite.isIno.2 hi) (hwrite.isIno.2 hp.1) (by rw [hrec]; rfl) mode
  rw [hrec] at hmode₁
  have hone := hwrite.trans hstep₁
  -- nothing has happened to the parent yet
  have hparent : fs₁.vol.inode parent = fs.vol.inode parent :=
    hone.evolves.inode hp.1 (by simp [hne])
  have hentries : ∀ n, fs₁.vol.entryAt parent n = fs.vol.entryAt parent n :=
    hone.entryAt_eq h.ready hp.1 (by simp [hne])
  unfold Mount.createInode
  simp only [hdots]
  cases ok with
  | false => exact h.giveBack hp hne hi hfree (hone.mono hsub) (by rw [hparent]) hentries
  | true =>
    have hshort : fs₁.vol.ShortNames parent := by
      intro n j nm hn
      rw [hentries] at hn
      exact h.orderly.short hp _ _ _ hn
    have hbound := h.ready.isIno_iff.1 hi
    obtain ⟨ok, fs₂, hadd, hstep₂, hmode₂, hkept, henters⟩ := addDirent_enters hone.ready
      hone.sound (hone.isIno.2 hp.1) hshort hname (show ino ≠ 0 by omega) (by omega)
    have hall := (hone.mono hsub).trans (hstep₂.mono hsub')
    simp only [hadd]
    cases ok with
    | false =>
      exact h.giveBack hp hne hi hfree hall (by rw [hmode₂, hparent]) fun n => by
        rw [hkept rfl, hentries]
    | true =>
      obtain ⟨n, hn⟩ := henters rfl
      have hino : fs₂.vol.inode ino = fs₁.vol.inode ino :=
        hstep₂.evolves.inode (hone.isIno.2 hi) (by simp [hne.symm])
      have hinoMode : (fs₂.vol.inode ino).mode = mode := by rw [hino, hmode₁]; rfl
      have hinoEntry : ∀ m, fs₂.vol.entryAt ino m = fs₁.vol.entryAt ino m :=
        hstep₂.entryAt_eq hone.ready (hone.isIno.2 hi) (by simp [hne.symm])
      refine ⟨hall.ready, hall.allOk h.env, hall.sound,
        h.orderly.insert h.ready.dataStart_pos (n := n) hall.evolves hp hi hfree ?_ ?_ hname
          hfresh ?_ ?_⟩
      · rw [hinoMode]
        exact hmode
      · rw [hmode₂, hparent]
      · exact ⟨(hentries n).symm.trans hn.was, hn.now, fun hm => (hn.rest hm).trans (hentries _)⟩
      · intro hd
        obtain ⟨a, b, hab, ha, hb, hrest⟩ := hreserved rfl (hinoMode.symm.trans hd.2)
        exact ⟨a, b, hab, (hinoEntry a).trans ha, (hinoEntry b).trans hb,
          fun c hca hcb => (hinoEntry c).trans (hrest c hca hcb)⟩

/-- **`lufirafs_create`** in a directory keeps the tree well formed. -/
theorem Tidy.create (h : Tidy fs) {mode : UInt32}
    (hp : fs.vol.IsDir parent) (hname : name.length ≤ 59) (hmode : mode ≠ modeFree)
    (uid gid perm : UInt32) : Tidy (fs.create parent name mode uid gid perm).2 := by
  rcases create_cases h.ready parent name mode uid gid perm with
    ⟨res, e, heq, hleads⟩ | ⟨ino, fs₁, heq, hi, hfree, hbec, hnone⟩
  · rw [heq, withEnv_of_allOk h.env hleads]
    exact h
  have hfresh := Vol.lookupIn_none hp (hnone h.env)
  have hcount := Step.takeInode h.sound ∅ hbec
  have h₁ : Tidy fs₁ := ⟨hcount.ready, hcount.allOk h.env, hcount.sound, by
    rw [hbec.vol]
    exact h.orderly⟩
  rw [heq]
  rw [← hbec.vol] at hp hi hfree hfresh
  exact h₁.createInode hp hi hfree hname hfresh hmode uid gid perm

/-- **`lufirafs_unlink`** of any name but `"."` keeps the tree well formed. -/
theorem Tidy.unlink (h : Tidy fs) (parent : Nat) (hdot : name ≠ dot) :
    Tidy (fs.unlink parent name).2 := by
  rcases unlink_cases h.ready parent name with
    ⟨res, e, heq, hleads, _⟩ | ⟨ino, e, heq, hleads, hi, hroot, _, hok⟩
  · rw [heq, withEnv_of_allOk h.env hleads]
    exact h
  rw [heq, withEnv_of_allOk h.env hleads]
  obtain ⟨hlook, hextra⟩ := hok h.env
  obtain ⟨hp, n, hn⟩ := Vol.lookupIn_some hlook
  -- a directory passes the scan only when its entries are `"."` and `".."`
  have hempty : ∀ {m j nm}, fs.vol.IsDir ino → fs.vol.entryAt ino m = some (j, nm) →
      nm = dot ∨ nm = dotDot := by
    intro m j nm hd hm
    exact countExtra_zero h.ready h.env hi (h.orderly.short hd) (by omega) (hextra hd.2)
      (Nat.zero_le _) hm
  have hproper : ∀ {q j}, ¬ fs.vol.hierarchy.Names dot dotDot ino q j := by
    rintro q j ⟨hd, nm, hs, hpar, hq⟩
    rcases hempty hd hq with rfl | rfl
    · exact hs rfl
    · exact hpar rfl
  have hdotDot : name ≠ dotDot := by
    rintro rfl
    by_cases hpr : parent = fs.vol.rootInode
    · subst hpr
      obtain ⟨m, hm⟩ := h.orderly.tree.rootParent
      obtain rfl : m = n := h.orderly.tree.unique hp hm hn
      rw [show fs.vol.entryAt fs.vol.rootInode m = some (fs.vol.rootInode, dotDot) from hm] at hn
      obtain ⟨hino, _⟩ := Prod.mk.inj (Option.some.inj hn)
      exact hroot hino.symm
    obtain ⟨m, q, g, hm, hg⟩ := h.orderly.tree.parentEntry hp hpr
    obtain rfl : m = n := h.orderly.tree.unique hp hm hn
    rw [show fs.vol.entryAt parent m = some (g, dotDot) from hm] at hn
    obtain ⟨rfl, _⟩ := Prod.mk.inj (Option.some.inj hn)
    exact hproper hg
  have hnames : fs.vol.hierarchy.Names dot dotDot parent n ino := ⟨hp, name, hdot, hdotDot, hn⟩
  have hne : ino ≠ parent := by
    rintro rfl
    exact hproper hnames
  obtain ⟨hfreed, hzero⟩ := releaseInode_step h.ready h.sound hi
  have hparent : (fs.releaseInode ino (fs.vol.inode ino)).vol.inode parent = fs.vol.inode parent :=
    hfreed.evolves.inode hp.1 (by simp [hne.symm])
  have hentries : ∀ m, (fs.releaseInode ino (fs.vol.inode ino)).vol.entryAt parent m =
      fs.vol.entryAt parent m := hfreed.entryAt_eq h.ready hp.1 (by simp [hne.symm])
  have hp' := (hfreed.evolves.isDir_iff (d := parent) (by simp [hne.symm])).2 hp
  have hremove := removeDirent_step hfreed.ready hfreed.sound parent name
  obtain ⟨m, j, hleaves, htable⟩ := removeDirent_leaves hfreed.ready (hfreed.allOk h.env)
    hfreed.sound hp' (fun m j nm hm => h.orderly.short hp m j nm ((hentries m).symm.trans hm))
    ((hentries n).trans hn)
  obtain rfl : m = n := h.orderly.tree.unique hp ((hentries m).symm.trans hleaves.was) hn
  have hall := unlinkInode_step h.ready h.sound hi parent name
  unfold unlinkInode at hall ⊢
  generalize ((fs.releaseInode ino (fs.vol.inode ino)).removeDirent parent name).2 = fs₂
    at hleaves htable hremove hall ⊢
  refine ⟨hall.ready, hall.allOk h.env, hall.sound,
    h.orderly.erase h.ready.dataStart_pos hall.evolves hroot hnames hempty hne ?_ ?_
      ⟨hn, hleaves.now, fun hm => (hleaves.rest hm).trans (hentries _)⟩⟩
  · rw [htable, hzero]
    rfl
  · rw [htable, hparent]

/-! ## Runs of path operations -/

theorem Tidy.sync (h : Tidy fs) : Tidy fs.sync := by
  have hbec := sync_becomes h.ready
  have hstep : Step ∅ fs fs.sync := .ofBecomes hbec h.sound (.refl _ _) rfl rfl
  refine ⟨hstep.ready, hstep.allOk h.env, hstep.sound, ?_⟩
  rw [hbec.vol]
  exact h.orderly

end

/-- A path operation of a process with the given base directory and owner ids. -/
inductive PathOp where
  | create (base : UInt32) (path : CStr) (uid gid : UInt32)
  | mkdir (base : UInt32) (path : CStr) (uid gid : UInt32)
  | unlink (base : UInt32) (path : CStr)

/-- Perform a path operation, whatever it returns. -/
def execPath (fs : Mount) : PathOp → Mount
  | .create base path uid gid => (fs.createAt base.toNat path uid gid).2
  | .mkdir base path uid gid => (fs.mkdirAt base.toNat path uid gid).2
  | .unlink base path => (fs.unlinkAt base.toNat path).2

/-- What an operation may be asked to do: create in a directory, and remove under
another name than `"."`. -/
def Proper (fs : Mount) : PathOp → Prop
  | .create base path _ _ | .mkdir base path _ _ =>
    ∀ found ∈ (fs.resolveParent base.toNat path).1, fs.vol.IsDir found.1
  | .unlink base path => ∀ found ∈ (fs.resolveParent base.toNat path).1, found.2 ≠ dot

instance (fs : Mount) (op : PathOp) : Decidable (fs.Proper op) :=
  match op with
  | .create base path _ _ | .mkdir base path _ _ =>
    inferInstanceAs (Decidable (∀ found ∈ (fs.resolveParent base.toNat path).1,
      fs.vol.IsDir found.1))
  | .unlink base path =>
    inferInstanceAs (Decidable (∀ found ∈ (fs.resolveParent base.toNat path).1, found.2 ≠ dot))

section

variable {fs : Mount}

/-- Creating at a path whose parent is a directory. -/
theorem Tidy.makeAt (h : Tidy fs) {base : Nat} {path : CStr} {mode : UInt32}
    (hp : ∀ found ∈ (fs.resolveParent base path).1, fs.vol.IsDir found.1)
    (hmode : mode ≠ modeFree) (uid gid perm : UInt32) :
    Tidy (fs.makeAt base path mode uid gid perm).2 := by
  obtain ⟨res, e, hresolve, hleads, hshort⟩ := resolveParent_eq h.ready base path
  rw [withEnv_of_allOk h.env hleads] at hresolve
  rw [hresolve] at hp
  unfold Mount.makeAt
  simp only [hresolve]
  cases res with
  | none => exact h
  | some found =>
    obtain ⟨parent, name⟩ := found
    have hcreate := h.create (hp (parent, name) rfl) (hshort parent name rfl) hmode uid gid perm
    simp only
    split
    · next heq => rwa [heq] at hcreate
    · next heq =>
      rw [heq] at hcreate
      exact hcreate.sync

/-- One proper operation keeps the tree well formed. -/
theorem Tidy.execPath (h : Tidy fs) (op : PathOp) (hop : fs.Proper op) : Tidy (fs.execPath op) := by
  cases op with
  | create base path uid gid =>
    show Tidy (fs.createAt base.toNat path uid gid).2
    unfold createAt
    split
    · exact h
    · exact h.makeAt hop (by decide) uid gid _
  | mkdir base path uid gid =>
    show Tidy (fs.mkdirAt base.toNat path uid gid).2
    unfold mkdirAt
    split
    · exact h
    split
    · exact h
    · exact h.makeAt hop (by decide) uid gid _
  | unlink base path =>
    obtain ⟨res, e, hresolve, hleads, _⟩ := resolveParent_eq h.ready base.toNat path
    rw [withEnv_of_allOk h.env hleads] at hresolve
    show Tidy (fs.unlinkAt base.toNat path).2
    simp only [Proper, hresolve] at hop
    unfold unlinkAt
    split
    · exact h
    split
    · exact h
    simp only [hresolve]
    cases res with
    | none => exact h
    | some found =>
      obtain ⟨parent, name⟩ := found
      have hunlink := h.unlink parent (hop (parent, name) rfl)
      simp only
      split
      · exact hunlink.sync
      · exact hunlink

end

end Mount

end LufiraFs
