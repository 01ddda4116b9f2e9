import LufiraOS.Fat.Core
import LufiraOS.Lib.FirstFit
import Mathlib.Data.List.Nodup
import Mathlib.Data.List.Perm.Subperm

/-!
# Chains in the allocation table

What the operations on the table do to the clusters of a chain: freeing a chain clears its
clusters and no other, and allocating appends a cluster that was free.
-/

namespace Fat

open List

/-- The least end-of-chain mark. -/
def eocLimit : Width → Nat
  | .fat12 => 0xFF8
  | .fat16 => 0xFFF8
  | .fat32 => 0x0FFFFFF8

/-- What an entry of the table is read as. -/
def readAs (w : Width) (x : Nat) : Nat :=
  match w with
  | .fat12 => if x ≥ 0xFF8 then x + 0xFFFFF000 else x
  | .fat16 => x
  | .fat32 => x % 2 ^ 28

theorem readAs_stored {w : Width} {v : Nat} (h : v < eocLimit w) :
    readAs w (Fs.stored w v) = v := by
  cases w with
  | fat12 =>
    have hmod : Fs.stored .fat12 v = v := Nat.mod_eq_of_lt (by simp only [eocLimit] at h; omega)
    rw [hmod]
    exact if_neg (Nat.not_le.2 h)
  | fat16 => exact Nat.mod_eq_of_lt (by simp only [eocLimit] at h; omega)
  | fat32 =>
    simp only [readAs, Fs.stored, eocLimit] at h ⊢
    omega

theorem eocLimit_le_readAs (w : Width) : eocLimit w ≤ readAs w (Fs.stored w (Fs.eocMark w)) := by
  cases w <;> decide

namespace Fs

variable {fs'' : Fs} {n prev : Nat}

variable {fs fs' : Fs} {c x v : Nat} {l : List Nat}

theorem isEoc_eq (fs : Fs) (v : Nat) : fs.isEoc v = decide (eocLimit fs.width ≤ v) := by
  unfold isEoc eocLimit
  cases fs.width <;> rfl

theorem getFatEntry_eq (fs : Fs) (c : Nat) :
    fs.getFatEntry c = if fs.InRange c then readAs fs.width (fs.fat c) else 0x0FFFFFFF := by
  unfold getFatEntry readAs
  cases fs.width <;> rfl

/-- Volumes that differ in the table and the entries only. -/
structure SameShape (fs fs' : Fs) : Prop where
  width : fs'.width = fs.width
  maxCluster : fs'.maxCluster = fs.maxCluster
  clusterSize : fs'.clusterSize = fs.clusterSize
  rootChain : fs'.rootChain = fs.rootChain

theorem SameShape.refl (fs : Fs) : SameShape fs fs := ⟨rfl, rfl, rfl, rfl⟩

theorem SameShape.trans (h : SameShape fs fs') (h' : SameShape fs' fs'') :
    SameShape fs fs'' :=
  ⟨h'.width.trans h.width, h'.maxCluster.trans h.maxCluster, h'.clusterSize.trans h.clusterSize,
    h'.rootChain.trans h.rootChain⟩

theorem SameShape.inRange (h : SameShape fs fs') : fs'.InRange c ↔ fs.InRange c := by
  rw [InRange, h.maxCluster, InRange]

theorem SameShape.isEoc (h : SameShape fs fs') (v : Nat) : fs'.isEoc v = fs.isEoc v := by
  rw [isEoc_eq, h.width, isEoc_eq]

theorem sameShape_set (fs : Fs) (c v : Nat) : SameShape fs (fs.setFatEntry c v) := by
  unfold setFatEntry
  split <;> exact ⟨rfl, rfl, rfl, rfl⟩

theorem root_set (fs : Fs) (c v : Nat) : (fs.setFatEntry c v).root = fs.root := by
  unfold setFatEntry
  split <;> rfl

theorem get_set_of_ne (h : x ≠ c) : (fs.setFatEntry c v).getFatEntry x = fs.getFatEntry x := by
  rw [getFatEntry_eq, getFatEntry_eq, (sameShape_set fs c v).width]
  have hfat : (fs.setFatEntry c v).fat x = fs.fat x := by
    unfold setFatEntry
    split
    · exact Function.update_of_ne h ..
    · rfl
  simp only [hfat, (sameShape_set fs c v).inRange]

theorem get_set_self (h : fs.InRange c) :
    (fs.setFatEntry c v).getFatEntry c = readAs fs.width (stored fs.width v) := by
  rw [getFatEntry_eq, if_pos ((sameShape_set fs c v).inRange.2 h), (sameShape_set fs c v).width,
    setFatEntry, if_pos h]
  exact congrArg _ (Function.update_self ..)

theorem get_set_zero (h : fs.InRange c) : (fs.setFatEntry c 0).getFatEntry c = 0 := by
  rw [get_set_self h]
  exact readAs_stored (by cases fs.width <;> decide)

theorem get_set_cluster (h : fs.InRange c) (hv : v < eocLimit fs.width) :
    (fs.setFatEntry c v).getFatEntry c = v := by
  rw [get_set_self h, readAs_stored hv]

theorem isEoc_set_eoc (h : fs.InRange c) :
    fs.isEoc ((fs.setFatEntry c (eocMark fs.width)).getFatEntry c) = true := by
  rw [get_set_self h, isEoc_eq]
  exact decide_eq_true (eocLimit_le_readAs _)

theorem isEoc_zero (fs : Fs) : fs.isEoc 0 = false := by
  rw [isEoc_eq]
  cases fs.width <;> rfl

/-! ## Chains -/

/-- The clusters from `c` to one whose entry ends the walk of `free_cluster_chain`. -/
inductive IsPath (fs : Fs) : Nat → List Nat → Prop
  | last {c : Nat} : fs.InRange c → (fs.isEoc (fs.getFatEntry c) = true ∨ fs.getFatEntry c < 2) →
      IsPath fs c [c]
  | step {c : Nat} {l : List Nat} : fs.InRange c → fs.isEoc (fs.getFatEntry c) = false →
      IsPath fs (fs.getFatEntry c) l → IsPath fs c (c :: l)

/-- **A chain**: allocated clusters from `c` to one with an end-of-chain mark. -/
inductive IsChain (fs : Fs) : Nat → List Nat → Prop
  | last {c : Nat} : fs.InRange c → fs.isEoc (fs.getFatEntry c) = true → IsChain fs c [c]
  | step {c : Nat} {l : List Nat} : fs.InRange c → fs.isEoc (fs.getFatEntry c) = false →
      IsChain fs (fs.getFatEntry c) l → IsChain fs c (c :: l)

theorem IsChain.isPath (h : IsChain fs c l) : IsPath fs c l := by
  induction h with
  | last hc he => exact .last hc (.inl he)
  | step hc he _ ih => exact .step hc he ih

theorem IsPath.inRange (h : IsPath fs c l) : fs.InRange c ∧ ∀ x ∈ l, fs.InRange x := by
  induction h with
  | last hc _ => exact ⟨hc, by simpa using hc⟩
  | step hc _ _ ih => exact ⟨hc, by simpa using ⟨hc, ih.2⟩⟩

theorem IsPath.mem_self (h : IsPath fs c l) : c ∈ l := by
  cases h <;> simp

theorem IsChain.ne_zero (h : IsChain fs c l) : ∀ x ∈ l, fs.getFatEntry x ≠ 0 := by
  induction h with
  | last _ he =>
    intro x hx hzero
    rw [mem_singleton.1 hx] at hzero
    rw [hzero, isEoc_zero] at he
    exact Bool.noConfusion he
  | step _ _ hrest ih =>
    intro x hx
    rcases mem_cons.1 hx with rfl | hx
    · have := hrest.isPath.inRange.1.1
      omega
    · exact ih x hx

/-- A path depends on the entries of its own clusters only. -/
theorem IsPath.congr (hshape : SameShape fs fs') (h : IsPath fs c l)
    (hget : ∀ x ∈ l, fs'.getFatEntry x = fs.getFatEntry x) : IsPath fs' c l := by
  induction h with
  | last hc he =>
    refine .last (hshape.inRange.2 hc) ?_
    rw [hget _ (by simp), hshape.isEoc]
    exact he
  | @step c l hc he _ ih =>
    have hself := hget c (by simp)
    refine .step (hshape.inRange.2 hc) (by rw [hself, hshape.isEoc]; exact he) ?_
    rw [hself]
    exact ih fun x hx => hget x (by simp [hx])

/-- A chain is a path whose last entry is an end-of-chain mark. -/
theorem isChain_iff : IsChain fs c l ↔
    IsPath fs c l ∧ ∀ x, l.getLast? = some x → fs.isEoc (fs.getFatEntry x) = true := by
  constructor
  · intro h
    refine ⟨h.isPath, ?_⟩
    induction h with
    | last _ he => simpa using he
    | step _ _ hrest ih =>
      rw [getLast?_cons_of_ne_nil (ne_nil_of_mem hrest.isPath.mem_self)]
      exact ih
  rintro ⟨h, hlast⟩
  induction h with
  | last hc _ => exact .last hc (hlast _ rfl)
  | step hc he hrest ih =>
    rw [getLast?_cons_of_ne_nil (ne_nil_of_mem hrest.mem_self)] at hlast
    exact .step hc he (ih hlast)

theorem IsChain.congr (hshape : SameShape fs fs') (h : IsChain fs c l)
    (hget : ∀ x ∈ l, fs'.getFatEntry x = fs.getFatEntry x) : IsChain fs' c l := by
  obtain ⟨hpath, hlast⟩ := isChain_iff.1 h
  refine isChain_iff.2 ⟨hpath.congr hshape hget, fun x hx => ?_⟩
  rw [hget x (mem_of_getLast? hx), hshape.isEoc]
  exact hlast x hx

/-- A cluster has one chain only. -/
theorem IsChain.unique {l' : List Nat} (h : IsChain fs c l) (h' : IsChain fs c l') : l = l' := by
  induction h generalizing l' with
  | last _ he =>
    cases h' with
    | last _ _ => rfl
    | step _ he' _ => exact Bool.noConfusion (he.symm.trans he')
  | step _ he _ ih =>
    cases h' with
    | last _ he' => exact Bool.noConfusion (he.symm.trans he')
    | step _ _ hrest => rw [ih hrest]

/-! ## Freeing -/

/-- The clusters `l` are free afterwards, everything else is as before. -/
structure Freed (fs fs' : Fs) (l : List Nat) : Prop where
  shape : SameShape fs fs'
  root : fs'.root = fs.root
  freed : ∀ x ∈ l, fs'.getFatEntry x = 0
  other : ∀ x, x ∉ l → fs'.getFatEntry x = fs.getFatEntry x

theorem freed_freeLoop (h : IsPath fs c l) (hnodup : l.Nodup) (hn : l.length ≤ n) :
    Freed fs (freeLoop n fs c) l := by
  induction l generalizing fs c n with
  | nil => cases h
  | cons d l ih =>
    obtain ⟨m, rfl⟩ := Nat.exists_eq_succ_of_ne_zero (by simp at hn; omega : n ≠ 0)
    have hrange := h.inRange.1
    have hshape := sameShape_set fs c 0
    rw [freeLoop, if_neg (by have := hrange.1; omega)]
    dsimp only
    rw [hshape.isEoc]
    cases h with
    | last hc he =>
      have hone : Freed fs (fs.setFatEntry d 0) [d] := by
        refine ⟨hshape, root_set .., fun x hx => ?_, fun x hx => ?_⟩
        · rw [mem_singleton.1 hx, get_set_zero hc]
        · exact get_set_of_ne (by simpa using hx)
      cases he' : fs.isEoc (fs.getFatEntry d) with
      | true => exact hone
      | false =>
        have hlt := he.resolve_left (by simp [he'])
        rw [if_neg Bool.false_ne_true]
        cases m with
        | zero => exact hone
        | succ m =>
          rw [freeLoop, if_pos hlt]
          exact hone
    | step hc he hrest =>
      rw [he, if_neg Bool.false_ne_true]
      obtain ⟨hcl, hnodup'⟩ := nodup_cons.1 hnodup
      have hkeep : ∀ x ∈ l, (fs.setFatEntry d 0).getFatEntry x = fs.getFatEntry x :=
        fun x hx => get_set_of_ne fun heq => hcl (heq ▸ hx)
      have hloop := ih (hrest.congr hshape hkeep) hnodup' (by simpa using hn)
      refine ⟨hshape.trans hloop.shape, hloop.root.trans (root_set ..), fun x hx => ?_,
        fun x hx => ?_⟩
      · rcases mem_cons.1 hx with rfl | hx
        · rw [hloop.other _ hcl, get_set_zero hc]
        · exact hloop.freed x hx
      · rw [mem_cons, not_or] at hx
        rw [hloop.other x hx.2, get_set_of_ne hx.1]

theorem IsPath.length_le (h : IsPath fs c l) (hnodup : l.Nodup) : l.length ≤ fs.maxCluster := by
  have hsub : l ⊆ List.range fs.maxCluster := fun x hx =>
    mem_range.2 (h.inRange.2 x hx).2
  have hle := (subperm_of_subset hnodup hsub).length_le
  rwa [length_range] at hle

/-- **`free_cluster_chain`** frees the clusters of a path and no other. -/
theorem freed_freeClusterChain (h : IsPath fs c l) (hnodup : l.Nodup) :
    Freed fs (fs.freeClusterChain c) l :=
  freed_freeLoop h hnodup (Nat.le_succ_of_le (h.length_le hnodup))

/-! ## Allocating -/

theorem mem_clusters : c ∈ (List.range fs.maxCluster).drop 2 ↔ fs.InRange c := by
  rw [range_eq_range', drop_range', mem_range'_1, InRange]
  omega

theorem findFreeCluster_some (h : fs.findFreeCluster = some c) :
    fs.InRange c ∧ fs.getFatEntry c = 0 := by
  have hzero := find?_some h
  rw [decide_eq_true_eq] at hzero
  exact ⟨mem_clusters.1 (mem_of_find?_eq_some h), hzero⟩

/-- The number of free clusters. -/
def freeCount (fs : Fs) : Nat :=
  ((List.range fs.maxCluster).drop 2).countP fun i => fs.getFatEntry i = 0

theorem findFreeCluster_isSome (h : 0 < fs.freeCount) : fs.findFreeCluster.isSome = true := by
  obtain ⟨x, hx, hzero⟩ := countP_pos_iff.1 h
  exact find?_isSome.2 ⟨x, hx, hzero⟩

/-- A volume whose clusters are below every end-of-chain mark. -/
def Sized (fs : Fs) : Prop := fs.maxCluster ≤ eocLimit fs.width

theorem SameShape.sized (h : SameShape fs fs') (hs : fs.Sized) : fs'.Sized := by
  rw [Sized, h.maxCluster, h.width]
  exact hs

theorem sameShape_link (fs : Fs) (prev v : Nat) : SameShape fs (fs.link prev v) := by
  unfold link
  split
  · exact sameShape_set ..
  · exact .refl fs

theorem root_link (fs : Fs) (prev v : Nat) : (fs.link prev v).root = fs.root := by
  unfold link
  split
  · exact root_set ..
  · rfl

theorem get_link_of_ne (h : x ≠ prev) : (fs.link prev v).getFatEntry x = fs.getFatEntry x := by
  unfold link
  split
  · exact get_set_of_ne h
  · rfl

/-- A chain that is built: it starts at `first`, ends at `last`, and its clusters belong to
`base` or were free. -/
structure Grown (fs fs' : Fs) (base : List Nat) (first last : Nat) (l : List Nat) : Prop where
  shape : SameShape fs fs'
  root : fs'.root = fs.root
  chain : IsChain fs' first l
  getLast : l.getLast? = some last
  nodup : l.Nodup
  fresh : ∀ x ∈ l, x ∈ base ∨ fs.getFatEntry x = 0
  other : ∀ x, x ∉ l → fs'.getFatEntry x = fs.getFatEntry x

/-- A chain that could not be finished, and what `free_cluster_chain` meets on it. -/
structure Broken (fs fs' : Fs) (first : Nat) (l : List Nat) : Prop where
  shape : SameShape fs fs'
  root : fs'.root = fs.root
  path : IsPath fs' first l
  nodup : l.Nodup
  fresh : ∀ x ∈ l, fs.getFatEntry x = 0
  other : ∀ x, x ∉ l → fs'.getFatEntry x = fs.getFatEntry x

variable {base : List Nat} {first last : Nat} {ok : Bool}

theorem Grown.broken (h : Grown fs fs' [] first last l) : Broken fs fs' first l :=
  ⟨h.shape, h.root, h.chain.isPath, h.nodup, fun x hx => (h.fresh x hx).resolve_left (by simp),
    h.other⟩

/-- **A cluster behind the last one** makes the chain longer. -/
theorem IsChain.snoc (h : IsChain fs first l) (hlast : l.getLast? = some last) (hnodup : l.Nodup)
    (hshape : SameShape fs fs') (hc : fs.InRange c) (hlink : fs'.getFatEntry last = c)
    (hsmall : fs.isEoc c = false) (heoc : fs.isEoc (fs'.getFatEntry c) = true)
    (hkeep : ∀ x ∈ l, x ≠ last → fs'.getFatEntry x = fs.getFatEntry x) :
    IsChain fs' first (l ++ [c]) := by
  have hend : IsChain fs' c [c] := .last (hshape.inRange.2 hc) (by rw [hshape.isEoc]; exact heoc)
  induction h with
  | @last d hd _ =>
    obtain rfl : d = last := by simpa using hlast
    refine .step (hshape.inRange.2 hd) (by rw [hlink, hshape.isEoc]; exact hsmall) ?_
    rw [hlink]
    exact hend
  | @step d l hd he hrest ih =>
    obtain ⟨hdl, hnodup'⟩ := nodup_cons.1 hnodup
    have hne : l ≠ [] := ne_nil_of_mem hrest.isPath.mem_self
    have hlast' : l.getLast? = some last := by
      rwa [getLast?_cons_of_ne_nil hne] at hlast
    have hself : fs'.getFatEntry d = fs.getFatEntry d :=
      hkeep d (by simp) fun heq => hdl (heq ▸ mem_of_getLast? hlast')
    refine .step (hshape.inRange.2 hd) (by rw [hself, hshape.isEoc]; exact he) ?_
    rw [hself]
    exact ih hlast' hnodup' fun x hx => hkeep x (by simp [hx])

/-- A chain whose last entry was cleared is still a path. -/
theorem IsChain.cut (h : IsChain fs first l) (hlast : l.getLast? = some last) (hnodup : l.Nodup)
    (hshape : SameShape fs fs') (hcut : fs'.getFatEntry last = 0)
    (hkeep : ∀ x ∈ l, x ≠ last → fs'.getFatEntry x = fs.getFatEntry x) : IsPath fs' first l := by
  induction h with
  | @last d hd _ =>
    obtain rfl : d = last := by simpa using hlast
    exact .last (hshape.inRange.2 hd) (.inr (by omega))
  | @step d l hd he hrest ih =>
    obtain ⟨hdl, hnodup'⟩ := nodup_cons.1 hnodup
    have hne : l ≠ [] := ne_nil_of_mem hrest.isPath.mem_self
    have hlast' : l.getLast? = some last := by
      rwa [getLast?_cons_of_ne_nil hne] at hlast
    have hself : fs'.getFatEntry d = fs.getFatEntry d :=
      hkeep d (by simp) fun heq => hdl (heq ▸ mem_of_getLast? hlast')
    refine .step (hshape.inRange.2 hd) (by rw [hself, hshape.isEoc]; exact he) ?_
    rw [hself]
    exact ih hlast' hnodup' fun x hx => hkeep x (by simp [hx])

theorem fatAllocCluster_some (h : fs.fatAllocCluster prev ok = (some c, fs')) :
    fs.findFreeCluster = some c ∧ fs' = (fs.setFatEntry c (eocMark fs.width)).link prev c := by
  unfold fatAllocCluster at h
  split at h
  · cases h
  · next d hfree =>
    cases ok with
    | true =>
      obtain ⟨hd, hfs⟩ := Prod.mk.inj h
      cases hd
      exact ⟨hfree, hfs.symm⟩
    | false => cases h

/-- The first cluster of a new chain. -/
theorem grown_first (h : fs.fatAllocCluster 0 ok = (some c, fs')) : Grown fs fs' [] c c [c] := by
  obtain ⟨hfree, rfl⟩ := fatAllocCluster_some h
  obtain ⟨hc, hzero⟩ := findFreeCluster_some hfree
  have hlink : (fs.setFatEntry c (eocMark fs.width)).link 0 c =
      fs.setFatEntry c (eocMark fs.width) := rfl
  rw [hlink]
  have hshape := sameShape_set fs c (eocMark fs.width)
  refine ⟨hshape, root_set .., .last (hshape.inRange.2 hc) ?_, rfl, nodup_singleton c, ?_, ?_⟩
  · rw [hshape.isEoc]
    exact isEoc_set_eoc hc
  · intro x hx
    rw [mem_singleton.1 hx]
    exact .inr hzero
  · exact fun x hx => get_set_of_ne (by simpa using hx)

theorem Grown.last_mem (h : Grown fs fs' base first last l) : last ∈ l := mem_of_getLast? h.getLast

/-- A free cluster is not on a chain. -/
theorem Grown.not_mem (h : Grown fs fs' base first last l) (hzero : fs'.getFatEntry c = 0) :
    c ∉ l :=
  fun hmem => h.chain.ne_zero c hmem hzero

/-- **One more cluster.** -/
theorem Grown.alloc (h : Grown fs fs' base first last l) (hsized : fs.Sized)
    (halloc : fs'.fatAllocCluster last ok = (some c, fs'')) :
    Grown fs fs'' base first c (l ++ [c]) := by
  obtain ⟨hfree, rfl⟩ := fatAllocCluster_some halloc
  obtain ⟨hc, hzero⟩ := findFreeCluster_some hfree
  set fs₁ := fs'.setFatEntry c (eocMark fs'.width) with hfs₁
  set fs₂ := fs₁.link last c with hfs₂
  have hcl := h.not_mem hzero
  have hlast := h.chain.isPath.inRange.2 last h.last_mem
  have hne : c ≠ last := fun heq => hcl (heq ▸ h.last_mem)
  have hshape₁ : SameShape fs' fs₁ := sameShape_set ..
  have hshape : SameShape fs' fs₂ := hshape₁.trans (sameShape_link ..)
  have hlimit : c < eocLimit fs'.width := Nat.lt_of_lt_of_le hc.2 (h.shape.sized hsized)
  have hlink : fs₂.getFatEntry last = c := by
    rw [hfs₂, link, if_pos hlast.1, get_set_cluster (hshape₁.inRange.2 hlast)]
    rw [hshape₁.width]
    exact hlimit
  have hself : fs₂.getFatEntry c = fs₁.getFatEntry c := get_link_of_ne hne
  have hkeep : ∀ x, x ≠ last → x ≠ c → fs₂.getFatEntry x = fs'.getFatEntry x :=
    fun x hx hxc => (get_link_of_ne hx).trans (get_set_of_ne hxc)
  refine ⟨h.shape.trans hshape, ?_, ?_, by simp, ?_, fun x hx => ?_, fun x hx => ?_⟩
  · rw [hfs₂, root_link, hfs₁, root_set, h.root]
  · refine h.chain.snoc h.getLast h.nodup hshape hc hlink ?_ ?_ fun x hx hxl =>
      hkeep x hxl fun heq => hcl (heq ▸ hx)
    · rw [isEoc_eq]
      exact decide_eq_false (Nat.not_le.2 hlimit)
    · rw [hself]
      exact isEoc_set_eoc hc
  · exact nodup_append.2 ⟨h.nodup, nodup_singleton c, fun x hx y hy => by
      rw [mem_singleton.1 hy]
      exact fun heq => hcl (heq ▸ hx)⟩
  · rcases mem_append.1 hx with hx | hx
    · exact h.fresh x hx
    · rw [mem_singleton.1 hx]
      exact .inr ((h.other c hcl).symm.trans hzero)
  · rw [mem_append, not_or, mem_singleton] at hx
    rw [hkeep x (fun heq => hx.1 (heq ▸ h.last_mem)) hx.2, h.other x hx.1]

/-- No cluster is free: nothing changes. -/
theorem fatAllocCluster_none (h : fs.fatAllocCluster prev true = (none, fs')) : fs' = fs := by
  unfold fatAllocCluster at h
  split at h
  · exact (Prod.mk.inj h).2.symm
  · cases h

/-- The volume is as before, as far as the table is read. -/
structure Unchanged (fs fs' : Fs) : Prop where
  shape : SameShape fs fs'
  root : fs'.root = fs.root
  get : ∀ x, fs'.getFatEntry x = fs.getFatEntry x

/-- A free cluster is taken and given back. -/
theorem unchanged_setBack (hc : fs.InRange c) (hzero : fs.getFatEntry c = 0) (v : Nat) :
    Unchanged fs ((fs.setFatEntry c v).setFatEntry c 0) := by
  have hshape := sameShape_set fs c v
  refine ⟨hshape.trans (sameShape_set ..), (root_set ..).trans (root_set ..), fun x => ?_⟩
  by_cases hx : x = c
  · rw [hx, hzero]
    exact get_set_zero (hshape.inRange.2 hc)
  · exact (get_set_of_ne hx).trans (get_set_of_ne hx)

/-- The first cluster of a chain is given back. -/
theorem unchanged_alloc (h : fs.fatAllocCluster 0 ok = (none, fs')) : Unchanged fs fs' := by
  unfold fatAllocCluster at h
  split at h
  · obtain rfl := (Prod.mk.inj h).2
    exact ⟨.refl fs, rfl, fun _ => rfl⟩
  · next c hfree =>
    obtain ⟨hc, hzero⟩ := findFreeCluster_some hfree
    cases ok with
    | true => cases h
    | false =>
      obtain rfl := (Prod.mk.inj h).2
      exact unchanged_setBack hc hzero _

/-- The device refused a cluster behind the last one: the chain is cut there. -/
theorem Grown.broken_alloc (h : Grown fs fs' [] first last l)
    (halloc : fs'.fatAllocCluster last ok = (none, fs'')) : Broken fs fs'' first l := by
  unfold fatAllocCluster at halloc
  split at halloc
  · obtain rfl := (Prod.mk.inj halloc).2
    exact h.broken
  · next c hfree =>
    obtain ⟨hc, hzero⟩ := findFreeCluster_some hfree
    cases ok with
    | true => cases halloc
    | false =>
      obtain rfl := (Prod.mk.inj halloc).2
      have hlast := h.chain.isPath.inRange.2 last h.last_mem
      have hshape₁ : SameShape fs' ((fs'.setFatEntry c (eocMark fs'.width)).link last c) :=
        (sameShape_set ..).trans (sameShape_link ..)
      generalize hmid : (fs'.setFatEntry c (eocMark fs'.width)).link last c = mid at *
      have hshape₂ := sameShape_set mid c 0
      have hshape : SameShape fs' ((mid.setFatEntry c 0).link last 0) :=
        hshape₁.trans (hshape₂.trans (sameShape_link ..))
      have hcut : ((mid.setFatEntry c 0).link last 0).getFatEntry last = 0 := by
        rw [link, if_pos hlast.1, get_set_zero (hshape₂.inRange.2 (hshape₁.inRange.2 hlast))]
      have hkeep : ∀ x, x ≠ last → ((mid.setFatEntry c 0).link last 0).getFatEntry x =
          fs'.getFatEntry x := by
        intro x hx
        rw [get_link_of_ne hx]
        by_cases hxc : x = c
        · rw [hxc, get_set_zero (hshape₁.inRange.2 hc), hzero]
        · rw [get_set_of_ne hxc, ← hmid, get_link_of_ne hx, get_set_of_ne hxc]
      refine ⟨h.shape.trans hshape, ?_, ?_, h.nodup, h.broken.fresh, fun x hx => ?_⟩
      · rw [root_link, root_set, ← hmid, root_link, root_set, h.root]
      · exact h.chain.cut h.getLast h.nodup hshape hcut fun x _ hx => hkeep x hx
      · rw [hkeep x fun heq => hx (heq ▸ h.last_mem), h.other x hx]

/-! ## The loops -/

/-- **The loop of `fat_write_file`** builds the chain or leaves one that can be freed. -/
theorem allocLoop_cases (oks : Nat → Bool) (h : Grown fs fs' [] first last l) (hsized : fs.Sized)
    (n i : Nat) :
    ((allocLoop oks n fs' last i).1 = true ∧
        ∃ last' l', Grown fs (allocLoop oks n fs' last i).2 [] first last' l') ∨
      ((allocLoop oks n fs' last i).1 = false ∧
        ∃ l', Broken fs (allocLoop oks n fs' last i).2 first l') := by
  induction n generalizing fs' last l i with
  | zero => exact .inl ⟨rfl, last, l, h⟩
  | succ n ih =>
    rw [allocLoop]
    rcases halloc : fs'.fatAllocCluster last (oks i) with ⟨_ | c, fs''⟩
    · exact .inr ⟨rfl, l, h.broken_alloc halloc⟩
    · exact ih (h.alloc hsized halloc) (i + 1)

/-- One free cluster is taken. -/
theorem freeCount_taken (hshape : SameShape fs fs') (hc : fs.InRange c)
    (hzero : fs.getFatEntry c = 0)
    (htaken : fs'.getFatEntry c ≠ 0)
    (hother : ∀ x, x ≠ c → (fs'.getFatEntry x = 0 ↔ fs.getFatEntry x = 0)) :
    fs'.freeCount + 1 = fs.freeCount := by
  rw [freeCount, hshape.maxCluster, freeCount]
  refine (FirstFit.countP_mark (nodup_range.sublist (drop_sublist ..)) (mem_clusters.2 hc)
    (decide_eq_false htaken) (decide_eq_true hzero) fun x _ hx => ?_).symm
  exact decide_eq_decide.2 (hother x hx).symm

theorem freeCount_first (h : fs.fatAllocCluster 0 ok = (some c, fs')) :
    fs'.freeCount + 1 = fs.freeCount := by
  have hgrown := grown_first h
  obtain ⟨hc, hzero⟩ := findFreeCluster_some (fatAllocCluster_some h).1
  refine freeCount_taken hgrown.shape hc hzero (hgrown.chain.ne_zero c (by simp)) fun x hx => ?_
  rw [hgrown.other x (by simpa using hx)]

theorem Grown.freeCount_alloc (h : Grown fs fs' base first last l) (hsized : fs.Sized)
    (halloc : fs'.fatAllocCluster last ok = (some c, fs'')) :
    fs''.freeCount + 1 = fs'.freeCount := by
  have hnext := h.alloc hsized halloc
  obtain ⟨hfree, rfl⟩ := fatAllocCluster_some halloc
  obtain ⟨hc, hzero⟩ := findFreeCluster_some hfree
  refine freeCount_taken ((sameShape_set ..).trans (sameShape_link ..)) hc hzero
    (hnext.chain.ne_zero c (by simp)) fun x hx => ?_
  by_cases hxl : x ∈ l
  · exact iff_of_false (hnext.chain.ne_zero x (by simp [hxl])) (h.chain.ne_zero x hxl)
  · rw [hnext.other x (by simp [hxl, hx]), h.other x hxl]

theorem fatAllocCluster_isSome (prev : Nat) (h : 0 < fs.freeCount) :
    ∃ c fs', fs.fatAllocCluster prev true = (some c, fs') := by
  obtain ⟨c, hc⟩ := Option.isSome_iff_exists.1 (findFreeCluster_isSome h)
  unfold fatAllocCluster
  rw [hc]
  exact ⟨c, _, rfl⟩

/-- With enough free clusters and a device that takes them the loop ends well. -/
theorem allocLoop_true (oks : Nat → Bool) (h : Grown fs fs' [] first last l) (hsized : fs.Sized)
    {i : Nat} (hfree : n ≤ fs'.freeCount) (hok : ∀ j < n, oks (i + j) = true) :
    (allocLoop oks n fs' last i).1 = true := by
  induction n generalizing fs' last l i with
  | zero => rfl
  | succ n ih =>
    rw [allocLoop, show oks i = true from hok 0 (Nat.succ_pos n)]
    obtain ⟨c, fs'', halloc⟩ := fatAllocCluster_isSome last
      (Nat.lt_of_lt_of_le (Nat.succ_pos n) hfree)
    have hcount := h.freeCount_alloc hsized halloc
    rw [halloc]
    refine ih (h.alloc hsized halloc) (by omega) fun j hj => ?_
    rw [Nat.add_assoc, Nat.add_comm 1 j]
    exact hok (j + 1) (by omega)

/-- The search for the last cluster ends at the last cluster. -/
theorem lastLoop_eq (h : IsChain fs c l) (hn : l.length ≤ n) :
    l.getLast? = some (lastLoop fs n c) := by
  induction h generalizing n with
  | last _ he =>
    obtain ⟨m, rfl⟩ := Nat.exists_eq_succ_of_ne_zero (by simp at hn; omega : n ≠ 0)
    rw [lastLoop, if_pos he]
    rfl
  | @step c l _ he hrest ih =>
    obtain ⟨m, rfl⟩ := Nat.exists_eq_succ_of_ne_zero (by simp at hn; omega : n ≠ 0)
    have hge := hrest.isPath.inRange.1.1
    rw [lastLoop, he, if_neg Bool.false_ne_true, if_neg (by omega),
      getLast?_cons_of_ne_nil (ne_nil_of_mem hrest.isPath.mem_self)]
    exact ih (by simpa using hn)

end Fs

end Fat
