import LufiraOS.Lib.Run
import LufiraOS.Fat.Table
import LufiraOS.Fat.RootDir

/-!
# The chains of the files in the root

Every entry of the root has a chain of its own.  The operations of `fat.c` keep it that way
unless one of them fails halfway: `fat_write_file` frees the old chain before it has the
new one, and `fat_alloc_cluster` cuts the chain it was to extend when the device refuses
the new cluster.
-/

namespace Fat

open Fs List DirEntry

variable {name : UInt8 × List UInt8} {f : DirEntry → DirEntry} {e : DirEntry}

/-! ## Entries that are changed -/

/-- Where a search finds an entry, and what a change of it does to the entries shown. -/
structure FoundAt (l l' : List DirEntry) (name : UInt8 × List UInt8) (e e' : DirEntry)
    (p r : List DirEntry) : Prop where
  old : l = p ++ [e] ++ r
  new : l' = p ++ shownNew e' ++ r
  before : ∀ x ∈ p, x.name ≠ name
  hasName : e.name = name
  isShown : e.isShown = true

theorem modifyScan_none {es : List DirEntry}
    (h : scan name es = none) : modifyScan name f es = none := by
  induction es with
  | nil => rfl
  | cons x es ih =>
    rw [scan] at h
    rw [modifyScan]
    split
    · rfl
    · next hx =>
      rw [if_neg hx] at h
      split
      · next hmatch =>
        rw [if_pos hmatch] at h
        cases h
      · next hmatch =>
        rw [if_neg hmatch] at h
        rw [ih h]
        rfl

theorem modifyScan_some {es : List DirEntry}
    (hf : ∀ x : DirEntry, x.first ≠ 0x00 → (f x).first ≠ 0x00)
    (h : scan name es = some e) :
    ∃ es' p r, modifyScan name f es = some es' ∧ FoundAt (live es) (live es') name e (f e) p r := by
  induction es with
  | nil => cases h
  | cons x es ih =>
    rw [scan] at h
    rw [modifyScan]
    split at h
    · cases h
    · next hx =>
      rw [if_neg hx]
      split at h
      · next hmatch =>
        obtain rfl := Option.some.inj h
        simp only [Bool.and_eq_true, decide_eq_true_eq] at hmatch
        refine ⟨f x :: es, [], live es, if_pos (by simp [hmatch]), ?_, ?_, by simp, hmatch.2,
          hmatch.1⟩
        · rw [live_cons, if_neg hx, if_pos hmatch.1]
          rfl
        · rw [live_cons, if_neg (hf x hx), shownNew]
          split <;> rfl
      · next hmatch =>
        rw [if_neg hmatch]
        obtain ⟨es', p, r, hes, hfound⟩ := ih h
        rw [hes]
        by_cases hs : x.isShown = true
        · refine ⟨x :: es', x :: p, r, rfl, ?_, ?_, fun y hy => ?_, hfound.hasName, hfound.isShown⟩
          · rw [live_cons, if_neg hx, if_pos hs, hfound.old]
            rfl
          · rw [live_cons, if_neg hx, if_pos hs, hfound.new]
            rfl
          rcases mem_cons.1 hy with rfl | hy
          · intro hname
            exact hmatch (by simp [hs, hname])
          · exact hfound.before y hy
        refine ⟨x :: es', p, r, rfl, ?_, ?_, hfound.before, hfound.hasName, hfound.isShown⟩
        · rw [live_cons, if_neg hx, if_neg hs, hfound.old]
        · rw [live_cons, if_neg hx, if_neg hs, hfound.new]

/-- **A change of the entry that a search finds.** -/
theorem foundAt_modifyFound {root : List (List DirEntry)}
    (hf : ∀ x : DirEntry, x.first ≠ 0x00 → (f x).first ≠ 0x00)
    (h : findEntryInDir root name = some e) :
    ∃ p r, FoundAt (shown root) (shown (modifyFound name f root)) name e (f e) p r := by
  induction root with
  | nil => cases h
  | cons es rest ih =>
    rw [findEntryInDir, findSome?_cons] at h
    rw [modifyFound]
    cases hscan : scan name es with
    | some x =>
      rw [hscan] at h
      cases h
      obtain ⟨es', p, r, hes, hfound⟩ := modifyScan_some hf hscan
      rw [hes]
      refine ⟨p, r ++ shown rest, ?_, ?_, hfound.before, hfound.hasName, hfound.isShown⟩
      · rw [shown, flatMap_cons, hfound.old, append_assoc]
        rfl
      show List.flatMap live (es' :: rest) = _
      rw [flatMap_cons, hfound.new, append_assoc]
      rfl
    | none =>
      rw [hscan] at h
      obtain ⟨p, r, hfound⟩ := ih h
      rw [modifyScan_none hscan]
      have hlive : ∀ x ∈ live es, x.name ≠ name := by
        rw [scan_eq] at hscan
        exact find?_named_eq_none.1 hscan
      refine ⟨live es ++ p, r, ?_, ?_, fun x hx => ?_, hfound.hasName, hfound.isShown⟩
      · have hold := hfound.old
        simp only [shown, flatMap_cons] at hold ⊢
        rw [hold]
        simp only [append_assoc]
      · have hnew := hfound.new
        simp only [shown, flatMap_cons] at hnew ⊢
        rw [hnew]
        simp only [append_assoc]
      rcases mem_append.1 hx with hx | hx
      · exact hlive x hx
      · exact hfound.before x hx

/-- The changed entry is found under the same name. -/
theorem FoundAt.find {root root' : List (List DirEntry)}
    {e' : DirEntry} {p r : List DirEntry} (h : FoundAt (shown root) (shown root') name e e' p r)
    (hname : e'.name = name) (hshown : e'.isShown = true) :
    findEntryInDir root' name = some e' := by
  rw [findEntryInDir_eq, h.new, shownNew, if_pos hshown, append_assoc, find?_append,
    find?_named_eq_none.2 h.before]
  simp [named, hname]

/-! ## Separate chains -/

namespace Fs

variable {fs fs' : Fs} {e : DirEntry} {l : List Nat} {es p r : List DirEntry}
  {c size last : Nat} {w : Width} {name : List UInt8} {sname : UInt8 × List UInt8}
  {oks : Nat → Bool}

/-- The clusters `l` are those of the entry. -/
def ChainOf (fs : Fs) (e : DirEntry) (l : List Nat) : Prop :=
  if e.cluster fs.width < 2 then l = [] else IsChain fs (e.cluster fs.width) l

/-- **The chains are separate**: every entry that a search can return has a chain, and no
cluster is on two of them or on one of them and on that of the root. -/
def Separate (fs : Fs) : Prop :=
  ∃ ls, List.Forall₂ (ChainOf fs) (shown fs.root) ls ∧ (fs.rootChain ++ ls.flatten).Nodup ∧
    ∀ c ∈ fs.rootChain, fs.getFatEntry c ≠ 0

theorem ChainOf.ne_zero (h : ChainOf fs e l) : ∀ x ∈ l, fs.getFatEntry x ≠ 0 := by
  unfold ChainOf at h
  split at h
  · simp [h]
  · exact h.ne_zero

theorem ChainOf.congr (hshape : SameShape fs fs') (h : ChainOf fs e l)
    (hget : ∀ x ∈ l, fs'.getFatEntry x = fs.getFatEntry x) : ChainOf fs' e l := by
  unfold ChainOf at h ⊢
  rw [hshape.width]
  split
  · next hlt => rwa [if_pos hlt] at h
  · next hlt =>
    rw [if_neg hlt] at h
    exact h.congr hshape hget

theorem chainsOf_congr {ls : List (List Nat)} (hshape : SameShape fs fs')
    (h : List.Forall₂ (ChainOf fs) es ls)
    (hget : ∀ x ∈ ls.flatten, fs'.getFatEntry x = fs.getFatEntry x) :
    List.Forall₂ (ChainOf fs') es ls := by
  induction h with
  | nil => exact .nil
  | cons he _ ih =>
    refine .cons (he.congr hshape fun x hx => hget x (by simp [hx])) (ih fun x hx => hget x ?_)
    rw [flatten_cons, mem_append]
    exact .inr hx

theorem chainsOf_ne_zero {ls : List (List Nat)}
    (h : List.Forall₂ (ChainOf fs) es ls) : ∀ x ∈ ls.flatten, fs.getFatEntry x ≠ 0 := by
  induction h with
  | nil => simp
  | cons he _ ih =>
    intro x hx
    rw [flatten_cons, mem_append] at hx
    exact hx.elim (he.ne_zero x) (ih x)

/-- What an operation does to the chains of the entries `h`, which become the entries `a`. -/
def Rebuilds (fs fs' : Fs) (h a : List DirEntry) : Prop :=
  ∀ lh, List.Forall₂ (ChainOf fs) h lh → lh.flatten.Nodup →
    ∃ la, List.Forall₂ (ChainOf fs') a la ∧ la.flatten.Nodup ∧
      (∀ x ∈ la.flatten, x ∈ lh.flatten ∨ fs.getFatEntry x = 0) ∧
      ∀ x, x ∉ lh.flatten → fs.getFatEntry x ≠ 0 → fs'.getFatEntry x = fs.getFatEntry x

theorem exists_append_of_forall₂ {α β : Type} {R : α → β → Prop} {as bs : List α} {ls : List β}
    (h : List.Forall₂ R (as ++ bs) ls) :
    ∃ la lb, List.Forall₂ R as la ∧ List.Forall₂ R bs lb ∧ ls = la ++ lb := by
  have hla := forall₂_take as.length h
  have hlb := forall₂_drop as.length h
  rw [take_left] at hla
  rw [drop_left] at hlb
  exact ⟨_, _, hla, hlb, (take_append_drop ..).symm⟩

theorem perm_move (k : List Nat) (lp lm lr : List (List Nat)) :
    (k ++ (lp ++ lm ++ lr).flatten).Perm (k ++ lp.flatten ++ lr.flatten ++ lm.flatten) := by
  rw [flatten_append, flatten_append, append_assoc, append_assoc, append_assoc k]
  exact (perm_append_comm.append_left _).append_left _

/-- **The frame rule of the chains**: an operation that rebuilds the chains of some entries
from their own clusters and free ones keeps all chains separate. -/
theorem Separate.replace {h a : List DirEntry} (hsep : Separate fs) (hshape : SameShape fs fs')
    (hold : shown fs.root = p ++ h ++ r) (hnew : shown fs'.root = p ++ a ++ r)
    (hbuild : Rebuilds fs fs' h a) : Separate fs' := by
  obtain ⟨ls, hls, hnodup, hroot⟩ := hsep
  rw [hold] at hls
  obtain ⟨lph, lr, hph, hr, rfl⟩ := exists_append_of_forall₂ hls
  obtain ⟨lp, lh, hp, hh, rfl⟩ := exists_append_of_forall₂ hph
  obtain ⟨hkept, hlh, hapart⟩ := nodup_append.1
    ((perm_move fs.rootChain lp lh lr).nodup_iff.1 hnodup)
  obtain ⟨la, hla, hlanodup, hfrom, hget⟩ := hbuild lh hh hlh
  have hzero : ∀ x ∈ fs.rootChain ++ lp.flatten ++ lr.flatten, fs.getFatEntry x ≠ 0 := by
    intro x hx
    simp only [mem_append] at hx
    rcases hx with (hx | hx) | hx
    · exact hroot x hx
    · exact chainsOf_ne_zero hp x hx
    · exact chainsOf_ne_zero hr x hx
  have hkeep : ∀ x ∈ fs.rootChain ++ lp.flatten ++ lr.flatten,
      fs'.getFatEntry x = fs.getFatEntry x :=
    fun x hx => hget x (fun hmem => hapart x hx x hmem rfl) (hzero x hx)
  refine ⟨lp ++ la ++ lr, ?_, ?_, fun c hc => ?_⟩
  · rw [hnew]
    refine rel_append (rel_append ?_ hla) ?_
    · exact chainsOf_congr hshape hp fun x hx => hkeep x (by simp [hx])
    · exact chainsOf_congr hshape hr fun x hx => hkeep x (by simp [hx])
  · rw [hshape.rootChain]
    refine (perm_move fs.rootChain lp la lr).nodup_iff.2 (nodup_append.2
      ⟨hkept, hlanodup, fun x hx y hy heq => ?_⟩)
    subst heq
    rcases hfrom x hy with hin | hfree
    · exact hapart x hx x hin rfl
    · exact hzero x hx hfree
  · rw [hshape.rootChain] at hc
    rw [hkeep c (by simp [hc])]
    exact hroot c hc

theorem exists_split_of_find {root : List (List DirEntry)}
    (h : findEntryInDir root sname = some e) : ∃ p r, shown root = p ++ [e] ++ r := by
  rw [findEntryInDir_eq] at h
  obtain ⟨p, r, hsplit⟩ := append_of_mem (mem_of_find?_eq_some h)
  exact ⟨p, r, by rw [hsplit, append_assoc]; rfl⟩

/-- An entry that a search finds has a chain without repetitions. -/
theorem Separate.chain_of_found (hsep : Separate fs)
    (hfind : findEntryInDir fs.root sname = some e) : ∃ l, ChainOf fs e l ∧ l.Nodup := by
  obtain ⟨p, r, hold⟩ := exists_split_of_find hfind
  obtain ⟨ls, hls, hnodup, -⟩ := hsep
  rw [hold] at hls
  obtain ⟨lph, lr, hph, -, rfl⟩ := exists_append_of_forall₂ hls
  obtain ⟨lp, lh, -, hh, rfl⟩ := exists_append_of_forall₂ hph
  have hlh := (nodup_append.1 ((perm_move fs.rootChain lp lh lr).nodup_iff.1 hnodup)).2.1
  cases hh with
  | cons he hrest =>
    cases hrest
    rw [flatten_singleton] at hlh
    exact ⟨_, he, hlh⟩

/-- The table is read as before and the entries are the same. -/
theorem Separate.unchanged (hsep : Separate fs) (h : Unchanged fs fs') : Separate fs' := by
  refine hsep.replace (p := []) (h := []) (a := []) h.shape rfl (by rw [h.root]; rfl)
    fun lh hlh hnodup => ⟨[], .nil, nodup_nil, by simp, fun x _ _ => h.get x⟩

/-! ## The operations on the root -/

theorem chainsOf_empty (h : ∀ e ∈ es, e.cluster fs.width < 2) :
    List.Forall₂ (ChainOf fs) es (es.map fun _ => []) := by
  rw [forall₂_map_right_iff, forall₂_same]
  exact fun e he => by rw [ChainOf, if_pos (h e he)]

theorem flatten_empty (es : List DirEntry) : (es.map fun _ => ([] : List Nat)).flatten = [] := by
  simp

/-- Entries without clusters take the place of others in the same table. -/
theorem rebuilds_empty {h a : List DirEntry} (hwidth : fs'.width = fs.width)
    (hget : ∀ x, fs.getFatEntry x ≠ 0 → fs'.getFatEntry x = fs.getFatEntry x)
    (ha : ∀ e ∈ a, e.cluster fs.width < 2) : Rebuilds fs fs' h a := by
  intro lh _ _
  refine ⟨a.map fun _ => [], chainsOf_empty (by rwa [hwidth]), ?_, ?_, fun x _ hx => hget x hx⟩
  · rw [flatten_empty]
    exact nodup_nil
  · rw [flatten_empty]
    simp

theorem cluster_newEntry_zero (sname : UInt8 × List UInt8) (attr : UInt8) (w : Width) :
    (newEntry sname attr 0 w).cluster w = 0 := by
  cases w <;> simp [newEntry, cluster]

theorem cluster_newEntry (hc : c < eocLimit w) (sname : UInt8 × List UInt8)
    (attr : UInt8) : (newEntry sname attr c w).cluster w = c := by
  cases w <;> simp only [newEntry, cluster, eocLimit, if_true] at hc ⊢ <;> omega

theorem cluster_setFile (hc : c < eocLimit w) (size : Nat) (e : DirEntry) :
    (DirEntry.setFile w c size e).cluster w = c := by
  cases w <;> simp only [setFile, cluster, eocLimit, if_true] at hc ⊢ <;> omega

theorem mem_shownNew {new : DirEntry} (h : e ∈ shownNew new) : e = new := by
  unfold shownNew at h
  split at h
  · simpa using h
  · simp at h

theorem SameShape.withRoot (h : SameShape fs fs') (root : List (List DirEntry)) (log : List Store) :
    SameShape fs { fs' with root := root, log := log } :=
  ⟨h.width, h.maxCluster, h.clusterSize, h.rootChain⟩

theorem Separate.create (hsep : Separate fs) (hname : ∀ c ∈ name, c ≠ 0) :
    Separate (fs.fatCreateFile name).2 := by
  unfold fatCreateFile
  split
  · exact hsep
  · next hne =>
    split
    · exact hsep
    dsimp only
    split
    · exact hsep
    · next root hroot =>
      obtain ⟨p, r, hold, -, hnew⟩ := replaces_insertRoot (toShortName_fst hne hname) hroot
      refine hsep.replace ((SameShape.refl fs).withRoot root _) hold hnew
        (rebuilds_empty rfl (fun _ _ => rfl) fun e he => ?_)
      rw [mem_shownNew he, cluster_newEntry_zero]
      decide

theorem Separate.mkdir (hsep : Separate fs) (hsized : fs.Sized)
    (hname : ∀ c ∈ name, c ≠ 0) (ok : Bool) : Separate (fs.fatMkdir name ok).2 := by
  unfold fatMkdir
  split
  · exact hsep
  · next hne =>
    simp only [Bool.or_eq_true, decide_eq_true_eq, not_or] at hne
    split
    · exact hsep
    dsimp only
    split
    · exact hsep
    · exact hsep
    · next root c hroot hfree =>
      obtain ⟨hc, hzero⟩ := findFreeCluster_some hfree
      have hshape := sameShape_set fs c (eocMark fs.width)
      cases ok with
      | false => exact hsep.unchanged (unchanged_setBack hc hzero _)
      | true =>
        rw [hfree, Option.getD_some] at hroot
        obtain ⟨p, r, hold, -, hnew⟩ := replaces_insertRoot (toShortName_fst hne.1 hname) hroot
        have hcluster := cluster_newEntry (Nat.lt_of_lt_of_le hc.2 hsized) (toShortName name) 0x10
        have hkeep : ∀ x, fs.getFatEntry x ≠ 0 →
            (fs.setFatEntry c (eocMark fs.width)).getFatEntry x = fs.getFatEntry x :=
          fun x hx => get_set_of_ne fun heq => hx (heq ▸ hzero)
        rw [if_pos rfl]
        generalize hfs' : fs.setFatEntry c (eocMark fs.width) = fs' at *
        generalize fs'.log ++ _ = log
        refine hsep.replace (hshape.withRoot root _) hold hnew fun lh _ _ => ?_
        unfold shownNew
        split
        · refine ⟨[[c]], .cons ?_ .nil, by simp, ?_, fun x _ hx => hkeep x hx⟩
          · have hend : IsChain { fs' with root := root, log := log } c [c] := by
              refine .last (hshape.inRange.2 hc) ?_
              have heoc := isEoc_set_eoc hc
              rw [hfs', ← hshape.isEoc] at heoc
              exact heoc
            rw [← hshape.width] at hcluster
            unfold ChainOf
            rw [← hshape.width, hcluster, if_neg (Nat.not_lt.2 hc.1)]
            exact hend
          intro x hx
          rw [show x = c by simpa using hx]
          exact .inr hzero
        · exact ⟨[], .nil, nodup_nil, by simp, fun x _ hx => hkeep x hx⟩

/-- The chain of an entry is freed if it has one. -/
theorem freed_chainOf (h : ChainOf fs e l) (hnodup : l.Nodup) : Freed fs
    (if 2 ≤ e.cluster fs.width then fs.freeClusterChain (e.cluster fs.width) else fs) l := by
  unfold ChainOf at h
  split at h
  · next hlt =>
    subst h
    rw [if_neg (by omega)]
    exact ⟨.refl fs, rfl, by simp, fun _ _ => rfl⟩
  · next hlt =>
    rw [if_pos (by omega)]
    exact freed_freeClusterChain h.isPath hnodup

theorem delete_first (x : DirEntry) (_ : x.first ≠ 0x00) : x.delete.first ≠ 0x00 := by
  show (0xE5 : UInt8) ≠ 0
  decide

theorem Separate.rm (hsep : Separate fs) (name : List UInt8) (empty : Bool) :
    Separate (fs.fatRm name empty).2 := by
  unfold fatRm
  split
  · exact hsep
  split
  · exact hsep
  split
  · exact hsep
  · next e hfind =>
    split
    · exact hsep
    generalize hfs' : (if 2 ≤ e.cluster fs.width then
      fs.freeClusterChain (e.cluster fs.width) else fs) = fs'
    obtain ⟨p, r, hfound⟩ := foundAt_modifyFound delete_first hfind
    have hfreed : ∀ l, ChainOf fs e l → l.Nodup → Freed fs fs' l :=
      fun l hl hn => hfs' ▸ freed_chainOf hl hn
    -- the chain of the entry, for the shape of the volume after it was freed
    obtain ⟨l, hl, hlnodup⟩ := hsep.chain_of_found hfind
    have hshape := (hfreed l hl hlnodup).shape
    have hroot := (hfreed l hl hlnodup).root
    refine hsep.replace (a := []) (hshape.withRoot _ _) hfound.old ?_ ?_
    · have hnew := hfound.new
      rw [← hroot] at hnew
      exact hnew
    intro lh hlh hlhnodup
    refine ⟨[], .nil, nodup_nil, by simp, fun x hx _ => ?_⟩
    cases hlh with
    | cons he hrest =>
      cases hrest
      rw [flatten_singleton] at hlhnodup hx
      exact (hfreed _ he hlhnodup).other x hx

/-- One entry gets another chain. -/
theorem Separate.entry {e' : DirEntry} (hsep : Separate fs)
    (hshape : SameShape fs fs') (hold : shown fs.root = p ++ [e] ++ r)
    (hnew : shown fs'.root = p ++ [e'] ++ r)
    (hbuild : ∀ l, ChainOf fs e l → l.Nodup → ∃ l', ChainOf fs' e' l' ∧ l'.Nodup ∧
      (∀ x ∈ l', x ∈ l ∨ fs.getFatEntry x = 0) ∧
      ∀ x, x ∉ l → fs.getFatEntry x ≠ 0 → fs'.getFatEntry x = fs.getFatEntry x) :
    Separate fs' := by
  refine hsep.replace hshape hold hnew fun lh hlh hnodup => ?_
  cases hlh with
  | @cons _ l _ _ he hrest =>
    cases hrest
    rw [flatten_singleton] at hnodup ⊢
    obtain ⟨l', hl', hnodup', hfrom, hkeep⟩ := hbuild l he hnodup
    refine ⟨[l'], .cons hl' .nil, ?_, ?_, hkeep⟩
    · rwa [flatten_singleton]
    · rwa [flatten_singleton]

/-- The entry that a search finds is changed, and has a chain in the new table. -/
theorem Separate.modify {g : DirEntry → DirEntry} (hsep : Separate fs) (hshape : SameShape fs fs')
    (hroot : fs'.root = fs.root) (hfind : findEntryInDir fs.root sname = some e)
    (hg : ∀ x, (g x).first = x.first ∧ (g x).isShown = x.isShown ∧ (g x).name = x.name)
    (hbuild : ∀ l, ChainOf fs e l → l.Nodup → ∃ l', ChainOf fs' (g e) l' ∧ l'.Nodup ∧
      (∀ x ∈ l', x ∈ l ∨ fs.getFatEntry x = 0) ∧
      ∀ x, x ∉ l → fs.getFatEntry x ≠ 0 → fs'.getFatEntry x = fs.getFatEntry x) :
    Separate (fs'.modifyEntry sname g) ∧
      findEntryInDir (fs'.modifyEntry sname g).root sname = some (g e) := by
  obtain ⟨p, r, hfound⟩ := foundAt_modifyFound (f := g) (fun x hx => by rwa [(hg x).1]) hfind
  obtain ⟨-, hshown, hname⟩ := hg e
  rw [hfound.isShown] at hshown
  have hnew : shown (fs'.modifyEntry sname g).root = p ++ [g e] ++ r := by
    rw [modifyEntry, hroot, hfound.new, shownNew, if_pos hshown]
  refine ⟨hsep.entry (hshape.withRoot _ _) hfound.old hnew fun l hl hnodup => ?_, ?_⟩
  · obtain ⟨l', hl', hrest⟩ := hbuild l hl hnodup
    exact ⟨l', hl'.congr ((SameShape.refl fs').withRoot _ _) fun _ _ => rfl, hrest⟩
  · rw [modifyEntry, hroot]
    exact hfound.find (hname.trans hfound.hasName) hshown

/-- What `fat_write_file` needs for a file that has clusters: enough free clusters once these
are given back, and a device that takes the zeros. -/
def WriteSafe (fs : Fs) (name : List UInt8) (size : Nat) (oks : Nat → Bool) : Prop :=
  ∀ e, findEntryInDir fs.root (toShortName name) = some e → 2 ≤ e.cluster fs.width → size ≠ 0 →
    max 1 (fs.neededClusters size) ≤ (fs.freeClusterChain (e.cluster fs.width)).freeCount ∧
      ∀ i < max 1 (fs.neededClusters size), oks i = true

/-- The table after the old chain was freed and a new one was built. -/
theorem Separate.newChain {fs₁ : Fs} {first : Nat}
    {l' : List Nat} (hsep : Separate fs) (hsized : fs.Sized)
    (hfind : findEntryInDir fs.root sname = some e)
    (hfreed : ∀ l, ChainOf fs e l → l.Nodup → Freed fs fs₁ l)
    (hgrown : Grown fs₁ fs' [] first last l') :
    Separate (fs'.modifyEntry sname (DirEntry.setFile fs'.width first size)) := by
  obtain ⟨l, hl, hnodup⟩ := hsep.chain_of_found hfind
  have hshape := (hfreed l hl hnodup).shape.trans hgrown.shape
  have hfirst := hgrown.chain.isPath.inRange.1
  have hlimit : first < eocLimit fs'.width := Nat.lt_of_lt_of_le hfirst.2 (hshape.sized hsized)
  refine (hsep.modify (g := setFile fs'.width first size) hshape
    (hgrown.root.trans (hfreed l hl hnodup).root) hfind
    (fun _ => ⟨rfl, rfl, rfl⟩) fun l hl hnodup =>
      ⟨l', ?_, hgrown.nodup, fun x hx => ?_, fun x hx hne => ?_⟩).1
  · rw [ChainOf, cluster_setFile hlimit, if_neg (Nat.not_lt.2 hfirst.1)]
    exact hgrown.chain
  · by_cases hxl : x ∈ l
    · exact .inl hxl
    have hzero := (hgrown.fresh x hx).resolve_left (by simp)
    rw [(hfreed l hl hnodup).other x hxl] at hzero
    exact .inr hzero
  · have hsame := (hfreed l hl hnodup).other x hx
    refine (hgrown.other x fun hmem => ?_).trans hsame
    have hzero := (hgrown.fresh x hmem).resolve_left (by simp)
    exact hne (hsame.symm.trans hzero)

theorem Separate.write (hsep : Separate fs) (hsized : fs.Sized)
    (hsafe : WriteSafe fs name size oks) :
    Separate (fs.fatWriteFile name size oks).2 := by
  unfold fatWriteFile
  split
  · exact hsep
  · next e hfind =>
    dsimp only
    generalize hfs₁ : (if 2 ≤ e.cluster fs.width then
      fs.freeClusterChain (e.cluster fs.width) else fs) = fs₁
    have hfreed : ∀ l, ChainOf fs e l → l.Nodup → Freed fs fs₁ l :=
      fun l hl hn => hfs₁ ▸ freed_chainOf hl hn
    obtain ⟨l, hl, hnodup⟩ := hsep.chain_of_found hfind
    have hshape := (hfreed l hl hnodup).shape
    have hroot := (hfreed l hl hnodup).root
    by_cases hsize : size = 0
    · rw [if_pos hsize]
      refine (hsep.modify (g := setFile fs₁.width 0 0) hshape hroot hfind
        (fun _ => ⟨rfl, rfl, rfl⟩) fun l hl hnodup =>
          ⟨[], ?_, nodup_nil, by simp, fun x hx _ => (hfreed l hl hnodup).other x hx⟩).1
      rw [ChainOf, cluster_setFile (by cases fs₁.width <;> decide), if_pos (by decide)]
    rw [if_neg hsize]
    -- without clusters of its own the file had nothing to free
    have hsame : e.cluster fs.width < 2 → fs₁ = fs := fun hlt => by
      rw [← hfs₁, if_neg (Nat.not_le.2 hlt)]
    have hroom : 2 ≤ e.cluster fs.width → max 1 (fs.neededClusters size) ≤ fs₁.freeCount ∧
        ∀ i < max 1 (fs.neededClusters size), oks i = true := fun hle => by
      rw [← hfs₁, if_pos hle]
      exact hsafe e hfind hle hsize
    rcases halloc : fs₁.fatAllocCluster 0 (oks 0) with ⟨_ | first, fs₂⟩
    · rcases Nat.lt_or_ge (e.cluster fs.width) 2 with hlt | hle
      · rw [hsame hlt] at halloc
        exact hsep.unchanged (unchanged_alloc halloc)
      obtain ⟨hfree, hok⟩ := hroom hle
      obtain ⟨c, fs₃, hsome⟩ := fatAllocCluster_isSome 0 (show 0 < fs₁.freeCount by omega)
      rw [hok 0 (by omega), hsome] at halloc
      cases halloc
    dsimp only
    have hfirst := grown_first halloc
    have hneeded : fs₂.neededClusters size = fs.neededClusters size := by
      rw [neededClusters, bytesPerCluster, hfirst.shape.clusterSize, hshape.clusterSize]
      rfl
    rw [hneeded]
    have hcases := allocLoop_cases oks hfirst (hshape.sized hsized) (fs.neededClusters size - 1) 1
    rcases hloop : allocLoop oks (fs.neededClusters size - 1) fs₂ first 1 with ⟨done, fs₃⟩
    rw [hloop] at hcases
    rcases hcases with ⟨hdone, last, l', hgrown⟩ | ⟨hdone, l', hbroken⟩
    · subst hdone
      exact hsep.newChain hsized hfind hfreed hgrown
    subst hdone
    rcases Nat.lt_or_ge (e.cluster fs.width) 2 with hlt | hle
    · rw [hsame hlt] at hbroken
      have hback := freed_freeClusterChain hbroken.path hbroken.nodup
      refine hsep.unchanged ⟨hbroken.shape.trans hback.shape, hback.root.trans hbroken.root,
        fun x => ?_⟩
      by_cases hx : x ∈ l'
      · rw [hback.freed x hx, hbroken.fresh x hx]
      · rw [hback.other x hx, hbroken.other x hx]
    obtain ⟨hfree, hok⟩ := hroom hle
    have hcount := freeCount_first halloc
    have htrue := allocLoop_true oks (i := 1) hfirst (hshape.sized hsized)
      (n := fs.neededClusters size - 1) (by omega) fun j hj => hok (1 + j) (by omega)
    rw [hloop] at htrue
    cases htrue

/-! ## Appending -/

/-- The entry of a name has a chain that ends at `last`, or none and `last` is no cluster. -/
def EndsAt (fs : Fs) (sname : UInt8 × List UInt8) (last : Nat) : Prop :=
  ∃ e, findEntryInDir fs.root sname = some e ∧
    if last < 2 then e.cluster fs.width < 2
    else ∃ l, IsChain fs (e.cluster fs.width) l ∧ l.getLast? = some last

/-- A cluster is appended to the chain of a file. -/
theorem Separate.extend {ok : Bool} (hsep : Separate fs)
    (hsized : fs.Sized) (hend : EndsAt fs sname last) (hlast : 2 ≤ last)
    (halloc : fs.fatAllocCluster last ok = (some c, fs')) :
    Separate fs' ∧ SameShape fs fs' ∧ EndsAt fs' sname c := by
  obtain ⟨e, hfind, hchain⟩ := hend
  rw [if_neg (Nat.not_lt.2 hlast)] at hchain
  obtain ⟨l, hl, hgetLast⟩ := hchain
  obtain ⟨p, r, hold⟩ := exists_split_of_find hfind
  have hcluster := hl.isPath.inRange.1.1
  have hchainOf : ∀ {l'}, ChainOf fs e l' → l' = l := by
    intro l' h
    rw [ChainOf, if_neg (Nat.not_lt.2 hcluster)] at h
    exact h.unique hl
  obtain ⟨l', hl', hnodup'⟩ := hsep.chain_of_found hfind
  obtain rfl := hchainOf hl'
  have hgrown : Grown fs fs l' (e.cluster fs.width) last l' :=
    ⟨.refl fs, rfl, hl, hgetLast, hnodup', fun x hx => .inl hx, fun _ _ => rfl⟩
  have hnext := hgrown.alloc hsized halloc
  refine ⟨?_, hnext.shape, e, by rw [hnext.root]; exact hfind, ?_⟩
  · refine hsep.entry hnext.shape hold (by rw [hnext.root]; exact hold) fun l₁ hl₁ _ => ?_
    obtain rfl := hchainOf hl₁
    refine ⟨l₁ ++ [c], ?_, hnext.nodup, hnext.fresh, fun x hx hne => hnext.other x fun hmem => ?_⟩
    · rw [ChainOf, hnext.shape.width, if_neg (Nat.not_lt.2 hcluster)]
      exact hnext.chain
    · exact (hnext.fresh x hmem).elim hx hne
  have hc := hnext.chain.isPath.inRange.2 c (by simp)
  rw [if_neg (Nat.not_lt.2 hc.1), hnext.shape.width]
  exact ⟨l' ++ [c], hnext.chain, hnext.getLast⟩

/-- A file without clusters gets its first. -/
theorem Separate.begin {ok : Bool} (hsep : Separate fs)
    (hsized : fs.Sized) (hend : EndsAt fs sname last)
    (halloc : fs.fatAllocCluster 0 ok = (some c, fs')) :
    Separate (fs'.modifyEntry sname fun e => DirEntry.setFile fs'.width c e.size e) ∧
      SameShape fs (fs'.modifyEntry sname fun e => DirEntry.setFile fs'.width c e.size e) ∧
      EndsAt (fs'.modifyEntry sname fun e => DirEntry.setFile fs'.width c e.size e) sname c := by
  obtain ⟨e, hfind, -⟩ := hend
  have hgrown := grown_first halloc
  have hc := hgrown.chain.isPath.inRange.1
  have hlimit : c < eocLimit fs'.width := Nat.lt_of_lt_of_le hc.2 (hgrown.shape.sized hsized)
  obtain ⟨hsep', hfind'⟩ := hsep.modify (g := fun e => setFile fs'.width c e.size e) hgrown.shape
    hgrown.root hfind (fun _ => ⟨rfl, rfl, rfl⟩) fun l _ _ => ⟨[c],
      by rw [ChainOf, cluster_setFile hlimit, if_neg (Nat.not_lt.2 hc.1)]; exact hgrown.chain,
      hgrown.nodup, fun x hx => .inr ((hgrown.fresh x hx).resolve_left (by simp)),
      fun x _ hne => hgrown.other x fun hmem =>
        hne ((hgrown.fresh x hmem).resolve_left (by simp))⟩
  refine ⟨hsep', hgrown.shape.withRoot _ _, _, hfind', ?_⟩
  show (if c < 2 then _ else ∃ l, IsChain _
    ((setFile fs'.width c e.size e).cluster fs'.width) l ∧ l.getLast? = some c)
  rw [cluster_setFile hlimit, if_neg (Nat.not_lt.2 hc.1)]
  exact ⟨[c], hgrown.chain.congr ((SameShape.refl fs').withRoot _ _) fun _ _ => rfl, rfl⟩

/-- **The loop of `fat_append_file`** keeps the chains separate as long as the device takes every
cluster that is to be linked. -/
theorem separate_appendLoop (size n : Nat) (done : Nat) {i : Nat} (hsep : Separate fs)
    (hsized : fs.Sized) (hend : EndsAt fs sname last)
    (hok : 2 ≤ last → oks i = true) (hoks : ∀ j, i < j → oks j = true) :
    Separate (appendLoop sname size oks n fs last done i).2.2 ∧
      ∃ e, findEntryInDir (appendLoop sname size oks n fs last done i).2.2.root sname = some e := by
  induction n generalizing fs last done i with
  | zero => exact ⟨hsep, hend.imp fun _ h => h.1⟩
  | succ n ih =>
    rw [appendLoop]
    split
    · exact ⟨hsep, hend.imp fun _ h => h.1⟩
    rcases Nat.lt_or_ge last 2 with hlt | hle
    · rw [if_neg (Nat.not_le.2 hlt)]
      rcases halloc : fs.fatAllocCluster 0 (oks i) with ⟨_ | c, fs'⟩
      · have hsame := unchanged_alloc halloc
        exact ⟨hsep.unchanged hsame, hend.imp fun _ h => by rw [hsame.root]; exact h.1⟩
      obtain ⟨hsep', hshape, hend'⟩ := hsep.begin hsized hend halloc
      dsimp only
      rw [if_pos hlt]
      exact ih _ hsep' (hshape.sized hsized) hend' (fun _ => hoks _ (Nat.lt_succ_self i))
        fun j hj => hoks j (by omega)
    rw [if_pos hle, hok hle]
    rcases halloc : fs.fatAllocCluster last true with ⟨_ | c, fs'⟩
    · obtain rfl := fatAllocCluster_none halloc
      exact ⟨hsep, hend.imp fun _ h => h.1⟩
    obtain ⟨hsep', hshape, hend'⟩ := hsep.extend hsized hend hle halloc
    dsimp only
    rw [if_neg (Nat.not_lt.2 hle)]
    exact ih _ hsep' (hshape.sized hsized) hend' (fun _ => hoks _ (Nat.lt_succ_self i))
      fun j hj => hoks j (by omega)

/-- The size of a file does not matter for its chain. -/
theorem Separate.setSize (hsep : Separate fs) (hfind : findEntryInDir fs.root sname = some e) :
    Separate (fs.modifyEntry sname (DirEntry.setSize size)) :=
  (hsep.modify (g := .setSize size)
    (.refl fs) rfl hfind (fun _ => ⟨rfl, rfl, rfl⟩) fun l hl hnodup =>
    ⟨l, hl, hnodup, fun _ => .inl, fun _ _ _ => rfl⟩).1

/-- What `fat_append_file` needs: the device takes every cluster that is to be linked. -/
def AppendSafe (fs : Fs) (name : List UInt8) (oks : Nat → Bool) : Prop :=
  ∀ e, findEntryInDir fs.root (toShortName name) = some e →
    ∀ i, 0 < i ∨ 2 ≤ e.cluster fs.width → oks i = true

theorem Separate.append (hsep : Separate fs) (hsized : fs.Sized) (hsafe : AppendSafe fs name oks) :
    Separate (fs.fatAppendFile name size oks).2 := by
  unfold fatAppendFile
  split
  · exact hsep
  split
  · exact hsep
  · next e hfind =>
    dsimp only
    split
    · exact hsep
    generalize hlast : (if 2 ≤ e.cluster fs.width then
      lastLoop fs (fs.maxCluster + 1) (e.cluster fs.width) else e.cluster fs.width) = last
    have hend : EndsAt fs (toShortName name) last ∧ (2 ≤ last → 2 ≤ e.cluster fs.width) := by
      rcases Nat.lt_or_ge (e.cluster fs.width) 2 with hlt | hle
      · rw [if_neg (Nat.not_le.2 hlt)] at hlast
        subst hlast
        exact ⟨⟨e, hfind, by rw [if_pos hlt]; exact hlt⟩, id⟩
      rw [if_pos hle] at hlast
      obtain ⟨l, hl, hnodup⟩ := hsep.chain_of_found hfind
      rw [ChainOf, if_neg (Nat.not_lt.2 hle)] at hl
      have hgetLast := lastLoop_eq hl (Nat.le_succ_of_le (hl.isPath.length_le hnodup))
      rw [hlast] at hgetLast
      have hge := (hl.isPath.inRange.2 last (mem_of_getLast? hgetLast)).1
      exact ⟨⟨e, hfind, by rw [if_neg (Nat.not_lt.2 hge)]; exact ⟨l, hl, hgetLast⟩⟩, fun _ => hle⟩
    have hloop : ∀ done res, appendLoop (toShortName name) size oks size fs last done 0 = res →
        Separate res.2.2 ∧ ∃ e, findEntryInDir res.2.2.root (toShortName name) = some e := by
      rintro done res rfl
      exact separate_appendLoop size size done hsep hsized hend.1
        (fun hle => hsafe e hfind 0 (.inr (hend.2 hle))) fun j hj => hsafe e hfind j (.inl hj)
    split
    · next count fs' hres =>
      obtain ⟨hsep', e', hfind'⟩ := hloop _ _ hres
      exact hsep'.setSize hfind'
    · next count fs' hres =>
      obtain ⟨hsep', e', hfind'⟩ := hloop _ _ hres
      exact hsep'.setSize hfind'

/-! ## Whole histories -/

/-- A C string. -/
abbrev CString := { s : List UInt8 // ∀ c ∈ s, c ≠ 0 }

/-- The calls of the driver, with what the device answers. -/
inductive Op where
  | createFile (name : CString)
  | mkdir (name : CString) (ok : Bool)
  | rm (name : CString) (empty : Bool)
  | writeFile (name : CString) (size : Nat) (oks : Nat → Bool)
  | appendFile (name : CString) (size : Nat) (oks : Nat → Bool)

/-- One call. -/
def exec (fs : Fs) : Op → Fs
  | .createFile name => (fs.fatCreateFile name.1).2
  | .mkdir name ok => (fs.fatMkdir name.1 ok).2
  | .rm name empty => (fs.fatRm name.1 empty).2
  | .writeFile name size oks => (fs.fatWriteFile name.1 size oks).2
  | .appendFile name size oks => (fs.fatAppendFile name.1 size oks).2

/-- **The condition on a call.** -/
def Allowed (fs : Fs) : Op → Prop
  | .writeFile name size oks => WriteSafe fs name.1 size oks
  | .appendFile name _ oks => AppendSafe fs name.1 oks
  | _ => True

/-! ### What the loops are made of -/

/-- The change keeps the fields of an entry within their widths. -/
def KeepsFits (f : DirEntry → DirEntry) : Prop := ∀ e : DirEntry, e.Fits → (f e).Fits

theorem keepsFits_delete : KeepsFits DirEntry.delete := fun _ h => ⟨h.1, h.2, h.3, h.4⟩

theorem keepsFits_setSize (size : Nat) : KeepsFits (DirEntry.setSize (size % 2 ^ 32)) :=
  fun _ h => ⟨h.1, h.2, h.3, Nat.mod_lt _ (by decide)⟩

theorem keepsFits_setFile (w : Width) (c : Nat) (size : DirEntry → Nat) :
    KeepsFits fun e => DirEntry.setFile w c (size e) e := by
  intro e h
  refine ⟨h.rest, ?_, Nat.mod_lt _ (by decide), Nat.mod_lt _ (by decide)⟩
  unfold DirEntry.setFile
  dsimp only
  split
  · exact Nat.mod_lt _ (by decide)
  · exact h.clusterHigh

/-- The second volume is the first after stores into the table and changes of entries. -/
inductive Stores (fs : Fs) : Fs → Prop
  | refl : Stores fs fs
  | set {fs' : Fs} (h : Stores fs fs') (c v : Nat) : Stores fs (fs'.setFatEntry c v)
  | modify {fs' : Fs} (h : Stores fs fs') (sname : UInt8 × List UInt8) {f : DirEntry → DirEntry}
      (hf : KeepsFits f) : Stores fs (fs'.modifyEntry sname f)

theorem Stores.trans {fs'' : Fs} (h : Stores fs fs') (h' : Stores fs' fs'') : Stores fs fs'' := by
  induction h' with
  | refl => exact h
  | set _ c v ih => exact ih.set c v
  | modify _ sname hf ih => exact ih.modify sname hf

theorem Stores.sameShape (h : Stores fs fs') : SameShape fs fs' := by
  induction h with
  | refl => exact .refl fs
  | set _ c v ih => exact ih.trans (sameShape_set ..)
  | modify _ sname hf ih => exact ih.withRoot _ _

theorem stores_link (fs : Fs) (prev v : Nat) : Stores fs (fs.link prev v) := by
  unfold link
  split
  · exact Stores.refl.set ..
  · exact .refl

theorem stores_freeLoop (n : Nat) (fs : Fs) (c : Nat) : Stores fs (freeLoop n fs c) := by
  induction n generalizing fs c with
  | zero => exact .refl
  | succ n ih =>
    rw [freeLoop]
    split
    · exact .refl
    dsimp only
    split
    · exact Stores.refl.set ..
    · exact (Stores.refl.set ..).trans (ih ..)

theorem stores_alloc (fs : Fs) (prev : Nat) (ok : Bool) :
    Stores fs (fs.fatAllocCluster prev ok).2 := by
  unfold fatAllocCluster
  split
  · exact .refl
  · next c _ =>
    have hlinked : Stores fs ((fs.setFatEntry c (eocMark fs.width)).link prev c) :=
      (Stores.refl.set ..).trans (stores_link ..)
    split
    · exact hlinked
    · exact hlinked.trans ((Stores.refl.set ..).trans (stores_link ..))

theorem stores_allocLoop (oks : Nat → Bool) (n : Nat) (fs : Fs) (last i : Nat) :
    Stores fs (allocLoop oks n fs last i).2 := by
  induction n generalizing fs last i with
  | zero => exact .refl
  | succ n ih =>
    have hone := stores_alloc fs last (oks i)
    rw [allocLoop]
    rcases halloc : fs.fatAllocCluster last (oks i) with ⟨_ | c, fs'⟩ <;> rw [halloc] at hone
    · exact hone
    · exact hone.trans (ih ..)

theorem stores_appendLoop (sname : UInt8 × List UInt8) (size : Nat) (oks : Nat → Bool) (n : Nat)
    (fs : Fs) (last done i : Nat) :
    Stores fs (appendLoop sname size oks n fs last done i).2.2 := by
  induction n generalizing fs last done i with
  | zero => exact .refl
  | succ n ih =>
    rw [appendLoop]
    split
    · exact .refl
    have hone := stores_alloc fs (if 2 ≤ last then last else 0) (oks i)
    rcases halloc : fs.fatAllocCluster (if 2 ≤ last then last else 0) (oks i) with ⟨_ | c, fs'⟩ <;>
      rw [halloc] at hone
    · exact hone
    · refine hone.trans (.trans ?_ (ih ..))
      split
      · exact Stores.refl.modify _ (keepsFits_setFile _ _ _)
      · exact .refl

theorem stores_freed (fs : Fs) (c : Nat) :
    Stores fs (if 2 ≤ c then fs.freeClusterChain c else fs) := by
  split
  · exact stores_freeLoop ..
  · exact .refl

theorem stores_write (fs : Fs) (name : List UInt8) (size : Nat) (oks : Nat → Bool) :
    Stores fs (fs.fatWriteFile name size oks).2 := by
  unfold fatWriteFile
  split
  · exact .refl
  · next e _ =>
    have hfreed := stores_freed fs (e.cluster fs.width)
    dsimp only
    generalize (if 2 ≤ e.cluster fs.width then
      fs.freeClusterChain (e.cluster fs.width) else fs) = fs₁ at hfreed ⊢
    split
    · exact hfreed.trans (Stores.refl.modify _ (keepsFits_setFile _ _ fun _ => 0))
    have hone := stores_alloc fs₁ 0 (oks 0)
    rcases halloc : fs₁.fatAllocCluster 0 (oks 0) with ⟨_ | first, fs₂⟩ <;> rw [halloc] at hone
    · exact hfreed.trans hone
    dsimp only at hone ⊢
    have hloop := stores_allocLoop oks (fs₂.neededClusters size - 1) fs₂ first 1
    rcases hres : allocLoop oks (fs₂.neededClusters size - 1) fs₂ first 1 with ⟨_ | _, fs₃⟩ <;>
      rw [hres] at hloop
    · exact hfreed.trans (hone.trans (hloop.trans (stores_freeLoop ..)))
    · refine hfreed.trans (hone.trans (hloop.trans (Stores.refl.modify _ ?_)))
      exact keepsFits_setFile _ _ fun _ => size

theorem stores_append (fs : Fs) (name : List UInt8) (size : Nat) (oks : Nat → Bool) :
    Stores fs (fs.fatAppendFile name size oks).2 := by
  unfold fatAppendFile
  split
  · exact .refl
  split
  · exact .refl
  dsimp only
  split
  · exact .refl
  have hloop : ∀ last done res, appendLoop (toShortName name) size oks size fs last done 0 = res →
      Stores fs res.2.2 := by
    rintro last done res rfl
    exact stores_appendLoop ..
  split
  · next hres => exact (hloop _ _ _ hres).trans (Stores.refl.modify _ (keepsFits_setSize _))
  · next hres => exact (hloop _ _ _ hres).trans (Stores.refl.modify _ (keepsFits_setSize _))

theorem sameShape_exec (fs : Fs) (op : Op) : SameShape fs (fs.exec op) := by
  cases op with
  | createFile name =>
    unfold exec fatCreateFile
    dsimp only
    split
    · exact .refl fs
    split
    · exact .refl fs
    split
    · exact .refl fs
    · exact (SameShape.refl fs).withRoot _ _
  | mkdir name ok =>
    unfold exec fatMkdir
    dsimp only
    split
    · exact .refl fs
    split
    · exact .refl fs
    split
    · exact .refl fs
    · exact .refl fs
    split
    · exact (sameShape_set ..).withRoot _ _
    · exact (sameShape_set ..).trans (sameShape_set ..)
  | rm name empty =>
    unfold exec fatRm
    dsimp only
    split
    · exact .refl fs
    split
    · exact .refl fs
    split
    · exact .refl fs
    split
    · exact .refl fs
    · exact ((stores_freed ..).trans (Stores.refl.modify _ keepsFits_delete)).sameShape
  | writeFile name size oks => exact (stores_write ..).sameShape
  | appendFile name size oks => exact (stores_append ..).sameShape

/-- **An allowed call** keeps the chains separate. -/
theorem Separate.exec (hsep : Separate fs) (hsized : fs.Sized) {op : Op} (hop : fs.Allowed op) :
    Separate (fs.exec op) := by
  cases op with
  | createFile name => exact hsep.create name.2
  | mkdir name ok => exact hsep.mkdir hsized name.2 ok
  | rm name empty => exact hsep.rm name.1 empty
  | writeFile name size oks => exact hsep.write hsized hop
  | appendFile name size oks => exact hsep.append hsized hop

end Fs

end Fat
