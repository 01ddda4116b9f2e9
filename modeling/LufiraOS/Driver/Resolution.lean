import LufiraOS.Driver.Components
import LufiraOS.Mkfs.Mounted
import Mathlib

/-!
# Which inode a path names

What a path means: it is split at the slashes, empty components are dropped, and the rest are
followed from entry to entry.  `lufirafs_lookup` reads at most 59 characters of a component and goes
on with the next ones as if a slash stood between them, so it follows the `pieces` of the
components.  A name in a directory has at most 59 characters, so for paths with a longer component
the two differ as soon as the pieces lead somewhere.  `lufirafs_resolve_parent` takes the last
component off from behind; what it finds agrees with the loop that reads the path from the front.
-/

namespace LufiraFs

open ByteStore List

variable {c w : CStr}

/-- The components of a path. -/
def splitPath (path : CStr) : List CStr := (path.splitOn slash).filter (· ≠ [])

/-! ### Splitting -/

theorem splitOn_word_slash (hw : slash ∉ w) (q : CStr) :
    (w ++ slash :: q).splitOn slash = w :: q.splitOn slash := by
  refine splitOnP_append_cons_of_forall_mem (fun c hc => ?_) slash (by simp) q
  rw [beq_eq_false_iff_ne]
  exact fun h => hw (h ▸ hc)

@[simp] theorem splitPath_slash (q : CStr) : splitPath (slash :: q) = splitPath q := by
  have h := splitOn_word_slash (w := []) (by simp) q
  rw [nil_append] at h
  unfold splitPath
  rw [h]
  simp

theorem splitPath_word (hw : slash ∉ w) (hne : w ≠ []) : splitPath w = [w] := by
  unfold splitPath
  rw [splitOn_eq_singleton hw]
  simp [hne]

theorem splitPath_word_slash (hw : slash ∉ w) (hne : w ≠ []) (q : CStr) :
    splitPath (w ++ slash :: q) = w :: splitPath q := by
  unfold splitPath
  rw [splitOn_word_slash hw]
  simp [hne]

/-- **The loop of `lufirafs_lookup`** reads the pieces of the components. -/
theorem components_eq_pieces (path : CStr) : components path = (splitPath path).flatMap pieces := by
  generalize hn : path.length = n
  induction n using Nat.strong_induction_on generalizing path with
  | _ n ih =>
    obtain ⟨w, hw, hp | ⟨q, hp⟩⟩ := word_cases path
    · rw [hp]
      by_cases hne : w = []
      · subst hne
        rfl
      · rw [components_single hw, splitPath_word hw hne]
        simp
    have hread := components_word hw (.inr ⟨q, (rfl : slash :: q = slash :: q)⟩)
    have hlt : q.length < n := by
      rw [← hn, hp, length_append, length_cons]
      omega
    rw [hp, hread, components_slash, ih _ hlt q rfl]
    by_cases hne : w = []
    · subst hne
      rw [nil_append, splitPath_slash]
      rfl
    · rw [splitPath_word_slash hw hne, flatMap_cons]

/-- With short components only, the pieces are the components. -/
theorem flatMap_pieces_eq {path : CStr} (hshort : ∀ c ∈ splitPath path, c.length ≤ 59) :
    (splitPath path).flatMap pieces = splitPath path := by
  have hne : ∀ c ∈ splitPath path, c ≠ [] := by
    intro c hc
    simpa using (mem_filter.1 hc).2
  generalize splitPath path = names at hshort hne
  induction names with
  | nil => rfl
  | cons c names ih =>
    rw [flatMap_cons, pieces_short (hne c mem_cons_self) (hshort c mem_cons_self),
      ih (fun d hd => hshort d (mem_cons_of_mem _ hd)) (fun d hd => hne d (mem_cons_of_mem _ hd))]
    rfl

/-! ### Following entries -/

/-- The names lead from directory `d` from entry to entry to `r`. -/
def Vol.LeadsTo (V : Vol) : List CStr → Nat → Nat → Prop
  | [], d, r => d = r
  | name :: rest, d, r =>
    ∃ i, (V.IsDir d ∧ ∃ n, V.entryAt d n = some (i, name)) ∧ V.LeadsTo rest i r

/-- Where a path starts. -/
def Vol.origin (V : Vol) (start : Nat) (path : CStr) : Nat :=
  if path.head? = some slash then V.rootInode else start

variable {V : Vol}

/-- In an orderly volume a name is found exactly when it has an entry. -/
theorem Orderly.walk_iff (h : Orderly V) (names : List CStr) (d r : Nat) :
    V.walk names d = some r ↔ V.LeadsTo names d r := by
  induction names generalizing d with
  | nil => simp [Vol.walk, Vol.LeadsTo]
  | cons name rest ih =>
    rw [Vol.walk, Vol.LeadsTo]
    constructor
    · intro hwalk
      cases hlook : V.lookupIn d name with
      | none =>
        rw [hlook] at hwalk
        cases hwalk
      | some i =>
        rw [hlook] at hwalk
        exact ⟨i, Vol.lookupIn_some hlook, (ih i).1 hwalk⟩
    rintro ⟨i, ⟨hd, n, hn⟩, hrest⟩
    rw [h.lookupIn_eq hd hn]
    exact (ih i).2 hrest

/-- **A component of more than 59 characters** leads nowhere. -/
theorem Orderly.not_leadsTo_of_long (h : Orderly V) {names : List CStr} (hc : c ∈ names)
    (hlong : 59 < c.length) (d r : Nat) : ¬ V.LeadsTo names d r := by
  induction names generalizing d with
  | nil => cases hc
  | cons name rest ih =>
    rintro ⟨i, ⟨hd, n, hn⟩, hrest⟩
    rcases mem_cons.1 hc with rfl | hmem
    · have := h.short hd n i c hn
      omega
    · exact ih hmem i hrest

theorem Vol.lookup_eq_walk (V : Vol) (start : Nat) (path : CStr) :
    V.lookup start path = V.walk ((splitPath path).flatMap pieces) (V.origin start path) := by
  rw [← components_eq_pieces]
  unfold Vol.lookup Vol.origin
  split
  · next hslash =>
    cases path with
    | nil => cases hslash
    | cons c p =>
      obtain rfl : c = slash := Option.some.inj hslash
      rw [tail_cons, components_slash]
  · rfl

/-- `lufirafs_lookup` delivers the inode to which the components of the path lead, and nothing if
they lead nowhere. -/
def Mount.Resolves (fs : Mount) (start : Nat) (path : CStr) : Prop :=
  ∀ r, (fs.lookup start path).1 = some r ↔
    fs.vol.LeadsTo (splitPath path) (fs.vol.origin start path) r

/-- **Path resolution.**  In an orderly volume, with nothing failing, a path is resolved as its
components say exactly when they all have at most 59 characters or their pieces lead nowhere. -/
theorem Mount.resolves_iff {fs : Mount} (h : fs.Ready) (henv : fs.env = Env.allOk)
    (horderly : Orderly fs.vol) (start : Nat) (path : CStr) :
    fs.Resolves start path ↔ (∀ c ∈ splitPath path, c.length ≤ 59) ∨
      ∀ r, ¬ fs.vol.LeadsTo ((splitPath path).flatMap pieces) (fs.vol.origin start path) r := by
  obtain ⟨res, e, hlook, -, hres⟩ := lookup_eq h start path
  have hpieces : ∀ r, (fs.lookup start path).1 = some r ↔
      fs.vol.LeadsTo ((splitPath path).flatMap pieces) (fs.vol.origin start path) r := by
    intro r
    rw [hlook, hres henv, Vol.lookup_eq_walk]
    exact horderly.walk_iff _ _ _
  by_cases hshort : ∀ c ∈ splitPath path, c.length ≤ 59
  · refine iff_of_true (fun r => ?_) (.inl hshort)
    rw [hpieces r, flatMap_pieces_eq hshort]
  obtain ⟨c, hc, hlong⟩ : ∃ c ∈ splitPath path, 59 < c.length := by
    by_contra hno
    exact hshort fun c hc => by
      by_contra hlt
      exact hno ⟨c, hc, by omega⟩
  have hnowhere := horderly.not_leadsTo_of_long hc hlong (fs.vol.origin start path)
  constructor
  · intro hresolves
    refine .inr fun r hr => ?_
    exact hnowhere r ((hresolves r).1 ((hpieces r).2 hr))
  intro hcond r
  rw [hpieces r]
  exact ⟨fun hr => absurd hr ((hcond.resolve_left hshort) r), fun hr => absurd hr (hnowhere r)⟩

theorem resolves_iff_small : smallMount.Resolves 1 dirPath :=
  (Mount.resolves_iff smallMount_tidy.ready smallMount_tidy.env smallMount_tidy.orderly 1
    dirPath).2 (.inl (by decide))

/-- A name of 59 characters. -/
def longName : CStr := List.replicate 59 ⟨100, dirChar_ne_zero⟩

/-- `smallMount` with a directory under that name. -/
def longMount : Mount := smallMount.execPath (.mkdir 1 (slash :: longName) 0 0)

theorem longMount_tidy : longMount.Tidy := smallMount_tidy.execPath _ (by decide +kernel)

/-- The name with a dot behind it is one component of 60 characters, and it is found: the directory,
and in it `"."`. -/
theorem long_component_resolves : longMount.Ready ∧ Orderly longMount.vol ∧
    (∃ c ∈ splitPath (longName ++ dot), 59 < c.length) ∧
    (longMount.lookup 1 (longName ++ dot)).1 = some 2 ∧
    ¬ longMount.Resolves 1 (longName ++ dot) := by
  have hlong : ∃ c ∈ splitPath (longName ++ dot), 59 < c.length := by decide
  have hfound : (longMount.lookup 1 (longName ++ dot)).1 = some 2 := by decide +kernel
  obtain ⟨c, hc, hlen⟩ := hlong
  refine ⟨longMount_tidy.ready, longMount_tidy.orderly, ⟨c, hc, hlen⟩, hfound, fun h => ?_⟩
  exact longMount_tidy.orderly.not_leadsTo_of_long hc hlen _ _ ((h 2).1 hfound)

/-! ### The parent of a path -/

/-- Slashes at the end of a path name no component. -/
theorem components_append_slashes (q : CStr) {r : CStr} (hr : ∀ c ∈ r, c = slash) :
    components (q ++ r) = components q := by
  cases r with
  | nil => rw [append_nil]
  | cons c r =>
    have hnil : components r = [] := by
      have hall : ∀ c ∈ r, c = slash := fun c hc => hr c (mem_cons_of_mem _ hc)
      rw [← components_dropWhile, dropWhile_eq_nil_iff.2 (by simpa using hall), components_nil]
    rw [hr c mem_cons_self, components_append, hnil, append_nil]

/-- Trimming a path drops slashes at its end. -/
theorem trimSlashes_append {path : CStr} (hpath : path ≠ []) :
    ∃ r, path = trimSlashes path ++ r ∧ trimSlashes path ≠ [] ∧ ∀ c ∈ r, c = slash := by
  have hcut := takeWhile_append_dropWhile (p := fun c => decide (c = slash)) (l := path.reverse)
  have hslash : ∀ c ∈ path.reverse.takeWhile (· = slash), c = slash := fun c hc => by
    simpa using mem_takeWhile_imp hc
  rw [trimSlashes]
  split_ifs with hall
  · refine ⟨path.drop 1, (take_append_drop 1 path).symm, by simpa using hpath, ?_⟩
    intro c hc
    rw [reverse_eq_nil_iff.1 hall, append_nil] at hcut
    apply hslash c
    rw [hcut]
    exact mem_reverse.2 (mem_of_mem_drop hc)
  refine ⟨(path.reverse.takeWhile (· = slash)).reverse, ?_, hall, ?_⟩
  · rw [← reverse_append, hcut, reverse_reverse]
  · intro c hc
    exact hslash c (mem_reverse.1 hc)

theorem lastComponent_of_not_mem {p : CStr} (h : slash ∉ p) : lastComponent p = p := by
  rw [lastComponent, takeWhile_eq_self_iff.2, reverse_reverse]
  intro c hc
  simp only [ne_eq, decide_not, Bool.not_eq_true', decide_eq_false_iff_not]
  rintro rfl
  exact h (mem_reverse.1 hc)

namespace Mount

theorem lookupComponents_snoc (names : List CStr) (name : CStr) (cur : Nat) (fs : Mount) :
    lookupComponents (names ++ [name]) cur fs = match lookupComponents names cur fs with
      | (none, fs) => (none, fs)
      | (some d, fs) => fs.lookupInDir d name := by
  induction names generalizing cur fs with
  | nil =>
    rw [nil_append, lookupComponents, lookupComponents]
    dsimp only
    rcases fs.lookupInDir cur name with ⟨_ | next, fs'⟩ <;> rfl
  | cons first rest ih =>
    rw [cons_append, lookupComponents, lookupComponents]
    rcases fs.lookupInDir cur first with ⟨_ | next, fs'⟩
    · rfl
    · exact ih next fs'

/-- A path is followed from the root or from the start, component by component. -/
theorem lookup_eq_components (fs : Mount) (start : Nat) (path : CStr) :
    fs.lookup start path = lookupComponents (components path)
      (if path.head? = some slash then fs.rootInode else start) fs := by
  unfold lookup
  split_ifs with hhead
  · obtain ⟨rest, rfl⟩ := head?_eq_some_iff.1 hhead
    rw [tail_cons, components_slash]
  · rfl

/-- Where `lufirafs_resolve_parent` finds a parent, it follows all components but the last, and the
last is the name. -/
theorem resolveParent_components {fs fs' : Mount} {start parent : Nat} {path name : CStr}
    (h : fs.resolveParent start path = (some (parent, name), fs')) :
    name ≠ [] ∧ ∃ names, components path = names ++ [name] ∧ (some parent, fs') =
      lookupComponents names (if path.head? = some slash then fs.rootInode else start) fs := by
  rw [resolveParent] at h
  by_cases hpath : path = []
  · rw [if_pos hpath] at h
    cases h
  obtain ⟨r, hr, hne, hslash⟩ := trimSlashes_append hpath
  have hcomp : components path = components (trimSlashes path) := by
    conv_lhs => rw [hr, components_append_slashes _ hslash]
  have hhead : path.head? = (trimSlashes path).head? := by
    conv_lhs => rw [hr, head?_append_of_ne_nil _ hne]
  rw [if_neg hpath] at h
  rw [hcomp, hhead]
  generalize trimSlashes path = p at h hne
  dsimp only at h
  split_ifs at h with hwhole hlong hlen hroot hfar
  · cases h
  · -- no slash is left: the start is the parent
    have hnot : slash ∉ p := fun hmem => by
      have hsplit := congrArg List.length (split_lastComponent hmem).1
      rw [length_append, length_cons] at hsplit
      omega
    cases h
    refine ⟨hne, [], components_name hnot hne (Nat.le_of_not_lt hlong), ?_⟩
    have hrel : name.head? ≠ some slash := fun hs => hnot (mem_of_mem_head? hs)
    rw [if_neg hrel]
    rfl
  · cases h
  all_goals
    have hmem : slash ∈ p := by
      by_contra hnot
      exact hwhole (by rw [lastComponent_of_not_mem hnot])
    obtain ⟨hsplit, hnot⟩ := split_lastComponent hmem
    push Not at hlen
    have hlast : lastComponent p ≠ [] := length_pos_iff.1 (by omega)
    have hsnoc := components_snoc (p.take (p.length - (lastComponent p).length - 1)) hnot hlast
      (by omega)
    rw [hsplit] at hsnoc
  · -- the only slash is in front: the root is the parent
    rw [hroot, take_zero, nil_append] at hsplit
    rw [hroot, take_zero, components_nil] at hsnoc
    cases h
    refine ⟨hlast, [], hsnoc, ?_⟩
    rw [if_pos (by rw [← hsplit]; rfl)]
    rfl
  · cases h
  · split at h
    · cases h
    · next d fs₁ hlook =>
      cases h
      refine ⟨hlast, _, hsnoc, ?_⟩
      rw [← hlook, lookup_eq_components]
      congr 3
      rw [head?_take, if_neg hroot]

/-- To look a path up is to look its name up in its parent. -/
theorem lookup_eq_parent {fs fs' : Mount} {start parent : Nat} {path name : CStr}
    (h : fs.resolveParent start path = (some (parent, name), fs')) :
    fs.lookup start path = fs'.lookupInDir parent name := by
  obtain ⟨-, names, hnames, hparent⟩ := resolveParent_components h
  rw [lookup_eq_components, hnames, lookupComponents_snoc, ← hparent]

/-- **The parent of a path and the path lead to the same inode.** -/
theorem lookup_iff_parent {fs fs' : Mount} {start parent : Nat} {path name : CStr}
    (h : fs.resolveParent start path = (some (parent, name), fs')) (r : Nat) :
    (fs.lookup start path).1 = some r ↔ (fs'.lookupInDir parent name).1 = some r := by
  rw [lookup_eq_parent h]

theorem lookup_iff_parent_long : (longMount.lookupInDir longMount.rootInode longName).1 =
    some 2 := by
  have hlook : (longMount.lookup 1 (slash :: longName ++ [slash])).1 = some 2 := by decide +kernel
  exact (lookup_iff_parent rfl 2).1 hlook

end Mount

end LufiraFs
