import LufiraOS.Lib.Split
import LufiraOS.Ramfs.Core

/-!
# Which mount serves a path

FAT, RAMFS, ext2 and exFAT each keep a table of mounts of their own.  `vfs_open` asks them
in this order; each takes its first slot whose stored prefix the path begins with, and
LufiraFS gets what no table takes.  So the slots of all tables form one list that is searched
from its start.

The path belongs to the mount with the longest prefix.  The search finds that one if in the list
each mount stands before those above it in the tree.
-/

namespace Routing

open List

open Ramfs.Mount (components)

variable {s : State} {k : Nat}

abbrev Str := List UInt8

inductive Backend where
  | fat
  | ramfs
  | ext2
  | exfat
  deriving DecidableEq

/-- A mount: the prefix as the table stores it, and as the call gave it. -/
structure Mount where
  backend : Backend
  stored : Str
  given : Str
  number : Nat
  deriving DecidableEq

/-- The tables of mounts. -/
structure State where
  table : Backend → List (Option Mount)
  count : Nat

/-- `MAX_VFS_FAT_MOUNTS`, `RAMFS_MAX_MOUNTS`, `EXT2_MOUNT_MAX` and `EXFAT_MOUNT_MAX`. -/
def slots : Backend → Nat
  | .fat => 2
  | .ramfs => 4
  | .ext2 => 2
  | .exfat => 2

def State.init : State := ⟨fun b => List.replicate (slots b) none, 0⟩

def State.mounts (s : State) (b : Backend) : List Mount := (s.table b).filterMap id

/-- The test of `find_mount_for_path`.  FAT has no directories, so its rest is one component. -/
def Mount.serves (m : Mount) (path : Str) : Bool :=
  let rest := path.drop m.stored.length
  m.stored.isPrefixOf path && (rest.head? = none || rest.head? = some 47) &&
    (m.backend ≠ .fat || !(rest.dropWhile (· = 47)).contains 47)

/-- `find_mount_for_path` of a backend. -/
def State.findMount (s : State) (b : Backend) (path : Str) : Option Mount :=
  (s.mounts b).find? fun m => m.serves path

/-- The mount to which `vfs_open` gives the path; `none` is LufiraFS. -/
def State.route (s : State) (path : Str) : Option Mount :=
  s.findMount .fat path <|> s.findMount .ramfs path <|> s.findMount .ext2 path <|>
    s.findMount .exfat path

/-- The first free slot. -/
def State.freeSlot (s : State) (b : Backend) : Option Nat := (s.table b).findIdx? Option.isNone

def State.setSlot (s : State) (b : Backend) (k : Nat) (m : Option Mount) : State :=
  { s with table := fun c => if c = b then (s.table b).set k m else s.table c }

/-- `vfs_fat_mount`, `ramfs_mount`, `vfs_ext2_mount` and `vfs_exfat_mount`; `device` says that the
volume can be used.  `none` is a failure. -/
def State.mount (s : State) (b : Backend) (pre : Str) (device : Bool) : Option State :=
  if pre.head? ≠ some 47 ∨ ∃ m ∈ s.mounts b, m.stored = pre then none
  else
    match s.freeSlot b with
    | none => none
    | some k =>
      if device then
        some { s.setSlot b k (some ⟨b, pre.take 31, pre, s.count⟩) with count := s.count + 1 }
      else none

/-- The four functions that unmount; `none` is their result -1. -/
def State.unmount (s : State) (b : Backend) (pre : Str) : Option State :=
  match (s.table b).findIdx? fun m => m.any fun m => m.stored = pre with
  | none => none
  | some k => some (s.setSlot b k none)

inductive Call where
  | mount (b : Backend) (pre : Str) (device : Bool)
  | unmount (b : Backend) (pre : Str)

/-- A call that fails changes nothing. -/
def State.step (s : State) : Call → State
  | .mount b pre device => (s.mount b pre device).getD s
  | .unmount b pre => (s.unmount b pre).getD s

/-! ### What is meant -/

/-- The order in which `vfs_open` asks. -/
def order : List Backend := [.fat, .ramfs, .ext2, .exfat]

/-- All mounts, as they are searched. -/
def State.all (s : State) : List Mount := order.flatMap s.mounts

/-- The prefix of the mount matches the path component by component. -/
def Mount.Above (m : Mount) (path : Str) : Prop := components m.given <+: components path

instance (m : Mount) (path : Str) : Decidable (m.Above path) := by
  unfold Mount.Above
  infer_instance

/-- The longest prefix that matches. -/
def State.Longest (s : State) (path : Str) (m : Mount) : Prop :=
  m ∈ s.all ∧ m.Above path ∧
    ∀ m' ∈ s.all, m'.Above path → (components m'.given).length ≤ (components m.given).length

/-- The limit of FAT mounts: one component below the prefix. -/
def Mount.InLimit (m : Mount) (path : Str) : Prop :=
  m.backend = .fat → (components path).length ≤ (components m.given).length + 1

/-- The path is served by the mount with the longest prefix, or by LufiraFS when none matches. -/
def State.Served (s : State) (path : Str) : Prop :=
  (∀ m, s.Longest path m → m.InLimit path → s.route path = some m) ∧
    ((∀ m ∈ s.all, ¬ m.Above path) → s.route path = none)

/-- A mounted prefix can be unmounted. -/
def State.Unmountable (s : State) : Prop :=
  ∀ b, ∀ m ∈ s.mounts b, (s.unmount b m.given).isSome = true

/-- The path with these components. -/
def joinPath (comps : List Str) : Str := comps.flatMap fun c => 47 :: c

/-- No empty components, and no slash at the end. -/
def Canonical (path : Str) : Prop := path = joinPath (components path)

/-- The mounts that are searched before slot `k` of a table. -/
def State.before (s : State) (b : Backend) (k : Nat) : List Mount :=
  (order.takeWhile (· ≠ b)).flatMap s.mounts ++ ((s.table b).take k).filterMap id

/-- The mounts that are searched after slot `k` of a table. -/
def State.after (s : State) (b : Backend) (k : Nat) : List Mount :=
  ((s.table b).drop (k + 1)).filterMap id ++
    (order.dropWhile (· ≠ b)).tail.flatMap s.mounts

/-- **The condition on a call.**  A mounted prefix has at most 31 bytes and is written without empty
components, and in the search no mount above it comes before it and none below it after. -/
def State.Fits (s : State) : Call → Prop
  | .mount b pre _ => Canonical pre ∧ pre ≠ [] ∧ pre.length ≤ 31 ∧ ∀ k, s.freeSlot b = some k →
      (∀ m ∈ s.before b k, ¬ components m.given <+: components pre) ∧
        ∀ m ∈ s.after b k, ¬ components pre <+: components m.given
  | .unmount _ _ => True

/-! ### Paths and components -/

theorem mem_components {s c : Str} (h : c ∈ components s) : c ≠ [] ∧ (47 : UInt8) ∉ c := by
  obtain ⟨hmem, hne⟩ := mem_filter.1 h
  refine ⟨of_decide_eq_true hne, fun hc => ?_⟩
  have := (Split.mem_splitOnP hmem 47 hc).2
  simp at this

theorem joinPath_cons (c : Str) (comps : List Str) :
    joinPath (c :: comps) = 47 :: (c ++ joinPath comps) := by
  simp [joinPath]

theorem joinPath_append (P R : List Str) : joinPath (P ++ R) = joinPath P ++ joinPath R := by
  simp [joinPath]

/-- What follows a component starts with a slash, if there is anything. -/
def AtBoundary (tail : Str) : Prop := tail.head? = none ∨ tail.head? = some 47

theorem atBoundary_joinPath (comps : List Str) : AtBoundary (joinPath comps) := by
  cases comps with
  | nil => exact .inl rfl
  | cons c comps => exact .inr (by rw [joinPath_cons]; rfl)

theorem takeWhile_component {c tail : Str} (hc : (47 : UInt8) ∉ c) (htail : AtBoundary tail) :
    (c ++ tail).takeWhile (fun x => decide (x ≠ 47)) = c := by
  have hall : ∀ x ∈ c, decide (x ≠ 47) = true := fun x hx => decide_eq_true fun h => hc (h ▸ hx)
  rw [takeWhile_append_of_pos hall]
  cases tail with
  | nil => simp
  | cons x tail =>
    rcases htail with h | h
    · cases h
    · have hx : x = 47 := by simpa using h
      simp [hx]

/-- A path that continues another at a boundary has its components first. -/
theorem prefix_of_joinPath {P Q : List Str} {tail : Str} (hP : ∀ c ∈ P, (47 : UInt8) ∉ c)
    (hQ : ∀ c ∈ Q, (47 : UInt8) ∉ c) (htail : AtBoundary tail)
    (h : joinPath P ++ tail = joinPath Q) : P <+: Q := by
  induction P generalizing Q with
  | nil => exact nil_prefix
  | cons c P ih =>
    cases Q with
    | nil =>
      rw [joinPath_cons] at h
      cases h
    | cons d Q =>
      rw [joinPath_cons, joinPath_cons, cons_append, List.cons.injEq] at h
      have h := h.2
      rw [append_assoc] at h
      have hboundary : AtBoundary (joinPath P ++ tail) := by
        cases P with
        | nil => exact htail
        | cons e P => exact .inr (by rw [joinPath_cons]; rfl)
      have hcd : c = d := by
        rw [← takeWhile_component (hP c mem_cons_self) hboundary, h,
          takeWhile_component (hQ d mem_cons_self) (atBoundary_joinPath Q)]
      subst hcd
      have hrest := append_cancel_left h
      exact cons_prefix_cons.2 ⟨rfl, ih (fun e he => hP e (mem_cons_of_mem _ he))
        (fun e he => hQ e (mem_cons_of_mem _ he)) hrest⟩

/-- A path that a canonical prefix can be compared with: canonical itself, or the root. -/
def Plain (path : Str) : Prop := Canonical path ∨ path = [47]

/-- What is left of a path below a prefix, without its first slashes. -/
theorem contains_slash_rest {R : List Str} (hR : ∀ c ∈ R, c ≠ [] ∧ (47 : UInt8) ∉ c) :
    ((joinPath R).dropWhile (fun x => decide (x = 47))).contains 47 = true ↔ 2 ≤ R.length := by
  rcases R with _ | ⟨c, R⟩
  · simp [joinPath]
  obtain ⟨hne, hc⟩ := hR c mem_cons_self
  have hdrop : (joinPath (c :: R)).dropWhile (fun x => decide (x = 47)) = c ++ joinPath R := by
    rw [joinPath_cons]
    cases c with
    | nil => exact absurd rfl hne
    | cons x c =>
      have hx : x ≠ 47 := fun h => hc (h ▸ mem_cons_self)
      simp [hx]
  rw [hdrop, contains_iff_mem, mem_append]
  rcases R with _ | ⟨d, R⟩
  · simp [joinPath, hc]
  · simp [joinPath_cons]

/-- A mount whose prefix is stored whole serves the paths below it, within the limit of FAT. -/
theorem serves_iff {m : Mount} {path : Str} (hstored : m.stored = m.given)
    (hgiven : Canonical m.given) (hne : m.given ≠ []) (hpath : Plain path) :
    m.serves path = true ↔ m.Above path ∧ m.InLimit path := by
  have hP : ∀ c ∈ components m.given, (47 : UInt8) ∉ c := fun c hc => (mem_components hc).2
  have hQ : ∀ c ∈ components path, (47 : UInt8) ∉ c := fun c hc => (mem_components hc).2
  have hcomps : components m.given ≠ [] := by
    intro h
    rw [Canonical, h] at hgiven
    exact hne hgiven
  -- the root is below no prefix
  rcases hpath with hpath | rfl
  · constructor
    · intro h
      unfold Mount.serves at h
      simp only [Bool.and_eq_true, Bool.or_eq_true, decide_eq_true_eq, isPrefixOf_iff_prefix] at h
      obtain ⟨⟨hpre, hboundary⟩, hfat⟩ := h
      obtain ⟨tail, rfl⟩ := hpre
      rw [drop_left] at hboundary hfat
      rw [hstored] at hpath hQ ⊢
      have habove : components m.given <+: components (m.given ++ tail) := by
        refine prefix_of_joinPath hP hQ hboundary ?_
        rw [← hgiven, ← hpath]
      refine ⟨habove, fun hb => ?_⟩
      obtain ⟨R, hR⟩ := habove
      have htail : tail = joinPath R := by
        have hjoin : m.given ++ tail = joinPath (components m.given) ++ joinPath R := by
          rw [← joinPath_append, hR]
          exact hpath
        rw [← hgiven] at hjoin
        exact append_cancel_left hjoin
      have hRgood : ∀ c ∈ R, c ≠ [] ∧ (47 : UInt8) ∉ c := by
        intro c hc
        apply mem_components (s := m.given ++ tail)
        rw [← hR]
        exact mem_append_right _ hc
      rcases hfat with hfat | hfat
      · exact absurd hb hfat
      rw [htail] at hfat
      have hlt : ¬ 2 ≤ R.length := by
        rw [← contains_slash_rest hRgood]
        simpa using hfat
      rw [← hR, length_append]
      omega
    rintro ⟨⟨R, hR⟩, hlimit⟩
    have hsplit : path = m.given ++ joinPath R := by
      rw [hpath, ← hR, joinPath_append, ← hgiven]
    have hRgood : ∀ c ∈ R, c ≠ [] ∧ (47 : UInt8) ∉ c := by
      intro c hc
      apply mem_components (s := path)
      rw [← hR]
      exact mem_append_right _ hc
    unfold Mount.serves
    simp only [Bool.and_eq_true, Bool.or_eq_true, decide_eq_true_eq, isPrefixOf_iff_prefix]
    rw [hstored]
    have hdrop : path.drop m.given.length = joinPath R := by
      rw [hsplit, drop_left]
    rw [hdrop]
    refine ⟨⟨⟨joinPath R, hsplit.symm⟩, atBoundary_joinPath R⟩, ?_⟩
    by_cases hb : m.backend = .fat
    · right
      have hlength := hlimit hb
      rw [← hR, length_append] at hlength
      have hno : ¬ ((joinPath R).dropWhile (fun x => decide (x = 47))).contains 47 = true := by
        rw [contains_slash_rest hRgood]
        omega
      simpa using hno
    · exact .inl hb
  have hroot : components [47] = [] := by decide
  constructor
  · intro h
    exfalso
    unfold Mount.serves at h
    simp only [Bool.and_eq_true, isPrefixOf_iff_prefix] at h
    have hlength := h.1.1.length_le
    rcases hcases : components m.given with _ | ⟨c, comps⟩
    · exact hcomps hcases
    obtain ⟨hcne, -⟩ := mem_components (s := m.given) (c := c) (by rw [hcases]; simp)
    have hpos : 0 < c.length := length_pos_iff.2 hcne
    have hjoin : m.given = 47 :: (c ++ joinPath comps) := by
      rw [← joinPath_cons, ← hcases]
      exact hgiven
    rw [hstored, hjoin] at hlength
    simp only [length_cons, length_append, length_nil] at hlength
    omega
  rintro ⟨habove, -⟩
  exfalso
  unfold Mount.Above at habove
  rw [hroot] at habove
  exact hcomps (prefix_nil.1 habove)

/-! ### The search -/

theorem route_eq (s : State) (path : Str) : s.route path = s.all.find? fun m => m.serves path := by
  simp [State.route, State.findMount, State.all, order, find?_append]

/-- The mounts in the order of the search, each before those above it. -/
structure State.Inv (s : State) : Prop where
  good : ∀ m ∈ s.all, m.stored = m.given ∧ Canonical m.given ∧ m.given ≠ []
  sorted : s.all.Pairwise fun x y => ¬ components x.given <+: components y.given

theorem served_of_inv (hs : s.Inv) {path : Str} (hpath : Plain path) : s.Served path := by
  have hserves : ∀ m ∈ s.all, (m.serves path = true ↔ m.Above path ∧ m.InLimit path) := by
    intro m hm
    obtain ⟨hstored, hcanonical, hne⟩ := hs.good m hm
    exact serves_iff hstored hcanonical hne hpath
  rw [State.Served, route_eq]
  constructor
  · rintro m ⟨hm, habove, hlongest⟩ hlimit
    have hm' := (hserves m hm).2 ⟨habove, hlimit⟩
    cases hfind : s.all.find? fun m => m.serves path with
    | none => exact absurd hm' (find?_eq_none.1 hfind m hm)
    | some x =>
      obtain ⟨hx, as, bs, hsplit, hnone⟩ := find?_eq_some_iff_append.1 hfind
      have hmem : x ∈ s.all := mem_of_find?_eq_some hfind
      have hxabove := ((hserves x hmem).1 hx).1
      -- the one found is no longer than the longest, and above it
      have hpre : components x.given <+: components m.given :=
        prefix_of_prefix_length_le hxabove habove (hlongest x hmem hxabove)
      have hplace : m ∈ as ∨ m = x ∨ m ∈ bs := by
        rw [hsplit] at hm
        simpa using hm
      rcases hplace with hbefore | rfl | hafter
      · have hmiss := hnone m hbefore
        simp [hm'] at hmiss
      · rfl
      have hpair := hs.sorted
      rw [hsplit] at hpair
      have htail := (pairwise_append.1 hpair).2.1
      exact absurd hpre ((pairwise_cons.1 htail).1 m hafter)
  · intro hnone
    exact find?_eq_none.2 fun m hm h => hnone m hm ((hserves m hm).1 h).1

/-! ### The tables -/

theorem filterMap_set_none {l : List (Option Mount)} :
    ((l.set k none).filterMap id).Sublist (l.filterMap id) := by
  induction l generalizing k with
  | nil => exact List.Sublist.refl _
  | cons x l ih =>
    cases k with
    | zero =>
      cases x with
      | none => exact List.Sublist.refl _
      | some m => exact sublist_cons_self _ _
    | succ k =>
      cases x with
      | none => exact ih
      | some m => exact List.Sublist.cons_cons _ ih

theorem filterMap_set_some {l : List (Option Mount)} (m : Mount) (hk : l[k]? = some none) :
    (l.set k (some m)).filterMap id = (l.take k).filterMap id ++ m ::
    (l.drop (k + 1)).filterMap id ∧
      l.filterMap id = (l.take k).filterMap id ++ (l.drop (k + 1)).filterMap id := by
  obtain ⟨hlt, hget⟩ := List.getElem?_eq_some_iff.1 hk
  have hsplit : l = l.take k ++ none :: l.drop (k + 1) := by
    rw [← hget, ← drop_eq_getElem_cons hlt, take_append_drop]
  constructor
  · rw [set_eq_take_append_cons_drop, if_pos hlt, filterMap_append]
    rfl
  · nth_rewrite 1 [hsplit]
    rw [filterMap_append]
    rfl

/-- A new mount in a free slot stands between those before and those after the slot. -/
theorem all_setSlot_some {b : Backend} (m : Mount) (hk : (s.table b)[k]? = some none) :
    (s.setSlot b k (some m)).all = s.before b k ++ m :: s.after b k ∧
      s.all = s.before b k ++ s.after b k := by
  obtain ⟨h1, h2⟩ := filterMap_set_some m hk
  have h1' : ((s.table b).set k (some m)).filterMap (fun x => x) =
      ((s.table b).take k).filterMap (fun x => x) ++
        m :: ((s.table b).drop (k + 1)).filterMap (fun x => x) := h1
  have h2' : (s.table b).filterMap (fun x => x) = ((s.table b).take k).filterMap (fun x => x) ++
      ((s.table b).drop (k + 1)).filterMap (fun x => x) := h2
  cases b <;>
    simp [State.all, State.before, State.after, order, State.mounts, State.setSlot, h1', h2']

theorem all_setSlot_none (s : State) (b : Backend) (k : Nat) :
    (s.setSlot b k none).all.Sublist s.all := by
  have hsub : ∀ c, ((s.setSlot b k none).mounts c).Sublist (s.mounts c) := by
    intro c
    unfold State.mounts State.setSlot
    dsimp only
    by_cases hc : c = b
    · subst hc
      rw [if_pos rfl]
      exact filterMap_set_none
    · rw [if_neg hc]
  simp only [State.all, order, flatMap_cons, flatMap_nil]
  exact (hsub _).append ((hsub _).append ((hsub _).append ((hsub _).append (List.Sublist.refl _))))

theorem inv_init : State.init.Inv := by
  have hall : State.init.all = [] := by decide
  refine ⟨fun m hm => ?_, ?_⟩
  · rw [hall] at hm
    cases hm
  · rw [hall]
    exact List.Pairwise.nil

theorem inv_mount {s' : State} {b : Backend} {pre : Str} {device : Bool} (hs : s.Inv)
    (hfits : s.Fits (.mount b pre device)) (h : s.mount b pre device = some s') : s'.Inv := by
  obtain ⟨hcanonical, hne, hlength, horder⟩ := hfits
  unfold State.mount at h
  split at h
  · cases h
  cases hslot : s.freeSlot b with
  | none =>
    rw [hslot] at h
    cases h
  | some k =>
    rw [hslot] at h
    dsimp only at h
    split at h
    · cases h
      obtain ⟨hbefore, hafter⟩ := horder k hslot
      have hfree : (s.table b)[k]? = some none := by
        obtain ⟨hlt, hnone, -⟩ := findIdx?_eq_some_iff_getElem.1 hslot
        rw [getElem?_eq_getElem hlt]
        exact congrArg some (Option.isNone_iff_eq_none.1 hnone)
      obtain ⟨hnew, hold⟩ := all_setSlot_some ⟨b, pre.take 31, pre, s.count⟩ hfree
      have hstored : pre.take 31 = pre := take_of_length_le hlength
      have hgood := hs.good
      have hsorted := hs.sorted
      rw [hold] at hgood hsorted
      obtain ⟨hs1, hs2, hs12⟩ := pairwise_append.1 hsorted
      have hall : ∀ c, State.all { s.setSlot b k (some ⟨b, pre.take 31, pre, s.count⟩) with
          count := c } = s.before b k ++ ⟨b, pre.take 31, pre, s.count⟩ :: s.after b k :=
        fun c => hnew
      refine ⟨fun m hm => ?_, ?_⟩
      · rw [hall] at hm
        rcases mem_append.1 hm with hm | hm
        · exact hgood m (mem_append_left _ hm)
        rcases mem_cons.1 hm with rfl | hm
        · exact ⟨hstored, hcanonical, hne⟩
        · exact hgood m (mem_append_right _ hm)
      rw [hall]
      refine pairwise_append.2 ⟨hs1, pairwise_cons.2 ⟨hafter, hs2⟩, ?_⟩
      intro x hx y hy
      rcases mem_cons.1 hy with rfl | hy
      · exact hbefore x hx
      · exact hs12 x hx y hy
    · cases h

theorem inv_step {c : Call} (hs : s.Inv) (hfits : s.Fits c) : (s.step c).Inv := by
  cases c with
  | mount b pre device =>
    show ((s.mount b pre device).getD s).Inv
    cases hmount : s.mount b pre device with
    | none => exact hs
    | some s' => exact inv_mount hs hfits hmount
  | unmount b pre =>
    show ((s.unmount b pre).getD s).Inv
    unfold State.unmount
    cases hslot : (s.table b).findIdx? fun m => m.any fun m => m.stored = pre with
    | none => exact hs
    | some k =>
      have hsub := all_setSlot_none s b k
      exact ⟨fun m hm => hs.good m (hsub.subset hm), hs.sorted.sublist hsub⟩

theorem unmountable_of_inv (hs : s.Inv) : s.Unmountable := by
  intro b m hm
  have hall : m ∈ s.all := mem_flatMap.2 ⟨b, by cases b <;> simp [order], hm⟩
  obtain ⟨hstored, -⟩ := hs.good m hall
  obtain ⟨x, hx, hxm⟩ := mem_filterMap.1 hm
  unfold State.unmount
  split
  · rename_i hnone
    have := findIdx?_eq_none_iff.1 hnone x hx
    have hxm' : x = some m := hxm
    rw [hxm'] at this
    simp [hstored] at this
  · rfl

/-! ### Every history of mounts -/

/-- **The longest prefix serves the path.**  In every history of mounts that meet the condition,
each path without empty components is served by the mount with the longest matching prefix, or by
LufiraFS, and every mounted prefix can be unmounted. -/
theorem longest_prefix_serves (calls : List Call)
    (hcalls : Run.Meets State.step State.Fits State.init calls) (path : Str) (hpath : Plain path) :
    let s := Run.run State.step State.init calls
    s.Served path ∧ s.Unmountable := by
  intro s
  have hs : s.Inv := hcalls.invariant (fun _ _ h hfits => inv_step h hfits) inv_init
  exact ⟨served_of_inv hs hpath, unmountable_of_inv hs⟩

/-- exFAT is mounted at `/t` and RAMFS, which is asked first, at `/t/u`; a path below both is
opened. -/
theorem longest_prefix_serves_tmp :
    let s := Run.run State.step State.init [.mount .exfat [47, 116] true,
      .mount .ramfs [47, 116, 47, 117] true]
    s.Served [47, 116, 47, 117, 47, 97] ∧ s.Unmountable := by
  refine longest_prefix_serves [.mount .exfat [47, 116] true, .mount .ramfs [47, 116, 47, 117] true]
    ⟨⟨by unfold Canonical; decide, by decide, by decide, fun k _ => ⟨?_, ?_⟩⟩,
      ⟨by unfold Canonical; decide, by decide, by decide, fun k hk => ⟨?_, ?_⟩⟩, trivial⟩
    [47, 116, 47, 117, 47, 97] (.inl (by unfold Canonical; decide))
  · simp [State.before, order, State.init, State.mounts]
  · simp [State.after, order, State.init]
  · decide +revert
  · decide +revert

/-- RAMFS is mounted at `/t` and exFAT at `/t/u`. -/
def nestedMounts : List Call :=
    [.mount .ramfs [47, 116] true, .mount .exfat [47, 116, 47, 117] true]

/-- The file `/t/u/a` is below the exFAT mount, and RAMFS serves it. -/
theorem nested_not_served :
    ¬ (Run.run State.step State.init nestedMounts).Served [47, 116, 47, 117, 47, 97] := by
  intro h
  have hlongest : (Run.run State.step State.init nestedMounts).Longest [47, 116, 47, 117, 47, 97]
      ⟨.exfat, [47, 116, 47, 117], [47, 116, 47, 117], 1⟩ := by
    unfold State.Longest
    decide
  have hroute := h.1 _ hlongest (fun hb => by cases hb)
  revert hroute
  decide

end Routing
