import Mathlib.Logic.Basic
import Mathlib.Data.Option.Basic

/-!
# Directory hierarchies

A hierarchy has nodes, some of which are directories, and every directory has
entries at positions: a name and the node it stands for.  Two names are
reserved: one stands for the directory itself and one for its parent.

`WellFormed` is the property a file system keeps: every entry leads to a live
node, names are unique within a directory, the reserved entries are right, and
every live node but the root has exactly one proper entry.  It is kept by adding
a node together with one entry for it (`WellFormed.insert`), by removing a node
together with its entry (`WellFormed.erase`), and by any step that keeps what
can be seen (`WellFormed.congr`).
-/

universe u v w

/-- Nodes of type `ι` with directory entries at positions of type `π` and with
names of type `ν`. -/
structure Hierarchy (ι : Type u) (π : Type v) (ν : Type w) where
  root : ι
  live : ι → Prop
  dir : ι → Prop
  entry : ι → π → Option (ι × ν)

namespace Hierarchy

variable {ι : Type u} {π : Type v} {ν : Type w}

/-- Position `p` of directory `d` holds a proper entry for `i`: one under a name
that is not reserved. -/
def Names (H : Hierarchy ι π ν) (own up : ν) (d : ι) (p : π) (i : ι) : Prop :=
  H.dir d ∧ ∃ x, x ≠ own ∧ x ≠ up ∧ H.entry d p = some (i, x)

/-- **The hierarchy invariant.** -/
structure WellFormed (own up : ν) (H : Hierarchy ι π ν) : Prop where
  rootDir : H.dir H.root
  dirLive : ∀ {d}, H.dir d → H.live d
  /-- Every entry leads to a live node. -/
  target : ∀ {d p i x}, H.dir d → H.entry d p = some (i, x) → H.live i
  /-- Names are unique within a directory. -/
  unique : ∀ {d p q i j x}, H.dir d → H.entry d p = some (i, x) → H.entry d q = some (j, x) →
    p = q
  /-- A directory has an entry for itself. -/
  selfEntry : ∀ {d}, H.dir d → ∃ p, H.entry d p = some (d, own)
  /-- A directory has an entry for the directory that holds its proper entry. -/
  parentEntry : ∀ {d}, H.dir d → d ≠ H.root →
    ∃ p q e, H.entry d p = some (e, up) ∧ H.Names own up e q d
  /-- The root is its own parent. -/
  rootParent : ∃ p, H.entry H.root p = some (H.root, up)
  /-- Every live node but the root has a proper entry. -/
  named : ∀ {i}, H.live i → i ≠ H.root → ∃ d p, H.Names own up d p i
  /-- And it has only one. -/
  once : ∀ {i d p e q}, i ≠ H.root → H.Names own up d p i → H.Names own up e q i →
    d = e ∧ p = q

section

variable {own up : ν} {H H' : Hierarchy ι π ν}

/-- Only the root, the live nodes, the directories and the entries of the
directories matter. -/
theorem WellFormed.congr (h : WellFormed own up H) (hroot : H'.root = H.root)
    (hlive : ∀ i, H'.live i ↔ H.live i) (hdir : ∀ i, H'.dir i ↔ H.dir i)
    (hentry : ∀ d p, H.dir d → H'.entry d p = H.entry d p) : WellFormed own up H' := by
  have hnames : ∀ {d p i}, H'.Names own up d p i ↔ H.Names own up d p i := by
    intro d p i
    unfold Names
    rw [hdir]
    constructor
    · rintro ⟨hd, x, hs, hp, hx⟩
      exact ⟨hd, x, hs, hp, hentry d p hd ▸ hx⟩
    · rintro ⟨hd, x, hs, hp, hx⟩
      exact ⟨hd, x, hs, hp, (hentry d p hd).trans hx⟩
  constructor
  · rw [hroot, hdir]
    exact h.rootDir
  · intro d hd
    exact (hlive d).2 (h.dirLive ((hdir d).1 hd))
  · intro d p i x hd hx
    rw [hdir] at hd
    rw [hentry d p hd] at hx
    exact (hlive i).2 (h.target hd hx)
  · intro d p q i j x hd hx hy
    rw [hdir] at hd
    rw [hentry d _ hd] at hx hy
    exact h.unique hd hx hy
  · intro d hd
    rw [hdir] at hd
    obtain ⟨p, hp⟩ := h.selfEntry hd
    exact ⟨p, (hentry d p hd).trans hp⟩
  · intro d hd hne
    rw [hdir] at hd
    obtain ⟨p, q, e, hp, hq⟩ := h.parentEntry hd (hroot ▸ hne)
    exact ⟨p, q, e, (hentry d p hd).trans hp, hnames.2 hq⟩
  · obtain ⟨p, hp⟩ := h.rootParent
    rw [hroot]
    exact ⟨p, (hentry _ p h.rootDir).trans hp⟩
  · intro i hi hne
    obtain ⟨d, p, hp⟩ := h.named ((hlive i).1 hi) (hroot ▸ hne)
    exact ⟨d, p, hnames.2 hp⟩
  · intro i d p e q hne hp hq
    exact h.once (hroot ▸ hne) (hnames.1 hp) (hnames.1 hq)

/-! ## Adding a node -/

theorem entry_inj {o : Option (ι × ν)} {i j : ι} {x y : ν} (h : o = some (i, x))
    (h' : o = some (j, y)) : i = j ∧ x = y :=
  Prod.mk.inj (Option.some.inj (h.symm.trans h'))

/-- `H'` is `H` with a new node `i`, entered under the name `x` at the unused
position `p` of directory `d`.  A new directory holds the two reserved entries
and no others. -/
structure Inserted (own up : ν) (H H' : Hierarchy ι π ν) (d : ι) (p : π) (i : ι) (x : ν) :
    Prop where
  root : H'.root = H.root
  new : ¬ H.live i
  live : ∀ j, H'.live j ↔ H.live j ∨ j = i
  dir : ∀ {j}, j ≠ i → (H'.dir j ↔ H.dir j)
  inDir : H.dir d
  notSelf : x ≠ own
  notParent : x ≠ up
  free : H.entry d p = none
  fresh : ∀ q j, H.entry d q ≠ some (j, x)
  here : H'.entry d p = some (i, x)
  keep : ∀ {e q}, H.dir e → ¬ (e = d ∧ q = p) → H'.entry e q = H.entry e q
  reserved : H'.dir i → ∃ a b, a ≠ b ∧ H'.entry i a = some (i, own) ∧
    H'.entry i b = some (d, up) ∧ ∀ c, c ≠ a → c ≠ b → H'.entry i c = none

namespace Inserted

variable {d i : ι} {p : π} {x : ν}

section

variable (hi : Inserted own up H H' d p i x)

include hi

/-- The entries of a new directory are the reserved ones. -/
theorem new_entries (hdir : H'.dir i) : ∃ a b, ∀ {c k z}, H'.entry i c = some (k, z) →
    c = a ∧ k = i ∧ z = own ∨ c = b ∧ k = d ∧ z = up := by
  obtain ⟨a, b, _, ha, hb, hrest⟩ := hi.reserved hdir
  refine ⟨a, b, fun {c k z} hz => ?_⟩
  by_cases hca : c = a
  · subst hca
    exact .inl ⟨rfl, entry_inj hz ha⟩
  by_cases hcb : c = b
  · subst hcb
    exact .inr ⟨rfl, entry_inj hz hb⟩
  · rw [hrest c hca hcb] at hz
    cases hz

/-- An entry of an old directory is an old one, or the new one. -/
theorem entry_cases {e : ι} {q : π} {j : ι} {y : ν}
    (he : H.dir e) (hq : H'.entry e q = some (j, y)) :
    H.entry e q = some (j, y) ∨ (e = d ∧ q = p ∧ j = i ∧ y = x) := by
  by_cases hat : e = d ∧ q = p
  · obtain ⟨rfl, rfl⟩ := hat
    exact .inr ⟨rfl, rfl, entry_inj hq hi.here⟩
  · exact .inl ((hi.keep he hat).symm.trans hq)

/-- An old entry is still there. -/
theorem entry_old {e : ι} {q : π} {y : ι × ν}
    (he : H.dir e) (hq : H.entry e q = some y) : H'.entry e q = some y := by
  rw [hi.keep he, hq]
  rintro ⟨rfl, rfl⟩
  rw [hi.free] at hq
  cases hq

theorem dir_ne (h : WellFormed own up H) {e : ι} (he : H.dir e) : e ≠ i := by
  rintro rfl
  exact hi.new (h.dirLive he)

theorem dir_old (h : WellFormed own up H) {e : ι}
    (he : H.dir e) : H'.dir e :=
  (hi.dir (hi.dir_ne h he)).2 he

/-- The proper entries are the old ones and the new one. -/
theorem names_cases {e : ι} {q : π} {j : ι} (hq : H'.Names own up e q j) :
    H.Names own up e q j ∨ (e = d ∧ q = p ∧ j = i) := by
  obtain ⟨he, y, hs, hp, hy⟩ := hq
  by_cases hei : e = i
  · subst hei
    obtain ⟨a, b, hnew⟩ := hi.new_entries he
    rcases hnew hy with ⟨-, -, rfl⟩ | ⟨-, -, rfl⟩
    · exact absurd rfl hs
    · exact absurd rfl hp
  have he' := (hi.dir hei).1 he
  rcases hi.entry_cases he' hy with hold | ⟨rfl, rfl, rfl, _⟩
  · exact .inl ⟨he', y, hs, hp, hold⟩
  · exact .inr ⟨rfl, rfl, rfl⟩

theorem names_old (h : WellFormed own up H) {e : ι}
    {q : π} {j : ι} (hq : H.Names own up e q j) : H'.Names own up e q j := by
  obtain ⟨he, y, hs, hp, hy⟩ := hq
  exact ⟨hi.dir_old h he, y, hs, hp, hi.entry_old he hy⟩

theorem names_new (h : WellFormed own up H) :
    H'.Names own up d p i :=
  ⟨hi.dir_old h hi.inDir, x, hi.notSelf, hi.notParent, hi.here⟩

end

end Inserted

/-- **Adding a node.** -/
theorem WellFormed.insert {d i : ι} {p : π} {x : ν} (h : WellFormed own up H)
    (hdots : own ≠ up) (hi : Inserted own up H H' d p i x) :
    WellFormed own up H' := by
  have hnotNamed : ∀ {e q}, ¬ H.Names own up e q i := by
    rintro e q ⟨he, y, _, _, hy⟩
    exact hi.new (h.target he hy)
  constructor
  · rw [hi.root]
    exact hi.dir_old h h.rootDir
  · intro e he
    rw [hi.live]
    by_cases hei : e = i
    · exact .inr hei
    · exact .inl (h.dirLive ((hi.dir hei).1 he))
  · intro e q j y he hy
    rw [hi.live]
    by_cases hei : e = i
    · subst hei
      obtain ⟨a, b, hnew⟩ := hi.new_entries he
      rcases hnew hy with ⟨-, rfl, -⟩ | ⟨-, rfl, -⟩
      · exact .inr rfl
      · exact .inl (h.dirLive hi.inDir)
    have he' := (hi.dir hei).1 he
    rcases hi.entry_cases he' hy with hold | ⟨_, _, rfl, _⟩
    · exact .inl (h.target he' hold)
    · exact .inr rfl
  · intro e q q' j j' y he hy hy'
    by_cases hei : e = i
    · subst hei
      obtain ⟨a, b, hnew⟩ := hi.new_entries he
      -- the two entries of a new directory have different names
      rcases hnew hy with ⟨rfl, -, rfl⟩ | ⟨rfl, -, rfl⟩ <;>
        rcases hnew hy' with ⟨rfl, -, hz⟩ | ⟨rfl, -, hz⟩
      · rfl
      · exact absurd hz hdots
      · exact absurd hz.symm hdots
      · rfl
    have he' := (hi.dir hei).1 he
    rcases hi.entry_cases he' hy with hold | ⟨rfl, rfl, _, rfl⟩ <;>
      rcases hi.entry_cases he' hy' with hold' | ⟨hd, rfl, _, hx⟩
    · exact h.unique he' hold hold'
    · exact absurd (hx ▸ hd ▸ hold) (hi.fresh _ _)
    · exact absurd hold' (hi.fresh _ _)
    · rfl
  · intro e he
    by_cases hei : e = i
    · subst hei
      obtain ⟨a, _, _, ha, _⟩ := hi.reserved he
      exact ⟨a, ha⟩
    have he' := (hi.dir hei).1 he
    obtain ⟨q, hq⟩ := h.selfEntry he'
    exact ⟨q, hi.entry_old he' hq⟩
  · intro e he hne
    by_cases hei : e = i
    · subst hei
      obtain ⟨_, b, _, _, hb, _⟩ := hi.reserved he
      exact ⟨b, p, d, hb, hi.names_new h⟩
    have he' := (hi.dir hei).1 he
    obtain ⟨q, q', f, hq, hf⟩ := h.parentEntry he' (hi.root ▸ hne)
    exact ⟨q, q', f, hi.entry_old he' hq, hi.names_old h hf⟩
  · obtain ⟨q, hq⟩ := h.rootParent
    rw [hi.root]
    exact ⟨q, hi.entry_old h.rootDir hq⟩
  · intro j hj hne
    rcases (hi.live j).1 hj with hj | rfl
    · obtain ⟨e, q, hq⟩ := h.named hj (hi.root ▸ hne)
      exact ⟨e, q, hi.names_old h hq⟩
    · exact ⟨d, p, hi.names_new h⟩
  · intro j e q e' q' hne hq hq'
    rcases hi.names_cases hq with hold | ⟨rfl, rfl, rfl⟩
    · rcases hi.names_cases hq' with hold' | ⟨_, _, rfl⟩
      · exact h.once (hi.root ▸ hne) hold hold'
      · exact absurd hold hnotNamed
    rcases hi.names_cases hq' with hold' | ⟨rfl, rfl, _⟩
    · exact absurd hold' hnotNamed
    · exact ⟨rfl, rfl⟩

/-! ## Removing a node -/

/-- `H'` is `H` without the node `i`, whose proper entry was at position `p` of
directory `d`.  A directory is removed only when its entries are reserved. -/
structure Erased (own up : ν) (H H' : Hierarchy ι π ν) (d : ι) (p : π) (i : ι) : Prop where
  root : H'.root = H.root
  notRoot : i ≠ H.root
  other : i ≠ d
  named : H.Names own up d p i
  live : ∀ j, H'.live j ↔ H.live j ∧ j ≠ i
  dir : ∀ j, H'.dir j ↔ H.dir j ∧ j ≠ i
  gone : H'.entry d p = none
  keep : ∀ {e q}, H.dir e → e ≠ i → ¬ (e = d ∧ q = p) → H'.entry e q = H.entry e q
  empty : ∀ {q j x}, H.dir i → H.entry i q = some (j, x) → x = own ∨ x = up

/-- **Removing a node.** -/
theorem WellFormed.erase {d i : ι} {p : π} (h : WellFormed own up H)
    (hi : Erased own up H H' d p i) : WellFormed own up H' := by
  have hold : ∀ {e q y}, H'.dir e → H'.entry e q = some y → H.dir e ∧ e ≠ i ∧
      ¬ (e = d ∧ q = p) ∧ H.entry e q = some y := by
    intro e q y he hy
    obtain ⟨he', hei⟩ := (hi.dir e).1 he
    have hat : ¬ (e = d ∧ q = p) := by
      rintro ⟨rfl, rfl⟩
      rw [hi.gone] at hy
      cases hy
    exact ⟨he', hei, hat, (hi.keep he' hei hat).symm.trans hy⟩
  have hnames : ∀ {e q j}, H'.Names own up e q j → H.Names own up e q j := by
    rintro e q j ⟨he, y, hs, hp, hy⟩
    obtain ⟨he', _, _, hy'⟩ := hold he hy
    exact ⟨he', y, hs, hp, hy'⟩
  -- the proper entry of another node is neither the removed one nor in `i`
  have hkept : ∀ {e q j}, j ≠ i → H.Names own up e q j → H'.Names own up e q j := by
    rintro e q j hji ⟨he, y, hs, hp, hy⟩
    have hei : e ≠ i := by
      rintro rfl
      rcases hi.empty he hy with rfl | rfl
      · exact hs rfl
      · exact hp rfl
    have hat : ¬ (e = d ∧ q = p) := by
      rintro ⟨rfl, rfl⟩
      obtain ⟨_, z, _, _, hz⟩ := hi.named
      exact hji (entry_inj hy hz).1
    exact ⟨(hi.dir e).2 ⟨he, hei⟩, y, hs, hp, (hi.keep he hei hat).trans hy⟩
  -- a reserved entry of a remaining directory is not the removed one
  have hreserved : ∀ {e q j y}, H.dir e → e ≠ i → y = own ∨ y = up →
      H.entry e q = some (j, y) → H'.entry e q = some (j, y) := by
    intro e q j y he hei hdot hy
    rw [hi.keep he hei, hy]
    rintro ⟨rfl, rfl⟩
    obtain ⟨_, z, hs, hp, hz⟩ := hi.named
    rcases hdot with rfl | rfl
    · exact hs (entry_inj hz hy).2
    · exact hp (entry_inj hz hy).2
  constructor
  · rw [hi.root, hi.dir]
    exact ⟨h.rootDir, hi.notRoot.symm⟩
  · intro e he
    rw [hi.dir] at he
    exact (hi.live e).2 ⟨h.dirLive he.1, he.2⟩
  · intro e q j y he hy
    obtain ⟨he', hei, hat, hy'⟩ := hold he hy
    refine (hi.live j).2 ⟨h.target he' hy', ?_⟩
    rintro rfl
    by_cases hs : y = own
    · -- a directory's entry for itself
      subst hs
      obtain ⟨q', hq'⟩ := h.selfEntry he'
      obtain rfl := h.unique he' hy' hq'
      exact hei (entry_inj hq' hy').1
    by_cases hp : y = up
    · subst hp
      -- the parent of `e` would be `j`, which is then not empty
      by_cases hroot : e = H.root
      · subst hroot
        obtain ⟨q', hq'⟩ := h.rootParent
        obtain rfl := h.unique he' hy' hq'
        exact hi.notRoot (entry_inj hy' hq').1
      obtain ⟨q', q'', f, hq', hf, z, hzs, hzp, hz⟩ := h.parentEntry he' hroot
      obtain rfl := h.unique he' hy' hq'
      obtain ⟨rfl, -⟩ := entry_inj hy' hq'
      rcases hi.empty hf hz with rfl | rfl
      · exact hzs rfl
      · exact hzp rfl
    · exact hat (h.once hi.notRoot ⟨he', y, hs, hp, hy'⟩ hi.named)
  · intro e q q' j j' y he hy hy'
    obtain ⟨he', _, _, hx⟩ := hold he hy
    obtain ⟨_, _, _, hx'⟩ := hold he hy'
    exact h.unique he' hx hx'
  · intro e he
    obtain ⟨he', hei⟩ := (hi.dir e).1 he
    obtain ⟨q, hq⟩ := h.selfEntry he'
    exact ⟨q, hreserved he' hei (Or.inl rfl) hq⟩
  · intro e he hne
    obtain ⟨he', hei⟩ := (hi.dir e).1 he
    obtain ⟨q, q', f, hq, hf⟩ := h.parentEntry he' (hi.root ▸ hne)
    exact ⟨q, q', f, hreserved he' hei (Or.inr rfl) hq, hkept hei hf⟩
  · obtain ⟨q, hq⟩ := h.rootParent
    rw [hi.root]
    exact ⟨q, hreserved h.rootDir hi.notRoot.symm (Or.inr rfl) hq⟩
  · intro j hj hne
    obtain ⟨hj', hji⟩ := (hi.live j).1 hj
    obtain ⟨e, q, hq⟩ := h.named hj' (hi.root ▸ hne)
    exact ⟨e, q, hkept hji hq⟩
  · intro j e q e' q' hne hq hq'
    exact h.once (hi.root ▸ hne) (hnames hq) (hnames hq')

end

end Hierarchy
