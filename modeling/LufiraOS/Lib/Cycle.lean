import Mathlib.Tactic.Common
import Mathlib.Data.List.Basic

/-!
# Circular lists

A list whose nodes point to the next one, and whose last node points back to the
first.  `Path` says which nodes are met on the way from one node to another;
`collect` and `seek` are the loops a program writes to walk such a list; and the
last two lemmas put a node in and take one out.
-/

namespace Cycle

open List

variable {α : Type} {next next' : α → α} {a x z : α} {l m : List α}

/-- Following `next` from `a` visits `l` and arrives at `z`. -/
def Path (next : α → α) : α → List α → α → Prop
  | a, [], z => a = z
  | a, x :: l, z => a = x ∧ Path next (next x) l z

theorem path_append : Path next a (l ++ m) z ↔ ∃ y, Path next a l y ∧ Path next y m z := by
  induction l generalizing a with
  | nil => simp [Path]
  | cons x l ih => simp only [cons_append, Path, ih, exists_and_left, and_assoc]

theorem Path.congr (h : Path next a l z) (heq : ∀ x ∈ l, next' x = next x) :
    Path next' a l z := by
  induction l generalizing a with
  | nil => exact h
  | cons x l ih =>
    refine ⟨h.1, ?_⟩
    rw [heq x mem_cons_self]
    exact ih h.2 fun y hy => heq y (mem_cons_of_mem _ hy)

/-- A path that ends with the node `x` ends with the step from it. -/
theorem path_concat : Path next a (l ++ [x]) z ↔ Path next a l x ∧ next x = z := by
  rw [path_append]
  constructor
  · rintro ⟨y, hl, rfl, hz⟩
    exact ⟨hl, hz⟩
  · rintro ⟨hl, hz⟩
    exact ⟨x, hl, rfl, hz⟩

/-- Behind a node of a path, other than the last, comes another one of the path. -/
theorem Path.next_mem (h : Path next a (l ++ [x]) z) {y : α} (hy : y ∈ l) :
    next y ∈ (l ++ [x]).tail := by
  induction l generalizing a with
  | nil => cases hy
  | cons w l ih =>
    obtain ⟨rfl, hrest⟩ := h
    rcases mem_cons.1 hy with rfl | hy
    · cases l with
      | nil => exact mem_singleton.2 hrest.1
      | cons b l => exact mem_cons.2 (.inl hrest.1)
    · exact mem_of_mem_tail (ih hrest hy)

/-- Behind a node of a circular list comes a node of it. -/
theorem Path.next_mem_cycle {y : α} (h : Path next a (x :: l) a) (hy : y ∈ x :: l) :
    next y ∈ x :: l := by
  obtain ⟨m, w, hsplit⟩ : ∃ m w, x :: l = m ++ [w] :=
    (eq_nil_or_concat' (x :: l)).resolve_left (cons_ne_nil _ _)
  have hfirst : a = x := h.1
  rw [hsplit] at h hy
  rcases mem_append.1 hy with hy | hy
  · rw [hsplit]
    exact mem_of_mem_tail (h.next_mem hy)
  · rw [mem_singleton.1 hy, (path_concat.1 h).2, hfirst]
    exact mem_cons_self

/-! ## Walking -/

theorem exists_pred {m n : Nat} (h : m < n) : ∃ k, n = k + 1 := ⟨n - 1, by omega⟩

section

variable [DecidableEq α] {stop : α}

/-- `do visit a; a = next a while a ≠ stop`: the nodes visited, at most `n`. -/
def collect (next : α → α) (stop : α) : (n : Nat) → (a : α) → List α
  | 0, _ => []
  | n + 1, a => a :: if next a = stop then [] else collect next stop n (next a)

theorem collect_of_path {n : Nat} (h : Path next a (x :: l) stop) (hstop : stop ∉ l)
    (hn : l.length < n) : collect next stop n a = x :: l := by
  induction l generalizing a x n with
  | nil =>
    obtain ⟨k, rfl⟩ := exists_pred hn
    obtain ⟨rfl, hend⟩ := h
    have hend' : next a = stop := hend
    rw [collect, if_pos hend']
  | cons y l ih =>
    obtain ⟨k, rfl⟩ := exists_pred hn
    obtain ⟨rfl, hrest⟩ := h
    have hy : next a = y := hrest.1
    have hne : next a ≠ stop := by
      rw [hy]
      exact fun heq => hstop (heq ▸ mem_cons_self)
    rw [collect, if_neg hne,
      ih hrest (fun hm => hstop (mem_cons_of_mem _ hm)) (by simp at hn; omega)]

end

/-- `while not done a: a = next a`, at most `n` times. -/
def seek (next : α → α) (done : α → Prop) [DecidablePred done] : (n : Nat) → (a : α) → α
  | 0, a => a
  | n + 1, a => if done a then a else seek next done n (next a)

theorem seek_of_path {done : α → Prop} [DecidablePred done] {n : Nat}
    (h : Path next a (l ++ [x]) z) (hl : ∀ y ∈ l, ¬ done y) (hx : done x) (hn : l.length < n) :
    seek next done n a = x := by
  induction l generalizing a n with
  | nil =>
    obtain ⟨k, rfl⟩ := exists_pred hn
    obtain ⟨rfl, -⟩ := h
    rw [seek, if_pos hx]
  | cons y l ih =>
    obtain ⟨k, rfl⟩ := exists_pred hn
    obtain ⟨rfl, hrest⟩ := h
    rw [seek, if_neg (hl a mem_cons_self)]
    exact ih hrest (fun w hw => hl w (mem_cons_of_mem _ hw)) (by simp at hn; omega)

/-! ## Putting in and taking out -/

/-- A node is put between the last one and the first. -/
theorem Path.insert {h last : α} (hpath : Path next h (l ++ [last]) h)
    (hlast : next' last = a) (hnew : next' a = h) (hother : ∀ y ∈ l, next' y = next y) :
    Path next' h (l ++ [last] ++ [a]) h := by
  obtain ⟨hl, -⟩ := path_concat.1 hpath
  exact path_concat.2 ⟨path_concat.2 ⟨hl.congr hother, hlast⟩, hnew⟩

/-- The node `x` behind `q` is taken out. -/
theorem Path.erase {h q : α} (hpath : Path next h (l ++ q :: x :: m) z)
    (hq : next' q = next x) (hother : ∀ y ∈ l ++ m, next' y = next y) :
    Path next' h (l ++ q :: m) z := by
  obtain ⟨y, hl, rfl, -, hm⟩ := path_append.1 hpath
  refine path_append.2 ⟨y, hl.congr fun w hw => hother w (mem_append_left _ hw), rfl, ?_⟩
  rw [hq]
  exact hm.congr fun w hw => hother w (mem_append_right _ hw)

end Cycle
