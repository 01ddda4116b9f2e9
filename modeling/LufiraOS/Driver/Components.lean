import LufiraOS.Driver.Dir
import Mathlib.Data.List.TakeWhile

/-!
# The components of a path

The kernel and the tool cut a path in the same loop.  Equations for it that do
not mention the fuel, and what a path with a short last component is cut into.
-/

namespace LufiraFs

open ByteStore List

variable {p path c w : CStr}

theorem afterComponent_length (hp : p ≠ []) : (afterComponent p).length < p.length := by
  have hdrop : (afterComponent p).length ≤ (p.drop (component p).length).length :=
    (dropWhile_suffix _).length_le
  rw [length_drop] at hdrop
  cases p with
  | nil => exact absurd rfl hp
  | cons c p =>
    by_cases hc : c = slash
    · -- an empty component: the slash at the front is skipped
      subst hc
      have hempty : component (slash :: p) = [] := by simp [component]
      have hskip : afterComponent (slash :: p) = p.dropWhile (· = slash) := by
        simp [afterComponent, hempty]
      rw [hskip]
      have hle : (p.dropWhile (· = slash)).length ≤ p.length := (dropWhile_suffix _).length_le
      simp only [length_cons]
      omega
    have hpos : 0 < (component (c :: p)).length := by simp [component, hc]
    simp only [length_cons] at hdrop ⊢
    omega

theorem componentsAux_fuel {n m : Nat} (hn : p.length ≤ n) (hm : p.length ≤ m) :
    componentsAux n p = componentsAux m p := by
  induction n generalizing m p with
  | zero =>
    obtain rfl := length_eq_zero_iff.1 (Nat.le_zero.1 hn)
    cases m <;> rfl
  | succ n ih =>
    cases m with
    | zero =>
      obtain rfl := length_eq_zero_iff.1 (Nat.le_zero.1 hm)
      rfl
    | succ m =>
      by_cases hp : p = []
      · simp [componentsAux, hp]
      have hlt := afterComponent_length hp
      simp only [componentsAux, ih (show (afterComponent p).length ≤ n by omega)
        (show (afterComponent p).length ≤ m by omega)]

/-- One round of the loop. -/
theorem components_eq (hp : p ≠ []) :
    components p = if component p = [] then components (afterComponent p)
      else component p :: components (afterComponent p) := by
  have hlt := afterComponent_length hp
  cases p with
  | nil => exact absurd rfl hp
  | cons c p =>
    have hfuel : componentsAux p.length (afterComponent (c :: p)) =
        components (afterComponent (c :: p)) :=
      componentsAux_fuel (by simpa using Nat.le_of_lt_succ hlt) (Nat.le_refl _)
    show componentsAux (p.length + 1) (c :: p) = _
    rw [componentsAux, if_neg hp, hfuel]

@[simp] theorem components_nil : components [] = [] := rfl

theorem components_dropWhile (p : CStr) : components (p.dropWhile (· = slash)) = components p := by
  induction p with
  | nil => rfl
  | cons c p ih =>
    by_cases hc : c = slash
    · subst hc
      have hempty : component (slash :: p) = [] := by simp [component]
      have hskip : afterComponent (slash :: p) = p.dropWhile (· = slash) := by
        simp [afterComponent, hempty]
      rw [components_eq (cons_ne_nil _ _), if_pos hempty, hskip]
      simp
    · simp [hc]

/-- A slash at the front counts for nothing. -/
@[simp] theorem components_slash (p : CStr) : components (slash :: p) = components p := by
  have hdrop := components_dropWhile (slash :: p)
  rw [← hdrop]
  simp [components_dropWhile]

/-- A path that does not start with a slash has a component at its front. -/
theorem components_cons (hne : component p ≠ []) :
    components p = component p :: components (p.drop (component p).length) := by
  have hp : p ≠ [] := by
    rintro rfl
    exact hne rfl
  rw [components_eq hp, if_neg hne, afterComponent, components_dropWhile]

/-- Components are short. -/
theorem length_of_mem_components {c : CStr} (hc : c ∈ components p) : c.length ≤ 59 := by
  generalize hn : p.length = n
  induction n using Nat.strong_induction_on generalizing p with
  | _ n ih =>
    by_cases hp : p = []
    · subst hp
      simp at hc
    have hlt := afterComponent_length hp
    rw [components_eq hp] at hc
    split at hc
    · exact ih _ (hn ▸ hlt) hc rfl
    rcases mem_cons.1 hc with rfl | hrest
    · exact (length_take_le _ _)
    · exact ih _ (hn ▸ hlt) hrest rfl

/-- The loop of `pieces`. -/
def piecesAux : (fuel : Nat) → CStr → List CStr
  | 0, _ => []
  | fuel + 1, c => if c = [] then [] else c.take 59 :: piecesAux fuel (c.drop 59)

/-- A component cut after every 59 characters. -/
def pieces (c : CStr) : List CStr := piecesAux c.length c

theorem piecesAux_fuel {n m : Nat} (hn : c.length ≤ n) (hm : c.length ≤ m) :
    piecesAux n c = piecesAux m c := by
  induction n generalizing m c with
  | zero =>
    obtain rfl := length_eq_zero_iff.1 (Nat.le_zero.1 hn)
    cases m <;> rfl
  | succ n ih =>
    cases m with
    | zero =>
      obtain rfl := length_eq_zero_iff.1 (Nat.le_zero.1 hm)
      rfl
    | succ m =>
      rw [piecesAux, piecesAux]
      split
      · rfl
      · next hc =>
        rw [ih (m := m)] <;> rw [length_drop] <;> omega

theorem pieces_cons (hc : c ≠ []) : pieces c = c.take 59 :: pieces (c.drop 59) := by
  have hpos := length_pos_iff.2 hc
  obtain ⟨n, hn⟩ : ∃ n, c.length = n + 1 := ⟨c.length - 1, by omega⟩
  unfold pieces
  rw [hn, piecesAux, if_neg hc, piecesAux_fuel (Nat.le_refl _)]
  rw [length_drop]
  omega

@[simp] theorem pieces_nil : pieces [] = [] := rfl

/-- A short component is one piece. -/
theorem pieces_short (hc : c ≠ []) (hlen : c.length ≤ 59) : pieces c = [c] := by
  rw [pieces_cons hc, take_of_length_le hlen, drop_of_length_le hlen, pieces_nil]

/-- The word at the front of a path, and what follows it. -/
theorem word_cases (p : CStr) : ∃ w, slash ∉ w ∧ (p = w ∨ ∃ q, p = w ++ slash :: q) := by
  by_cases h : slash ∈ p
  · obtain ⟨w, q, hp, hw⟩ := eq_append_cons_of_mem h
    exact ⟨w, hw, .inr ⟨q, hp⟩⟩
  · exact ⟨p, h, .inl rfl⟩

/-- A word at the front of a path is read piece by piece. -/
theorem components_word (hw : slash ∉ w) {rest : CStr}
    (hrest : rest = [] ∨ ∃ q, rest = slash :: q) :
    components (w ++ rest) = pieces w ++ components rest := by
  generalize hn : w.length = n
  induction n using Nat.strong_induction_on generalizing w with
  | _ n ih =>
    by_cases hne : w = []
    · subst hne
      rfl
    have htake : (w ++ rest).takeWhile (· ≠ slash) = w := by
      rw [takeWhile_append_of_pos (by
        intro c hc
        simp only [ne_eq, decide_not, Bool.not_eq_true', decide_eq_false_iff_not]
        rintro rfl
        exact hw hc)]
      rcases hrest with rfl | ⟨q, rfl⟩ <;> simp
    have hpos := length_pos_iff.2 hne
    have hfirst : component (w ++ rest) = w.take 59 := by rw [component, htake]
    have hdrop : (w ++ rest).drop (w.take 59).length = w.drop 59 ++ rest := by
      rw [length_take]
      by_cases hlen : w.length ≤ 59
      · rw [Nat.min_eq_right hlen, drop_left', drop_of_length_le hlen]
        · rfl
        · rfl
      · rw [Nat.min_eq_left (by omega), drop_append_of_le_length (by omega)]
    rw [components_cons, hfirst, hdrop, ih (w.drop 59).length, pieces_cons hne, cons_append]
    · rw [length_drop]
      omega
    · exact fun h => hw (mem_of_mem_drop h)
    · rfl
    rw [hfirst]
    intro h0
    have := congrArg List.length h0
    rw [length_take, length_nil] at this
    omega

theorem components_single (hw : slash ∉ w) : components w = pieces w := by
  have hread := components_word hw (.inl (rfl : ([] : CStr) = []))
  rwa [append_nil, components_nil, append_nil] at hread

/-- **A slash** separates the components in front of it from those behind it. -/
theorem components_append (q r : CStr) :
    components (q ++ slash :: r) = components q ++ components r := by
  generalize hn : q.length = n
  induction n using Nat.strong_induction_on generalizing q with
  | _ n ih =>
    obtain ⟨w, hw, rfl | ⟨q', rfl⟩⟩ := word_cases q
    · rw [components_word hw (.inr ⟨r, rfl⟩), components_slash, components_single hw]
    have hlt : q'.length < n := by
      rw [← hn, length_append, length_cons]
      omega
    rw [append_assoc, cons_append, components_word hw (.inr ⟨_, rfl⟩), components_slash,
      ih _ hlt q' rfl, components_word hw (.inr ⟨q', rfl⟩), components_slash, append_assoc]

/-- A short name without a slash is one component. -/
theorem components_name {name : CStr} (hslash : slash ∉ name) (hpos : name ≠ [])
    (hlen : name.length ≤ 59) : components name = [name] := by
  rw [components_single hslash, pieces_short hpos hlen]

/-- **A path with a short last component** is cut into the components in front of
it and that one. -/
theorem components_snoc (q : CStr) {name : CStr} (hslash : slash ∉ name) (hpos : name ≠ [])
    (hlen : name.length ≤ 59) :
    components (q ++ slash :: name) = components q ++ [name] := by
  rw [components_append, components_name hslash hpos hlen]

/-- A path with a slash, taken apart at the last one. -/
theorem split_lastComponent (h : slash ∈ path) :
    path.take (path.length - (lastComponent path).length - 1) ++ slash :: lastComponent path =
        path ∧
      slash ∉ lastComponent path := by
  obtain ⟨t, e, hcut, hnot⟩ := eq_append_cons_of_mem (mem_reverse.2 h)
  have hlast : lastComponent path = t.reverse := by
    have hall : ∀ c ∈ t, decide (c ≠ slash) = true := fun c hc =>
      decide_eq_true fun h => hnot (h ▸ hc)
    rw [lastComponent, hcut, takeWhile_append_of_pos hall]
    simp
  have hpath : path = e.reverse ++ slash :: t.reverse := by
    rw [← reverse_reverse path, hcut]
    simp
  have hlen : path.length - t.reverse.length - 1 = e.reverse.length := by
    rw [hpath]
    simp only [length_append, length_cons, length_reverse]
    omega
  rw [hlast, hlen]
  refine ⟨?_, by simpa using hnot⟩
  conv_rhs => rw [hpath]
  rw [hpath, take_left]

/-- The part of a path in front of its last slash. -/
def dirPart (path : CStr) : CStr := path.take (path.length - (lastComponent path).length - 1)

theorem dirPart_append (h : slash ∈ path) :
    dirPart path ++ slash :: lastComponent path = path := (split_lastComponent h).1

/-- The components of an absolute path with a short last component. -/
theorem components_path (hhead : path.head? = some slash)
    (hpos : lastComponent path ≠ []) (hlen : (lastComponent path).length ≤ 59) :
    components path.tail = components (dirPart path).tail ++ [lastComponent path] := by
  have hmem : slash ∈ path := mem_of_mem_head? hhead
  have hsplit := dirPart_append hmem
  have hslash := (split_lastComponent hmem).2
  generalize lastComponent path = name at hsplit hslash hpos hlen ⊢
  cases hdir : dirPart path with
  | nil =>
    rw [hdir] at hsplit
    rw [← hsplit]
    exact components_name hslash hpos hlen
  | cons c q =>
    rw [hdir] at hsplit
    rw [← hsplit]
    exact components_snoc q hslash hpos hlen

end LufiraFs
