import Mathlib

/-!
# Splitting a list

What the pieces of a list hold that is split at the elements with a property.
-/

namespace Split

open List

/-- The pieces hold what the list is not split at. -/
theorem flatten_splitOnP {α : Type*} (p : α → Bool) (s : List α) :
    (s.splitOnP p).flatten = s.filter fun c => !p c := by
  induction s with
  | nil => simp
  | cons x s ih =>
    obtain ⟨l, ls, hsplit⟩ := exists_cons_of_ne_nil (splitOnP_ne_nil p s)
    rw [splitOnP_cons_eq_if_modifyHead, filter_cons, ← ih]
    cases hx : p x with
    | true => simp
    | false => simp [hsplit]

/-- A piece holds elements of the list, and none at which it is split. -/
theorem mem_splitOnP {α : Type*} {p : α → Bool} {s l : List α} (h : l ∈ s.splitOnP p) :
    ∀ c ∈ l, c ∈ s ∧ p c = false := by
  intro c hc
  have hmem : c ∈ (s.splitOnP p).flatten := mem_flatten.2 ⟨l, h, hc⟩
  rw [flatten_splitOnP, mem_filter] at hmem
  simpa using hmem

end Split
