import Mathlib.Data.Finset.Card
import Mathlib.Data.Finset.Lattice.Basic
import Mathlib.Data.Finset.Filter
import Mathlib.Logic.Function.Basic

/-!
# Counting the holders of a value

A table gives some keys a value.  `holders D T P` counts the keys of `D` whose
value satisfies `P`; the lemmas say how that number changes when one key gets a
value or loses it.  Reference counts are compared with such numbers.
-/

namespace Holding

universe u v

variable {κ : Type u} {ν : Type v}
variable {D E : Finset κ} {T : κ → Option ν} {P Q : ν → Bool} {k : κ} {x : ν}

/-- The number of keys in `D` whose value satisfies `P`. -/
def holders (D : Finset κ) (T : κ → Option ν) (P : ν → Bool) : Nat :=
  (D.filter fun k => (T k).any P).card

theorem holders_pos : 0 < holders D T P ↔ ∃ k ∈ D, ∃ x, T k = some x ∧ P x = true := by
  simp only [holders, Finset.card_pos, Finset.Nonempty, Finset.mem_filter, Option.any_eq_true]

/-- Only the values that are held matter. -/
theorem holders_congr (h : ∀ k ∈ D, ∀ x, T k = some x → P x = Q x) :
    holders D T P = holders D T Q := by
  unfold holders
  congr 1
  apply Finset.filter_congr
  intro k hk
  cases hT : T k with
  | none => simp
  | some x => simp [h k hk x hT]

variable [DecidableEq κ]

/-- Keys without a value do not count. -/
theorem holders_mono (hDE : D ⊆ E) (hout : ∀ k, k ∉ D → T k = none) :
    holders E T P = holders D T P := by
  unfold holders
  congr 1
  ext k
  simp only [Finset.mem_filter]
  constructor
  · rintro ⟨_, hany⟩
    by_cases hk : k ∈ D
    · exact ⟨hk, hany⟩
    · simp [hout k hk] at hany
  · rintro ⟨hk, hany⟩
    exact ⟨hDE hk, hany⟩

/-- Two sets of keys that both hold every key with a value count the same. -/
theorem holders_support (hD : ∀ k, k ∉ D → T k = none) (hE : ∀ k, k ∉ E → T k = none) :
    holders D T P = holders E T P :=
  (holders_mono Finset.subset_union_left hD).symm.trans (holders_mono Finset.subset_union_right hE)

/-- A key without a value gets one. -/
theorem holders_give (hk : k ∈ D) (hT : T k = none) (x : ν) :
    holders D (Function.update T k (some x)) P = holders D T P + if P x then 1 else 0 := by
  have hfilter : (D.filter fun i => (Function.update T k (some x) i).any P) =
      if P x then insert k (D.filter fun i => (T i).any P) else D.filter fun i => (T i).any P := by
    ext i
    rcases eq_or_ne i k with rfl | hne
    · cases hP : P x <;> simp [hk, hT, hP]
    · cases hP : P x <;> simp [hne]
  unfold holders
  rw [hfilter]
  split_ifs
  · rw [Finset.card_insert_of_notMem (by simp [hT])]
  · rfl

/-- A key loses its value. -/
theorem holders_take (hk : k ∈ D) (hT : T k = some x) :
    holders D T P = holders D (Function.update T k none) P + if P x then 1 else 0 := by
  rw [← holders_give hk (Function.update_self k none T) x]
  congr 1
  rw [Function.update_idem, ← hT, Function.update_eq_self]

end Holding
