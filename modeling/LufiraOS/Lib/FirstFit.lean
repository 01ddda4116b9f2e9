import Mathlib.Data.List.Range
import Mathlib.Logic.Function.Basic
import Mathlib.Tactic.Common

/-!
# First fit in a table of marks

Searching a table of marks for the first clear one, or for the first run of clear
ones of a given length, and counting the set ones.  The searches are the loops a
program writes: one pass, and for runs the length of the clear stretch that ends
at the current position.
-/

namespace FirstFit

variable {u u' : Nat → Bool} {i n s : Nat}

/-! ## A clear mark -/

/-- The first clear mark among the `n` from `i` on. -/
def firstClear (u : Nat → Bool) : (i n : Nat) → Option Nat
  | _, 0 => none
  | i, n + 1 => if u i then firstClear u (i + 1) n else some i

theorem firstClear_eq (u : Nat → Bool) (i n : Nat) :
    firstClear u i n = (List.range' i n).find? fun p => !u p := by
  induction n generalizing i with
  | zero => rfl
  | succ n ih =>
    rw [firstClear, ih, List.range'_succ, List.find?_cons]
    cases u i <;> rfl

theorem firstClear_some {p : Nat} (h : firstClear u i n = some p) :
    i ≤ p ∧ p < i + n ∧ u p = false := by
  rw [firstClear_eq] at h
  obtain ⟨hlo, hhi⟩ := List.mem_range'_1.1 (List.mem_of_find?_eq_some h)
  exact ⟨hlo, hhi, by simpa using List.find?_some h⟩

theorem firstClear_eq_none : firstClear u i n = none ↔ ∀ p, i ≤ p → p < i + n → u p = true := by
  simp [firstClear_eq]

/-! ## A run of clear marks -/

/-- The marks from `s` on are clear, `n` of them. -/
def Clear (u : Nat → Bool) (s n : Nat) : Prop := ∀ p, s ≤ p → p < s + n → u p = false

/-- The first run of `count` clear marks among the `n` from `i` on, when the `len`
marks before `i`, which begin at `start`, are clear. -/
def firstRun (u : Nat → Bool) (count : Nat) : (i n start len : Nat) → Option Nat
  | _, 0, _, _ => none
  | i, n + 1, start, len =>
    if u i then firstRun u count (i + 1) n start 0
    else
      let start := if len = 0 then i else start
      if len + 1 = count then some start else firstRun u count (i + 1) n start (len + 1)

theorem firstRun_some {count start len : Nat} (hlen : len ≠ 0 → start + len = i)
    (hclear : len ≠ 0 → Clear u start len) (h : firstRun u count i n start len = some s) :
    s + count ≤ i + n ∧ Clear u s count := by
  induction n generalizing i start len with
  | zero => cases h
  | succ n ih =>
    cases hu : u i with
    | true =>
      simp only [firstRun, hu, if_true] at h
      obtain ⟨hle, hs⟩ := ih (fun h0 => absurd rfl h0) (fun h0 => absurd rfl h0) h
      exact ⟨by omega, hs⟩
    | false =>
      -- the stretch that ends behind `i`
      have hnext : (if len = 0 then i else start) + (len + 1) = i + 1 ∧
          Clear u (if len = 0 then i else start) (len + 1) := by
        by_cases h0 : len = 0
        · rw [if_pos h0, h0]
          refine ⟨by omega, fun p hlo hhi => ?_⟩
          have hp : p = i := by omega
          rw [hp, hu]
        rw [if_neg h0]
        refine ⟨by omega, fun p hlo hhi => ?_⟩
        by_cases hp : p = i
        · rw [hp, hu]
        · exact hclear h0 p hlo (by omega)
      simp only [firstRun, hu, Bool.false_eq_true, if_false] at h
      split at h
      · next hfull =>
        have hs : (if len = 0 then i else start) = s := Option.some.inj h
        rw [hs, hfull] at hnext
        exact ⟨by omega, hnext.2⟩
      · obtain ⟨hle, hs⟩ := ih (fun _ => hnext.1) (fun _ => hnext.2) h
        exact ⟨by omega, hs⟩

/-- A search that fails has passed over every run: `len` is the length of the
longest clear stretch that ends before `i`. -/
theorem firstRun_none {count start len : Nat} (hlt : len < count)
    (hmax : ∀ s, s ≤ i → Clear u s (i - s) → i - s ≤ len)
    (h : firstRun u count i n start len = none) (hlo : i < s + count)
    (hhi : s + count ≤ i + n) : ¬ Clear u s count := by
  intro hs
  induction n generalizing i start len with
  | zero => omega
  | succ n ih =>
    cases hu : u i with
    | true =>
      have hafter : i < s := by
        by_contra hle
        have hi := hs i (by omega) hlo
        rw [hu] at hi
        cases hi
      simp only [firstRun, hu, if_true] at h
      refine ih (by omega) (fun s' hs' hclear => ?_) h (by omega) (by omega)
      by_contra hpos
      have hi := hclear i (by omega) (by omega)
      rw [hu] at hi
      cases hi
    | false =>
      simp only [firstRun, hu, Bool.false_eq_true, if_false] at h
      have hmax' : ∀ s', s' ≤ i + 1 → Clear u s' (i + 1 - s') → i + 1 - s' ≤ len + 1 := by
        intro s' hs' hclear
        by_cases hend : s' = i + 1
        · omega
        · have hbefore := hmax s' (by omega) fun p hp hp' => hclear p hp (by omega)
          omega
      split at h
      · cases h
      · next hfull =>
        by_cases hend : s + count = i + 1
        · have hall := hmax' s (by omega) fun p hp hp' => hs p hp (by omega)
          omega
        · exact ih (by omega) hmax' h (by omega) (by omega)

/-! ## Counting -/

/-- The number of set marks below `n`. -/
def setCount (u : Nat → Bool) (n : Nat) : Nat := (List.range n).countP u

theorem setCount_congr (h : ∀ p, p < n → u' p = u p) : setCount u' n = setCount u n := by
  refine List.countP_congr fun p hp => ?_
  rw [h p (List.mem_range.1 hp)]

/-- One mark more in a list. -/
theorem countP_mark {l : List Nat} {p : Nat} (hl : l.Nodup) (hp : p ∈ l) (hu : u p = false)
    (hset : u' p = true) (hrest : ∀ q ∈ l, q ≠ p → u' q = u q) : l.countP u' = l.countP u + 1 := by
  have hperm := List.perm_cons_erase hp
  have hsame : (l.erase p).countP u' = (l.erase p).countP u := List.countP_congr fun q hq => by
    obtain ⟨hne, hq⟩ := hl.mem_erase_iff.1 hq
    rw [hrest q hq hne]
  rw [hperm.countP_eq, hperm.countP_eq, List.countP_cons_of_pos hset,
    List.countP_cons_of_neg (by simp [hu]), hsame]

/-- One mark more. -/
theorem setCount_mark {p : Nat} (hp : p < n) (hu : u p = false) (hset : u' p = true)
    (hrest : ∀ q, q ≠ p → u' q = u q) : setCount u' n = setCount u n + 1 :=
  countP_mark List.nodup_range (List.mem_range.2 hp) hu hset fun q _ => hrest q

/-- A run of marks more. -/
theorem setCount_markRun {k : Nat} (hend : s + k ≤ n) (hclear : Clear u s k)
    (hset : ∀ q, u' q = (decide (s ≤ q ∧ q < s + k) || u q)) :
    setCount u' n = setCount u n + k := by
  induction k generalizing u' with
  | zero =>
    refine setCount_congr fun q _ => ?_
    have hno : ¬ (s ≤ q ∧ q < s + 0) := by omega
    rw [hset q, decide_eq_false hno, Bool.false_or]
  | succ k ih =>
    have hbefore : setCount (fun q => decide (s ≤ q ∧ q < s + k) || u q) n = setCount u n + k :=
      ih (by omega) (fun p hlo hhi => hclear p hlo (by omega)) fun _ => rfl
    have hno : ¬ (s ≤ s + k ∧ s + k < s + k) := by omega
    have hlast : setCount u' n = setCount (fun q => decide (s ≤ q ∧ q < s + k) || u q) n + 1 := by
      refine setCount_mark (p := s + k) (by omega) ?_ ?_ fun q hq => ?_
      · rw [decide_eq_false hno, Bool.false_or]
        exact hclear _ (by omega) (by omega)
      · rw [hset]
        simp
      · have hiff : (s ≤ q ∧ q < s + (k + 1)) ↔ (s ≤ q ∧ q < s + k) := by omega
        rw [hset, decide_eq_decide.2 hiff]
    omega

end FirstFit
