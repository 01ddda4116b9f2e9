import Mathlib.Data.List.Perm.Basic
import Mathlib.Tactic.Common

/-!
# Extents

Ranges of addresses that are handed out from a table and from a pointer that only
grows.  A range of size zero is an unused row of such a table: it stands nowhere
and is apart from everything.
-/

namespace Extents

open List

/-- A range: where it begins and how long it is. -/
structure Extent where
  start : Nat
  size : Nat
  deriving DecidableEq, Repr

/-- Two ranges share no address. -/
def Extent.Apart (r t : Extent) : Prop :=
  0 < r.size → 0 < t.size → r.start + r.size ≤ t.start ∨ t.start + t.size ≤ r.start

theorem Extent.Apart.symm {r t : Extent} (h : r.Apart t) : t.Apart r := fun ht hr => (h hr ht).symm

/-- The ranges are pairwise apart and lie between `lo` and `hi`. -/
structure Packed (lo hi : Nat) (rs : List Extent) : Prop where
  apart : rs.Pairwise Extent.Apart
  within : ∀ r ∈ rs, 0 < r.size → lo ≤ r.start ∧ r.start + r.size ≤ hi

namespace Packed

variable {lo hi : Nat} {rs ts : List Extent}

theorem perm (h : Packed lo hi rs) (hp : rs.Perm ts) : Packed lo hi ts :=
  ⟨h.apart.perm hp fun hrt => hrt.symm, fun r hr => h.within r (hp.mem_iff.2 hr)⟩

theorem sublist (h : Packed lo hi rs) (hs : ts.Sublist rs) : Packed lo hi ts :=
  ⟨h.apart.sublist hs, fun r hr => h.within r (hs.subset hr)⟩

theorem tail {r : Extent} (h : Packed lo hi (r :: rs)) : Packed lo hi rs :=
  h.sublist (sublist_cons_self r rs)

/-- Empty rows stand nowhere. -/
theorem of_empty (h : ∀ r ∈ rs, r.size = 0) : Packed lo hi rs := by
  refine ⟨pairwise_of_forall_mem_list fun r hr t _ hpos => ?_, fun r hr hpos => ?_⟩
  · rw [h r hr] at hpos
    exact absurd hpos (Nat.lt_irrefl 0)
  · rw [h r hr] at hpos
    exact absurd hpos (Nat.lt_irrefl 0)

/-- An unused row more. -/
theorem cons_empty (h : Packed lo hi rs) (a : Nat) : Packed lo hi (⟨a, 0⟩ :: rs) := by
  refine ⟨pairwise_cons.2 ⟨fun t _ hpos => absurd hpos (Nat.lt_irrefl 0), h.apart⟩, ?_⟩
  intro t ht hpos
  rcases mem_cons.1 ht with rfl | ht
  · exact absurd hpos (Nat.lt_irrefl 0)
  · exact h.within t ht hpos

/-- The pointer moves up and leaves a new range behind. -/
theorem bump (h : Packed lo hi rs) (hlo : lo ≤ hi) (n : Nat) :
    Packed lo (hi + n) (⟨hi, n⟩ :: rs) := by
  constructor
  · refine pairwise_cons.2 ⟨fun r hr _ hpos => ?_, h.apart⟩
    exact .inr (h.within r hr hpos).2
  intro r hr hpos
  rcases mem_cons.1 hr with rfl | hr
  · exact ⟨hlo, Nat.le_refl _⟩
  · have hin := h.within r hr hpos
    exact ⟨hin.1, by omega⟩

/-- A range is cut in two. -/
theorem split {a m n : Nat} (h : Packed lo hi (⟨a, m + n⟩ :: rs)) :
    Packed lo hi (⟨a, m⟩ :: ⟨a + m, n⟩ :: rs) := by
  obtain ⟨hfirst, hrest⟩ := pairwise_cons.1 h.apart
  have hin := h.within _ mem_cons_self
  have hpart : ∀ b k, a ≤ b → b + k ≤ a + (m + n) → ∀ t ∈ rs, Extent.Apart ⟨b, k⟩ t := by
    intro b k hlo hhi t ht hk hpos
    have hk' : 0 < k := hk
    have hside := hfirst t ht (show 0 < m + n by omega) hpos
    dsimp only at hside ⊢
    omega
  constructor
  · refine pairwise_cons.2 ⟨fun t ht => ?_, pairwise_cons.2 ⟨?_, hrest⟩⟩
    · rcases mem_cons.1 ht with rfl | ht
      · exact fun _ _ => .inl (Nat.le_refl _)
      · exact hpart a m (Nat.le_refl _) (by omega) t ht
    · exact hpart (a + m) n (by omega) (by omega)
  intro t ht hpos
  rcases mem_cons.1 ht with rfl | ht
  · have hpos' : 0 < m := hpos
    have := hin (show 0 < m + n by omega)
    dsimp only at this ⊢
    omega
  rcases mem_cons.1 ht with rfl | ht
  · have hpos' : 0 < n := hpos
    have := hin (show 0 < m + n by omega)
    dsimp only at this ⊢
    omega
  · exact h.within t (mem_cons_of_mem _ ht) hpos

/-- A range is written over an unused row. -/
theorem set {r : Extent} (h : Packed lo hi (r :: rs)) (i : Nat) : Packed lo hi (rs.set i r) := by
  by_cases hi : i < rs.length
  · exact (h.sublist ((eraseIdx_sublist rs i).cons_cons r)).perm (set_perm_cons_eraseIdx hi r).symm
  · rw [set_eq_of_length_le (by omega)]
    exact h.tail

end Packed

end Extents
