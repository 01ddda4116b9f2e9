import Mathlib.Data.List.Chain
import Mathlib.Tactic.Common

/-!
# Blocks of memory

An area of memory that is divided into blocks, each with a header at its
beginning: the blocks tile the area, and the headers link them both ways in the
order of their addresses.  This is what allocators with headers in the memory
they manage keep.  The two elementary edits are to cut a block in two and to let a
block absorb the one behind it.
-/

namespace Blocks

universe u

variable {τ : Type u}

/-- A block: its address, its size with the header, and the tag of its header. -/
structure Block (τ : Type u) where
  addr : Nat
  size : Nat
  tag : τ

/-- What a header says. -/
@[ext]
structure Header (τ : Type u) where
  tag : τ
  size : Nat
  next : Nat
  prev : Nat

/-! ## Tiling -/

/-- The blocks lie end to end from `lo` to `hi`. -/
def Tiles (lo : Nat) : List (Block τ) → (hi : Nat) → Prop
  | [], hi => lo = hi
  | b :: bs, hi => b.addr = lo ∧ Tiles (lo + b.size) bs hi

theorem tiles_append {lo hi : Nat} {xs ys : List (Block τ)} :
    Tiles lo (xs ++ ys) hi ↔ ∃ mid, Tiles lo xs mid ∧ Tiles mid ys hi := by
  induction xs generalizing lo with
  | nil => simp [Tiles]
  | cons b xs ih => simp [Tiles, ih, and_assoc]

theorem Tiles.le {lo hi : Nat} {bs : List (Block τ)} (h : Tiles lo bs hi) : lo ≤ hi := by
  induction bs generalizing lo with
  | nil => exact le_of_eq h
  | cons b bs ih =>
    have hrest := ih h.2
    omega

/-- Every block lies in the area. -/
theorem Tiles.bounds {lo hi : Nat} {bs : List (Block τ)} (h : Tiles lo bs hi) {b : Block τ}
    (hb : b ∈ bs) : lo ≤ b.addr ∧ b.addr + b.size ≤ hi := by
  induction bs generalizing lo with
  | nil => cases hb
  | cons c bs ih =>
    obtain ⟨haddr, hrest⟩ := h
    rcases List.mem_cons.1 hb with rfl | hmem
    · exact ⟨by omega, by have := hrest.le; omega⟩
    · have hin := ih hrest hmem
      omega

section

variable {lo hi : Nat} {pre post : List (Block τ)} {b c : Block τ}

section

variable (h : Tiles lo (pre ++ b :: post) hi)

include h

/-- A block lies behind those before it in the list. -/
theorem Tiles.before (hc : c ∈ pre) : c.addr + c.size ≤ b.addr := by
  obtain ⟨mid, hpre, haddr, _⟩ := tiles_append.1 h
  have hin := hpre.bounds hc
  omega

/-- A block lies before those behind it in the list. -/
theorem Tiles.behind (hc : c ∈ post) : b.addr + b.size ≤ c.addr := by
  obtain ⟨mid, _, haddr, hpost⟩ := tiles_append.1 h
  have hin := hpost.bounds hc
  omega

/-- A block with another tag. -/
theorem Tiles.retag (tag : τ) : Tiles lo (pre ++ ⟨b.addr, b.size, tag⟩ :: post) hi := by
  obtain ⟨mid, hpre, hb⟩ := tiles_append.1 h
  exact tiles_append.2 ⟨mid, hpre, hb⟩

/-- A block cut in two. -/
theorem Tiles.cut {n : Nat} (hn : n ≤ b.size) (tag tag' : τ) :
    Tiles lo (pre ++ ⟨b.addr, n, tag⟩ :: ⟨b.addr + n, b.size - n, tag'⟩ :: post) hi := by
  obtain ⟨mid, hpre, haddr, hpost⟩ := tiles_append.1 h
  refine tiles_append.2 ⟨mid, hpre, haddr, by rw [haddr], ?_⟩
  have hend : mid + n + (b.size - n) = mid + b.size := by omega
  simpa only [hend] using hpost

end

/-- A block that has absorbed the one behind it. -/
theorem Tiles.absorb (h : Tiles lo (pre ++ b :: c :: post) hi) (tag : τ) :
    Tiles lo (pre ++ ⟨b.addr, b.size + c.size, tag⟩ :: post) hi := by
  obtain ⟨mid, hpre, haddr, _, hpost⟩ := tiles_append.1 h
  refine tiles_append.2 ⟨mid, hpre, haddr, ?_⟩
  rwa [Nat.add_assoc] at hpost

end

/-! ## Links -/

/-- The address of the first block, or `n` if there is none. -/
def first : List (Block τ) → Nat → Nat
  | [], n => n
  | b :: _, _ => b.addr

/-- The address of the last block, or `p` if there is none. -/
def last (p : Nat) : List (Block τ) → Nat
  | [] => p
  | b :: bs => last b.addr bs

/-- The headers `H` link the blocks both ways: before the first one is `p`, behind
the last one `n`. -/
def Linked (H : Nat → Header τ) (p : Nat) : List (Block τ) → (n : Nat) → Prop
  | [], _ => True
  | b :: bs, n => H b.addr = ⟨b.tag, b.size, first bs n, p⟩ ∧ Linked H b.addr bs n

variable {H H' : Nat → Header τ} {p n : Nat}

@[simp] theorem first_append (xs ys : List (Block τ)) :
    first (xs ++ ys) n = first xs (first ys n) := by
  cases xs <;> rfl

theorem linked_append {xs ys : List (Block τ)} :
    Linked H p (xs ++ ys) n ↔ Linked H p xs (first ys n) ∧ Linked H (last p xs) ys n := by
  induction xs generalizing p with
  | nil => simp [Linked, last]
  | cons b xs ih => simp [Linked, last, ih, and_assoc]

/-- Only the headers of the blocks matter. -/
theorem Linked.congr {bs : List (Block τ)} (h : Linked H p bs n)
    (hsame : ∀ b ∈ bs, H' b.addr = H b.addr) : Linked H' p bs n := by
  induction bs generalizing p with
  | nil => trivial
  | cons b bs ih =>
    refine ⟨?_, ih h.2 fun c hc => hsame c (List.mem_cons_of_mem _ hc)⟩
    rw [hsame b List.mem_cons_self]
    exact h.1

/-- The blocks behind a changed one: the first of them has another predecessor. -/
theorem Linked.repoint {bs : List (Block τ)} {q : Nat} (h : Linked H p bs n)
    (hfirst : ∀ c rest, bs = c :: rest → H' c.addr = { H c.addr with prev := q })
    (hrest : ∀ c rest, bs = c :: rest → ∀ d ∈ rest, H' d.addr = H d.addr) :
    Linked H' q bs n := by
  cases bs with
  | nil => trivial
  | cons c rest =>
    refine ⟨?_, h.2.congr (hrest c rest rfl)⟩
    rw [hfirst c rest rfl, h.1]

section

variable {pre post : List (Block τ)} {b c : Block τ}

section

variable (h : Linked H p (pre ++ b :: post) n)

include h

/-- The header of a block in the middle. -/
theorem Linked.header :
    H b.addr = ⟨b.tag, b.size, first post n, last p pre⟩ :=
  (linked_append.1 h).2.1

/-- One header changes its tag. -/
theorem Linked.retag (tag : τ)
    (hb : H' b.addr = { H b.addr with tag := tag })
    (hpre : ∀ c ∈ pre, H' c.addr = H c.addr) (hpost : ∀ c ∈ post, H' c.addr = H c.addr) :
    Linked H' p (pre ++ ⟨b.addr, b.size, tag⟩ :: post) n := by
  obtain ⟨hbefore, hhead, hbehind⟩ := linked_append.1 h
  refine linked_append.2 ⟨hbefore.congr hpre, ?_, hbehind.congr hpost⟩
  rw [hb, hhead]

/-- A new block behind `b`, cut from it. -/
theorem Linked.cut {b' new : Block τ}
    (haddr : b'.addr = b.addr)
    (hb : H' b'.addr = ⟨b'.tag, b'.size, new.addr, last p pre⟩)
    (hnew : H' new.addr = ⟨new.tag, new.size, first post n, b'.addr⟩)
    (hpre : ∀ c ∈ pre, H' c.addr = H c.addr)
    (hfirst : ∀ c rest, post = c :: rest → H' c.addr = { H c.addr with prev := new.addr })
    (hrest : ∀ c rest, post = c :: rest → ∀ d ∈ rest, H' d.addr = H d.addr) :
    Linked H' p (pre ++ b' :: new :: post) n := by
  obtain ⟨hbefore, _, hbehind⟩ := linked_append.1 h
  refine linked_append.2 ⟨?_, hb, hnew, hbehind.repoint hfirst hrest⟩
  have hpre' := hbefore.congr hpre
  simp only [first, ← haddr] at hpre' ⊢
  exact hpre'

end

/-- The block behind `b` is taken out. -/
theorem Linked.absorb (h : Linked H p (pre ++ b :: c :: post) n) {b' : Block τ}
    (haddr : b'.addr = b.addr)
    (hb : H' b'.addr = ⟨b'.tag, b'.size, first post n, last p pre⟩)
    (hpre : ∀ d ∈ pre, H' d.addr = H d.addr)
    (hfirst : ∀ d rest, post = d :: rest → H' d.addr = { H d.addr with prev := b'.addr })
    (hrest : ∀ d rest, post = d :: rest → ∀ e ∈ rest, H' e.addr = H e.addr) :
    Linked H' p (pre ++ b' :: post) n := by
  obtain ⟨hbefore, _, _, hbehind⟩ := linked_append.1 h
  refine linked_append.2 ⟨?_, hb, hbehind.repoint hfirst hrest⟩
  have hpre' := hbefore.congr hpre
  simp only [first, ← haddr] at hpre' ⊢
  exact hpre'

end

end Blocks
