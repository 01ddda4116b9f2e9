import Mathlib.Data.Nat.ModEq
import Mathlib.Logic.Function.Basic

/-!
# Ring buffers

A queue in an array of `size` cells: a read position, a write position and a
count.  `Holds r q` says that the queue `q` lies in the ring `r`; a push appends
to that queue and a pop takes its head.
-/

universe u

/-- A ring buffer. -/
structure RingBuffer (α : Type u) where
  buffer : Nat → α
  size : Nat
  readPos : Nat
  writePos : Nat
  count : Nat

namespace RingBuffer

variable {α : Type u} {r : RingBuffer α} {q : List α} {a : α}

/-- Store one element at the write position. -/
def push (r : RingBuffer α) (a : α) : RingBuffer α :=
  { r with
    buffer := Function.update r.buffer r.writePos a
    writePos := (r.writePos + 1) % r.size
    count := r.count + 1 }

/-- The element at the read position. -/
def front (r : RingBuffer α) : α := r.buffer r.readPos

/-- Step over the element at the read position. -/
def pop (r : RingBuffer α) : RingBuffer α :=
  { r with readPos := (r.readPos + 1) % r.size, count := r.count - 1 }

@[simp] theorem push_size : (r.push a).size = r.size := rfl

@[simp] theorem push_count : (r.push a).count = r.count + 1 := rfl

@[simp] theorem pop_size : r.pop.size = r.size := rfl

@[simp] theorem pop_count : r.pop.count = r.count - 1 := rfl

/-- The queue `q` lies in the ring, its head at the read position. -/
structure Holds (r : RingBuffer α) (q : List α) : Prop where
  length : q.length = r.count
  fits : r.count ≤ r.size
  read : r.readPos < r.size
  write : r.writePos = (r.readPos + r.count) % r.size
  cell : ∀ i (h : i < q.length), r.buffer ((r.readPos + i) % r.size) = q[i]

/-- Two offsets below the size are in different cells. -/
theorem offset_injective {size pos i j : Nat} (hi : i < size) (hj : j < size)
    (h : (pos + i) % size = (pos + j) % size) : i = j := by
  have hmod : i ≡ j [MOD size] := Nat.ModEq.add_left_cancel' pos h
  calc i = i % size := (Nat.mod_eq_of_lt hi).symm
    _ = j % size := hmod
    _ = j := Nat.mod_eq_of_lt hj

/-- **A push appends.** -/
theorem Holds.push (h : r.Holds q) (hroom : r.count < r.size) (a : α) :
    (r.push a).Holds (q ++ [a]) := by
  refine ⟨by simp [h.length], hroom, h.read, ?_, ?_⟩
  · change (r.writePos + 1) % r.size = (r.readPos + (r.count + 1)) % r.size
    rw [h.write, Nat.mod_add_mod, Nat.add_assoc]
  intro i hi
  change Function.update r.buffer r.writePos a ((r.readPos + i) % r.size) = (q ++ [a])[i]
  have hlen := h.length
  rcases Nat.lt_or_ge i q.length with hold | hnew
  · have hne : (r.readPos + i) % r.size ≠ r.writePos := by
      rw [h.write]
      intro heq
      have := offset_injective (by omega) hroom heq
      omega
    rw [Function.update_of_ne hne, List.getElem_append_left hold]
    exact h.cell i hold
  have hlast : i = q.length := by
    simp only [List.length_append, List.length_singleton] at hi
    omega
  subst hlast
  rw [List.getElem_concat_length rfl, hlen, ← h.write, Function.update_self]

/-- The read position holds the head of the queue. -/
theorem Holds.front (h : r.Holds (a :: q)) : r.front = a := by
  have h0 := h.cell 0 (by simp)
  rw [Nat.add_zero, Nat.mod_eq_of_lt h.read] at h0
  exact h0

/-- **A pop takes the head.** -/
theorem Holds.pop (h : r.Holds (a :: q)) : r.pop.Holds q := by
  have hlen : q.length + 1 = r.count := h.length
  have hfits := h.fits
  refine ⟨?_, ?_, Nat.mod_lt _ (by omega), ?_, ?_⟩
  · rw [pop_count]
    omega
  · rw [pop_count, pop_size]
    omega
  · change r.writePos = ((r.readPos + 1) % r.size + (r.count - 1)) % r.size
    rw [h.write, Nat.mod_add_mod]
    congr 1
    omega
  intro i hi
  change r.buffer (((r.readPos + 1) % r.size + i) % r.size) = q[i]
  rw [Nat.mod_add_mod, Nat.add_assoc, Nat.add_comm 1 i]
  exact h.cell (i + 1) (by simpa using hi)

end RingBuffer
