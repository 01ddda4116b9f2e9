import LufiraOS.Lib.Bytes

/-!
# Write-back of dirty blocks

A cache of `n` blocks of `size` bytes holds the contents of a device from `base`
on, and a flag for each block says whether it has to be written back.  `Behind`
is the invariant of such a cache: a block whose flag is clear is on the device
as it is in the cache.  It survives every change of the cache that sets the
flags of the blocks it changes, and every change of the device elsewhere; when
all flags are clear, device and cache agree.
-/

namespace ByteStore

/-- The device is behind the cache in dirty blocks only. -/
def Behind (size n base : Nat) (cache device : Bytes) (dirty : Nat → Bool) : Prop :=
  ∀ b, b < n → dirty b = false → ∀ k, k < size →
    device (base + b * size + k) = cache (b * size + k)

namespace Behind

variable {size n base : Nat} {cache cache' device device' : Bytes} {dirty dirty' : Nat → Bool}

section

variable (h : Behind size n base cache device dirty)

include h

/-- Changing the cache, with the flags of the changed blocks set. -/
theorem touch (hmark : ∀ b, dirty' b = false → dirty b = false)
    (hsame : ∀ b k, b < n → k < size → dirty' b = false →
      cache' (b * size + k) = cache (b * size + k)) :
    Behind size n base cache' device dirty' := by
  intro b hb hclean k hk
  rw [hsame b k hb hk hclean]
  exact h b hb (hmark b hclean) k hk

/-- Changing one block of the cache and setting its flag. -/
theorem mark {c : Nat}
    (hsame : ∀ b k, b < n → k < size → b ≠ c → cache' (b * size + k) = cache (b * size + k)) :
    Behind size n base cache' device (Function.update dirty c true) := by
  refine h.touch ?_ ?_
  · intro b hclean
    by_cases hbc : b = c
    · simp [hbc] at hclean
    · rwa [Function.update_of_ne hbc] at hclean
  intro b k hb hk hclean
  refine hsame b k hb hk fun hbc => ?_
  simp [hbc] at hclean

/-- Changing the device outside the cached blocks. -/
theorem elsewhere (hsame : ∀ a, base ≤ a → a < base + n * size → device' a = device a) :
    Behind size n base cache device' dirty := by
  intro b hb hclean k hk
  have hlast : (b + 1) * size ≤ n * size := Nat.mul_le_mul_right size hb
  rw [Nat.succ_mul] at hlast
  rw [hsame _ (by omega) (by omega)]
  exact h b hb hclean k hk

/-- Writing one block back. -/
theorem flush (c : Nat) : Behind size n base cache
      (copyIn device (base + c * size) size (window cache (c * size) size))
      (Function.update dirty c false) := by
  intro b hb hclean k hk
  by_cases hbc : b = c
  · subst hbc
    rw [copyIn_inside (by omega) (by omega), window_apply (by omega)]
    congr 1
    omega
  rw [Function.update_of_ne hbc] at hclean
  have hapart : (b + 1) * size ≤ c * size ∨ (c + 1) * size ≤ b * size := by
    rcases Nat.lt_or_gt_of_ne hbc with hlt | hgt
    · exact .inl (Nat.mul_le_mul_right size hlt)
    · exact .inr (Nat.mul_le_mul_right size hgt)
  rw [Nat.succ_mul, Nat.succ_mul] at hapart
  rw [copyIn_outside (by omega)]
  exact h b hb hclean k hk

/-- When no block is dirty, the device holds the cache. -/
theorem synced (hclean : ∀ b, b < n → dirty b = false) {a : Nat} (ha : a < n * size) :
    device (base + a) = cache a := by
  have hsize : 0 < size := Nat.pos_of_ne_zero fun h0 => by simp [h0] at ha
  have hdiv : a / size < n := Nat.div_lt_of_lt_mul (by rwa [Nat.mul_comm])
  have hsplit : a / size * size + a % size = a := Nat.div_add_mod' a size
  have hblock := h (a / size) hdiv (hclean _ hdiv) (a % size) (Nat.mod_lt _ hsize)
  rwa [Nat.add_assoc, hsplit] at hblock

end

end Behind

end ByteStore
