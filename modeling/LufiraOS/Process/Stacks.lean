import Mathlib

/-!
# The addresses of stacks

`process.c` gives every process a stack for the kernel and one for the user, at addresses that it
computes from its number.  Numbers have 32 bits and are never given back.  `KERNEL_STACK_SIZE` is an
`int`, so the offset of a kernel stack is a product of 32 bits; the offset of a user stack is one
of 64.
-/

namespace Stacks

/-- `KERNEL_STACK_AREA_START` and `KERNEL_STACK_SIZE`. -/
def kernelStackAreaStart : Nat := 0xFFFF880000000000
def kernelStackSize : Nat := 16384

/-- `USER_STACK_AREA_START` and `USER_STACK_SIZE`. -/
def userStackAreaStart : Nat := 0x700000000000
def userStackSize : Nat := 131072

/-- `stack_base` in `allocate_ring0_stack`. -/
def ring0Base (pid : Nat) : Nat := (kernelStackAreaStart + pid * kernelStackSize % 2 ^ 32) % 2 ^ 64

/-- `stack_virt` in `allocate_user_stack_in`. -/
def stackVirt (pid baseArea stride : Nat) : Nat := (baseArea + pid * stride % 2 ^ 64) % 2 ^ 64

/-- `allocate_user_stack`, where it begins. -/
def userBase (pid : Nat) : Nat := stackVirt pid userStackAreaStart userStackSize

/-- Two ranges of addresses have none in common. -/
def Apart (a n b m : Nat) : Prop := a + n ≤ b ∨ b + m ≤ a

/-- The areas of libc, mmap and signal stacks: `DYNLINK_LIBC_BASE` up to `MMAP_AREA_START`, from
there to `SIGNAL_STACK_AREA_START`, and the two pages there. -/
def areas : List (Nat × Nat) :=
  [(0x580000000000, 0x80000000000), (0x600000000000, 0x90000000000), (0x690000000000, 8192)]

/-- **The layout is right** for the processes `p` and `q`. -/
structure LaidOut (p q : Nat) : Prop where
  ring0 : Apart (ring0Base p) kernelStackSize (ring0Base q) kernelStackSize
  user : ∀ r ∈ [p, q], userBase r + userStackSize ≤ 2 ^ 47 ∧
    ∀ a ∈ areas, Apart (userBase r) userStackSize a.1 a.2

/-- **When the layout is right**: the numbers differ in their last 18 bits, and are below 2^27. -/
theorem laidOut_iff {p q : Nat} (hp : p < 2 ^ 32) (hq : q < 2 ^ 32) :
    LaidOut p q ↔ p % 2 ^ 18 ≠ q % 2 ^ 18 ∧ p < 2 ^ 27 ∧ q < 2 ^ 27 := by
  have hring0 : Apart (ring0Base p) kernelStackSize (ring0Base q) kernelStackSize ↔
      p % 2 ^ 18 ≠ q % 2 ^ 18 := by
    simp only [Apart, ring0Base, kernelStackAreaStart, kernelStackSize]
    omega
  have huser : ∀ r < 2 ^ 32, (userBase r + userStackSize ≤ 2 ^ 47 ∧
      ∀ a ∈ areas, Apart (userBase r) userStackSize a.1 a.2) ↔ r < 2 ^ 27 := by
    intro r hr
    simp only [areas, List.forall_mem_cons, List.not_mem_nil, false_implies, implies_true,
      and_true, Apart,
      userBase, stackVirt, userStackAreaStart, userStackSize]
    omega
  have hpair := huser p hp
  have hpair' := huser q hq
  constructor
  · rintro ⟨hr, hu⟩
    exact ⟨hring0.1 hr, hpair.1 (hu p (by simp)), hpair'.1 (hu q (by simp))⟩
  · rintro ⟨hne, hlow, hlow'⟩
    refine ⟨hring0.2 hne, fun r hr => ?_⟩
    simp only [List.mem_cons, List.not_mem_nil, or_false] at hr
    rcases hr with rfl | rfl
    · exact hpair.2 hlow
    · exact hpair'.2 hlow'

/-- The first two processes. -/
theorem laidOut_first : LaidOut 1 2 := (laidOut_iff (by decide) (by decide)).2 (by decide)

/-- **Two kernel stacks at one address**: process 1, and the process that is made 2^18 processes
later. -/
theorem not_laidOut_later : ¬ LaidOut 1 262145 := by
  intro h
  exact absurd h.ring0 (by simp [Apart, ring0Base, kernelStackAreaStart, kernelStackSize])

end Stacks
