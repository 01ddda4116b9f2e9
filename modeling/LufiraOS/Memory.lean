import LufiraOS.Lib.Bytes
import Mathlib.Tactic.IntervalCases

/-!
# `memset`, `memcpy` and `memmove`

The kernel's versions in `kernel/lib/string.c`: single bytes up to a multiple of eight, then words,
then the bytes that are left.  Each loop extends the part of the destination that is done, so what
carries the proofs is that a store at the end of this part makes it longer.
-/

namespace Memory

open ByteStore

/-- `*p = b`. -/
def putByte (m : Bytes) (p : Nat) (b : UInt8) : Bytes := copyIn m p 1 fun _ => b

/-- A loop of `k` stores at `d` that takes what it stores from `s`; both go on by `w`. -/
def loop (store : Bytes → Nat → Nat → Bytes) (w : Nat) : Nat → Bytes → Nat → Nat → Bytes
  | 0, m, _, _ => m
  | k + 1, m, d, s => loop store w k (store m d s) (d + w) (s + w)

/-- `while (n > 0 && (d & 7))`: what is left, and where. -/
def headLoop (store : Bytes → Nat → Nat → Bytes) : Nat → Bytes → Nat → Nat → Nat × Bytes × Nat × Nat
  | 0, m, d, s => (0, m, d, s)
  | n + 1, m, d, s =>
    if d % 8 = 0 then (n + 1, m, d, s) else headLoop store n (store m d s) (d + 1) (s + 1)

/-- Bytes, words and bytes. -/
def wordwise (byte word : Bytes → Nat → Nat → Bytes) (n : Nat) (m : Bytes) (d s : Nat) : Bytes :=
  match headLoop byte n m d s with
  | (n, m, d, s) =>
    if 8 ≤ n then
      let words := n / 8
      loop byte 1 (n - words * 8) (loop word 8 words m d s) (d + words * 8) (s + words * 8)
    else loop byte 1 n m d s

def memset (m : Bytes) (s : Nat) (c : Int) (n : Nat) : Bytes :=
  let byte := UInt8.ofInt c
  wordwise (fun m p _ => putByte m p byte)
    (fun m p _ => putWord64 m p (byte.toNat * 0x0101010101010101 % 2 ^ 64)) n m s 0

/-- `*d = *s`. -/
def copyByte (m : Bytes) (d s : Nat) : Bytes := putByte m d (m s)

def memcpy (m : Bytes) (dest src n : Nat) : Bytes :=
  if (dest ^^^ src) &&& 7 = 0 then
    wordwise copyByte (fun m d s => putWord64 m d (word64 m s)) n m dest src
  else loop copyByte 1 n m dest src

/-- `while (n--) *--d = *--s`. -/
def backLoop : Nat → Bytes → Nat → Nat → Bytes
  | 0, m, _, _ => m
  | n + 1, m, d, s => backLoop n (copyByte m (d - 1) (s - 1)) (d - 1) (s - 1)

def memmove (m : Bytes) (dest src n : Nat) : Bytes :=
  if dest = src ∨ n = 0 then m
  else if dest < src then loop copyByte 1 n m dest src
  else backLoop n m (dest + n) (src + n)

/-! ### Words are bytes -/

variable {m : Bytes} {f g : Nat → UInt8} {d s n : Nat}

/-- A copy at the end of a copy. -/
theorem copyIn_extend {l : Nat} (h : ∀ i < l, g i = f (n + i)) :
    copyIn (copyIn m d n f) (d + n) l g = copyIn m d (n + l) f := by
  funext a
  by_cases hlow : a < d + n
  · rw [copyIn_outside (.inl hlow)]
    simp only [copyIn]
    congr 1
    apply propext
    omega
  by_cases hhigh : a < d + n + l
  · rw [copyIn_inside (by omega) hhigh, copyIn_inside (by omega) (by omega), h _ (by omega)]
    congr 1
    omega
  · rw [copyIn_outside (by omega), copyIn_outside (by omega), copyIn_outside (by omega)]

theorem copyIn_zero : copyIn m d 0 f = m := funext fun a => copyIn_outside (by omega)

/-- A word is copied byte by byte. -/
theorem putWord_word32 (m m' : Bytes) (d s : Nat) :
    putWord m d (word32 m' s) = copyIn m d 4 fun i => m' (s + i) := by
  have hbyte : ∀ k, (m' k).toNat < 256 := fun k => (m' k).toNat_lt
  have h0 := hbyte s
  have h1 := hbyte (s + 1)
  have h2 := hbyte (s + 2)
  have h3 := hbyte (s + 3)
  funext a
  simp only [putWord, copyIn]
  split
  · have hi : a - d < 4 := by omega
    generalize a - d = i at hi
    apply UInt8.toNat_inj.1
    interval_cases i <;> simp [byteOf, word32] <;> omega
  · rfl

theorem putWord64_word64 (m m' : Bytes) (d s : Nat) :
    putWord64 m d (word64 m' s) = copyIn m d 8 fun i => m' (s + i) := by
  have hlow : UInt32.ofNat (word64 m' s) = word32 m' s := by
    apply UInt32.toNat_inj.1
    simp [word64]
  have hhigh : UInt32.ofNat (word64 m' s / 4294967296) = word32 m' (s + 4) := by
    have h := (word32 m' s).toNat_lt
    have h' := (word32 m' (s + 4)).toNat_lt
    apply UInt32.toNat_inj.1
    simp only [word64, UInt32.toNat_ofNat']
    omega
  rw [putWord64, hlow, hhigh, putWord_word32, putWord_word32]
  exact copyIn_extend fun i _ => congrArg m' (Nat.add_assoc ..)

/-- The product is the word of eight equal bytes. -/
theorem word64_repeat (b : UInt8) :
    b.toNat * 0x0101010101010101 % 2 ^ 64 = word64 (fun _ => b) 0 := by
  have hb : b.toNat < 256 := b.toNat_lt
  simp only [word64, word32, UInt32.toNat_ofNat']
  rw [Nat.mod_eq_of_lt (by omega), Nat.mod_eq_of_lt (by omega)]
  omega

/-! ### Loops -/

/-- `store` makes the part that is done longer by `w`. -/
def Extends (m : Bytes) (f : Nat → UInt8) (d s n w : Nat) (store : Bytes → Nat → Nat → Bytes) :
    Prop :=
  ∀ j, j + w ≤ n → store (copyIn m d j f) (d + j) (s + j) = copyIn m d (j + w) f

variable {byte word store : Bytes → Nat → Nat → Bytes} {w j k : Nat}

theorem Extends.loop (h : Extends m f d s n w store) (hk : j + k * w ≤ n) :
    loop store w k (copyIn m d j f) (d + j) (s + j) = copyIn m d (j + k * w) f := by
  induction k generalizing j with
  | zero => rw [Memory.loop, Nat.zero_mul, Nat.add_zero]
  | succ k ih =>
    have hnext : j + w + k * w = j + (k + 1) * w := by rw [Nat.succ_mul]; omega
    rw [Memory.loop, h j (by omega), Nat.add_assoc, Nat.add_assoc, ih (by omega), hnext]

theorem Extends.headLoop (h : Extends m f d s n 1 store) (hk : j + k = n) :
    ∃ i ≤ n, headLoop store k (copyIn m d j f) (d + j) (s + j) =
      (n - i, copyIn m d i f, d + i, s + i) := by
  induction k generalizing j with
  | zero => exact ⟨j, by omega, by rw [Memory.headLoop, ← hk, Nat.add_zero, Nat.sub_self]⟩
  | succ k ih =>
    rw [Memory.headLoop]
    split
    · exact ⟨j, by omega, by rw [← hk, Nat.add_sub_cancel_left]⟩
    · rw [h j (by omega), Nat.add_assoc, Nat.add_assoc]
      exact ih (by omega)

theorem Extends.wordwise (hbyte : Extends m f d s n 1 byte) (hword : Extends m f d s n 8 word) :
    wordwise byte word n m d s = copyIn m d n f := by
  obtain ⟨i, hi, heq⟩ := hbyte.headLoop (j := 0) (Nat.zero_add n)
  rw [copyIn_zero, Nat.add_zero, Nat.add_zero] at heq
  rw [Memory.wordwise, heq]
  dsimp only
  split
  · rw [hword.loop (by omega), Nat.add_assoc, Nat.add_assoc, hbyte.loop (by omega)]
    congr 1
    omega
  · rw [hbyte.loop (by omega)]
    congr 1
    omega

/-- Bytes are copied upwards from where nothing has been stored yet. -/
theorem extends_copyByte (h : ∀ j < n, s + j < d ∨ d + j ≤ s + j) :
    Extends m (fun i => m (s + i)) d s n 1 copyByte := by
  intro j hj
  unfold copyByte putByte
  refine copyIn_extend fun i hi => ?_
  rw [copyIn_outside (h j (by omega)), Nat.lt_one_iff.1 hi, Nat.add_zero]

theorem backLoop_eq (hlt : s < d) (hk : k ≤ n) :
    backLoop k (copyIn m (d + k) (n - k) fun i => m (s + k + i)) (d + k) (s + k) =
      copyIn m d n fun i => m (s + i) := by
  induction k with
  | zero => rfl
  | succ k ih =>
    rw [backLoop, ← ih (by omega)]
    congr 1
    funext a
    simp only [copyByte, putByte, copyIn, Nat.add_succ_sub_one]
    split
    · next ha =>
      have hread : ¬ (d + (k + 1) ≤ s + k ∧ s + k < d + (k + 1) + (n - (k + 1))) := by omega
      rw [if_neg hread, if_pos (by omega)]
      congr 1
      omega
    by_cases hin : d + (k + 1) ≤ a ∧ a < d + (k + 1) + (n - (k + 1))
    · rw [if_pos hin, if_pos (by omega)]
      congr 1
      omega
    · rw [if_neg hin, if_neg (by omega)]

/-- **The primitives.**  Each has the effect of its definition byte by byte, and no other. -/
theorem primitives_bytewise (m : Bytes) (dest n : Nat) :
    (∀ c, memset m dest c n = copyIn m dest n fun _ => UInt8.ofInt c) ∧
    (∀ src, (dest + n ≤ src ∨ src + n ≤ dest) →
      memcpy m dest src n = copyIn m dest n fun i => m (src + i)) ∧
    ∀ src, memmove m dest src n = copyIn m dest n fun i => m (src + i) := by
  refine ⟨fun c => ?_, fun src hapart => ?_, fun src => ?_⟩
  · refine Extends.wordwise (fun j _ => copyIn_extend fun _ _ => rfl) fun j _ => ?_
    rw [word64_repeat, putWord64_word64]
    exact copyIn_extend fun _ _ => rfl
  · have hbyte : Extends m (fun i => m (src + i)) dest src n 1 copyByte :=
      extends_copyByte fun j hj => by omega
    unfold memcpy
    split
    · refine hbyte.wordwise fun j hj => ?_
      rw [putWord64_word64]
      refine copyIn_extend fun i hi => ?_
      rw [copyIn_outside (by omega), Nat.add_assoc]
    · have hloop := hbyte.loop (j := 0) (k := n) (by omega)
      rwa [copyIn_zero, Nat.zero_add, Nat.mul_one] at hloop
  · unfold memmove
    split
    · next hnone =>
      funext a
      simp only [copyIn]
      split
      · congr 1
        omega
      · rfl
    split
    · next hlt =>
      have hloop := (extends_copyByte (m := m) (n := n) fun j _ => Or.inr (by omega)).loop (j := 0)
        (k := n) (d := dest) (s := src) (by omega)
      rwa [copyIn_zero, Nat.zero_add, Nat.mul_one] at hloop
    · have hback := backLoop_eq (m := m) (d := dest) (s := src) (by omega) (Nat.le_refl n)
      rwa [Nat.sub_self, copyIn_zero] at hback

/-- Twenty-one bytes, of which `memcpy` and `memset` take five before the first whole word and
sixteen as words; for `memmove` the ranges overlap. -/
theorem primitives_bytewise_overlap :
    memmove (fun a => UInt8.ofNat a) 3 1 21 23 = 21 ∧
      memcpy (fun a => UInt8.ofNat a) 3 35 21 20 = 52 ∧
        memset (fun a => UInt8.ofNat a) 3 170 21 20 = 170 := by
  obtain ⟨hset, hcpy, hmove⟩ := primitives_bytewise (fun a => UInt8.ofNat a) 3 21
  rw [hset 170, hmove 1, hcpy 35 (by decide)]
  decide

end Memory
