import Mathlib.Tactic.Ring
import Mathlib.Data.Nat.Bits
import Mathlib.Logic.Function.Basic

/-!
# Byte stores

A byte store is a total map from addresses to bytes.  This file has the
operations a C program performs on one: copying a range into it, reading and
writing little-endian 32-bit words, testing and setting single bits of a
bitmap, and reading and writing NUL-terminated strings.  Every operation comes
with the two facts a proof needs: what it reads back, and what it leaves alone.
-/

namespace ByteStore

variable {src m m' : Bytes} {off len a off' fuel n : Nat}

/-- A byte store. -/
abbrev Bytes := Nat → UInt8

/-- The store that holds only zero bytes. -/
def zeros : Bytes := fun _ => 0

/-- `memcpy (dst + off) src len`. -/
def copyIn (dst : Bytes) (off len : Nat) (src : Bytes) : Bytes :=
  fun a => if off ≤ a ∧ a < off + len then src (a - off) else dst a

/-- The `len` bytes from `off` on, as a store that is zero behind them. -/
def window (m : Bytes) (off len : Nat) : Bytes :=
  fun i => if i < len then m (off + i) else 0

@[simp] theorem zeros_apply (a : Nat) : zeros a = 0 := rfl

theorem copyIn_inside {dst : Bytes} (hlo : off ≤ a) (hhi : a < off + len) :
    copyIn dst off len src a = src (a - off) := by
  simp [copyIn, hlo, hhi]

theorem copyIn_outside {dst : Bytes} (h : a < off ∨ off + len ≤ a) :
    copyIn dst off len src a = dst a := by
  rw [copyIn, if_neg]
  omega

theorem window_apply {i : Nat} (h : i < len) : window m off len i = m (off + i) := by
  simp [window, h]

/-- A window reads only the bytes it covers. -/
theorem window_congr (h : ∀ i, i < len → m (off + i) = m' (off + i)) :
    window m off len = window m' off len := by
  funext i
  by_cases hi : i < len
  · simp [window, hi, h i hi]
  · simp [window, hi]

/-- A window over a copied range is the source of the copy. -/
theorem window_copyIn_same (m src : Bytes) (off len : Nat) :
    window (copyIn m off len src) off len = window src 0 len := by
  funext i
  by_cases hi : i < len
  · simp [window, hi, copyIn]
  · simp [window, hi]

/-- A copy next to a window does not show in it. -/
theorem window_copyIn_disjoint {len' : Nat} (h : off + len ≤ off' ∨ off' + len' ≤ off) :
    window (copyIn m off' len' src) off len = window m off len :=
  window_congr fun i hi => copyIn_outside (by omega)

@[simp] theorem window_window (m : Bytes) (off len : Nat) :
    window (window m off len) 0 len = window m off len := by
  funext i
  simp only [window, Nat.zero_add]
  split <;> rfl

/-! ## Little-endian words -/

/-- The little-endian 32-bit word at `off`. -/
def word32 (m : Bytes) (off : Nat) : UInt32 :=
  UInt32.ofNat ((m off).toNat + 256 * (m (off + 1)).toNat +
    65536 * (m (off + 2)).toNat + 16777216 * (m (off + 3)).toNat)

/-- Byte `k` of a 32-bit word, least significant first. -/
def byteOf (v : UInt32) (k : Nat) : UInt8 := UInt8.ofNat (v.toNat / 256 ^ k)

/-- An array of words laid out as bytes. -/
def wordBytes (ws : Nat → UInt32) : Bytes := fun i => byteOf (ws (i / 4)) (i % 4)

/-- Store one word. -/
def putWord (m : Bytes) (off : Nat) (v : UInt32) : Bytes :=
  copyIn m off 4 (byteOf v)

/-- A word reads only its own four bytes. -/
theorem word32_congr (h : ∀ k, k < 4 → m (off + k) = m' (off' + k)) :
    word32 m off = word32 m' off' := by
  have h0 := h 0 (by omega)
  have h1 := h 1 (by omega)
  have h2 := h 2 (by omega)
  have h3 := h 3 (by omega)
  simp only [Nat.add_zero] at h0
  simp only [word32, h0, h1, h2, h3]

/-- Four consecutive bytes of a word give the word back. -/
theorem word32_byteOf {v : UInt32}
    (h : ∀ k, k < 4 → m (off + k) = byteOf v k) : word32 m off = v := by
  have h0 := h 0 (by omega)
  have h1 := h 1 (by omega)
  have h2 := h 2 (by omega)
  have h3 := h 3 (by omega)
  simp only [Nat.add_zero] at h0
  have hv : v.toNat < 4294967296 := v.toNat_lt
  apply UInt32.toNat_inj.1
  simp only [word32, h0, h1, h2, h3, byteOf, UInt8.toNat_ofNat', UInt32.toNat_ofNat']
  omega

theorem word32_copyIn_disjoint (h : off + 4 ≤ off' ∨ off' + len ≤ off) :
    word32 (copyIn m off' len src) off = word32 m off :=
  word32_congr fun k hk => copyIn_outside (by omega)

theorem word32_copyIn_inside (hlo : off' ≤ off) (hhi : off + 4 ≤ off' + len) :
    word32 (copyIn m off' len src) off = word32 src (off - off') := by
  apply word32_congr
  intro k hk
  rw [copyIn_inside (by omega) (by omega)]
  congr 1
  omega

@[simp] theorem word32_putWord_same (m : Bytes) (off : Nat) (v : UInt32) :
    word32 (putWord m off v) off = v := by
  apply word32_byteOf
  intro k hk
  rw [putWord, copyIn_inside (by omega) (by omega)]
  congr 1
  omega

theorem word32_putWord_disjoint {v : UInt32} (h : off + 4 ≤ off' ∨ off' + 4 ≤ off) :
    word32 (putWord m off' v) off = word32 m off :=
  word32_copyIn_disjoint h

/-- A word stored inside a window shows in the window. -/
theorem window_putWord (m : Bytes) (off len : Nat) (v : UInt32) :
    window (putWord (window m 0 len) off v) 0 len = window (putWord m off v) 0 len := by
  funext i
  by_cases hi : i < len
  · simp [window, hi, putWord, copyIn]
  · simp [window, hi]

/-- Word `k` of an array of words. -/
@[simp] theorem word32_wordBytes (ws : Nat → UInt32) (k : Nat) :
    word32 (wordBytes ws) (4 * k) = ws k := by
  apply word32_byteOf
  intro j hj
  have hdiv : (4 * k + j) / 4 = k := by omega
  have hmod : (4 * k + j) % 4 = j := by omega
  simp only [wordBytes, hdiv, hmod]

@[simp] theorem word32_zeros (off : Nat) : word32 zeros off = 0 := by
  simp [word32, zeros]

theorem word32_window {k : Nat} (h : k + 4 ≤ len) :
    word32 (window m off len) k = word32 m (off + k) :=
  word32_congr fun i hi => by
    rw [window_apply (by omega), Nat.add_assoc]

/-! ## 64-bit words -/

/-- The little-endian 64-bit word at `off`. -/
def word64 (m : Bytes) (off : Nat) : Nat :=
  (word32 m off).toNat + 4294967296 * (word32 m (off + 4)).toNat

/-- Store a 64-bit word. -/
def putWord64 (m : Bytes) (off v : Nat) : Bytes :=
  putWord (putWord m off (UInt32.ofNat v)) (off + 4) (UInt32.ofNat (v / 4294967296))

theorem putWord_outside (v : UInt32) (h : a < off ∨ off + 4 ≤ a) :
    putWord m off v a = m a :=
  copyIn_outside h

theorem putWord64_outside (v : Nat) (h : a < off ∨ off + 8 ≤ a) : putWord64 m off v a = m a := by
  rw [putWord64, putWord_outside _ (by omega), putWord_outside _ (by omega)]

theorem word64_congr (h : ∀ k, k < 8 → m (off + k) = m' (off + k)) :
    word64 m off = word64 m' off := by
  have hhigh : word32 m (off + 4) = word32 m' (off + 4) := word32_congr fun k hk => by
    have hbyte := h (4 + k) (by omega)
    rwa [← Nat.add_assoc] at hbyte
  have hlow : word32 m off = word32 m' off := word32_congr fun k hk => h k (by omega)
  rw [word64, word64, hhigh, hlow]

theorem word64_putWord64_same {v : Nat} (h : v < 18446744073709551616) :
    word64 (putWord64 m off v) off = v := by
  rw [word64, putWord64, word32_putWord_same, word32_putWord_disjoint (by omega),
    word32_putWord_same, UInt32.toNat_ofNat', UInt32.toNat_ofNat']
  omega

/-! ## Bitmaps -/

/-- Bit `k` of a byte: `(x >> k) & 1`. -/
def bitOf (x : UInt8) (k : Nat) : Bool := x.toBitVec.getLsbD k

/-- `x |= 1 << k` or `x &= ~(1 << k)`. -/
def withBit (x : UInt8) (k : Nat) (used : Bool) : UInt8 :=
  if used then x ||| UInt8.ofBitVec (BitVec.twoPow 8 k)
  else x &&& ~~~ (UInt8.ofBitVec (BitVec.twoPow 8 k))

/-- Bit `b` of the bitmap that starts at `base`. -/
def bitAt (m : Bytes) (base b : Nat) : Bool := bitOf (m (base + b / 8)) (b % 8)

/-- Write bit `b` of the bitmap that starts at `base`. -/
def setBitAt (m : Bytes) (base b : Nat) (used : Bool) : Bytes :=
  copyIn m (base + b / 8) 1 fun _ => withBit (m (base + b / 8)) (b % 8) used

theorem bitOf_withBit {x : UInt8} {j k : Nat} (hj : j < 8) (used : Bool) :
    bitOf (withBit x k used) j = if j = k then used else bitOf x j := by
  cases used <;> by_cases hjk : j = k
  · subst hjk
    simp [bitOf, withBit, hj]
  · simp [bitOf, withBit, hj, hjk]
  · subst hjk
    simp [bitOf, withBit, hj]
  · have : k ≠ j := fun h => hjk h.symm
    simp [bitOf, withBit, hjk, this]

/-- Writing one bit of a bitmap changes that bit only. -/
theorem bitAt_setBitAt (m : Bytes) (base b b' : Nat) (used : Bool) :
    bitAt (setBitAt m base b used) base b' = if b' = b then used else bitAt m base b' := by
  by_cases hbyte : b' / 8 = b / 8
  · have hcopy : setBitAt m base b used (base + b' / 8) =
        withBit (m (base + b / 8)) (b % 8) used := by
      rw [setBitAt, hbyte, copyIn_inside (by omega) (by omega)]
    rw [bitAt, hcopy, bitOf_withBit (Nat.mod_lt _ (by decide)), bitAt, hbyte]
    have hiff : b' % 8 = b % 8 ↔ b' = b := by omega
    simp only [hiff]
  · have hne : b' ≠ b := fun h => hbyte (by rw [h])
    rw [bitAt, setBitAt, copyIn_outside (by omega), if_neg hne, bitAt]

/-- Writing a bit leaves every byte outside the bitmap's own byte alone. -/
theorem setBitAt_outside {base b : Nat} (used : Bool)
    (h : a ≠ base + b / 8) : setBitAt m base b used a = m a :=
  copyIn_outside (by omega)

/-! ## NUL-terminated strings -/

/-- A character of a C string: any byte but the terminator. -/
abbrev CChar := { c : UInt8 // c ≠ 0 }

/-- The characters of a C string in front of its terminator. -/
abbrev CStr := List CChar

/-- The C string at `off`, read for at most `fuel` characters. -/
def cstrAt (m : Bytes) (off : Nat) : (fuel : Nat) → CStr
  | 0 => []
  | fuel + 1 => if h : m off = 0 then [] else ⟨m off, h⟩ :: cstrAt m (off + 1) fuel

/-- A C string with its terminator, as bytes. -/
def cstrBytes (s : CStr) : Bytes := fun i =>
  match s[i]? with
  | some c => c.val
  | none => 0

theorem cstrBytes_cons_zero (c : CChar) (s : CStr) : cstrBytes (c :: s) 0 = c.val := rfl

theorem cstrBytes_cons_succ (c : CChar) (s : CStr) (i : Nat) :
    cstrBytes (c :: s) (i + 1) = cstrBytes s i := by
  simp [cstrBytes]

/-- A string is determined by the bytes it is read from. -/
theorem cstrAt_congr (h : ∀ k, k < fuel → m (off + k) = m' (off' + k)) :
    cstrAt m off fuel = cstrAt m' off' fuel := by
  induction fuel generalizing off off' with
  | zero => rfl
  | succ fuel ih =>
    have h0 : m off = m' off' := by simpa using h 0 (by omega)
    have htail : cstrAt m (off + 1) fuel = cstrAt m' (off' + 1) fuel := by
      apply ih
      intro k hk
      have := h (k + 1) (by omega)
      rwa [Nat.add_comm k 1, ← Nat.add_assoc, ← Nat.add_assoc] at this
    simp only [cstrAt, h0, htail]

/-- A string written with its terminator is read back, given room for it. -/
theorem cstrAt_of_bytes {s : CStr} (hfuel : s.length < fuel)
    (h : ∀ k, k ≤ s.length → m (off + k) = cstrBytes s k) :
    cstrAt m off fuel = s := by
  induction s generalizing off fuel with
  | nil =>
    obtain ⟨n, rfl⟩ : ∃ n, fuel = n + 1 := ⟨fuel - 1, by simp at hfuel; omega⟩
    have h0 : m off = 0 := by simpa [cstrBytes] using h 0 (by simp)
    simp [cstrAt, h0]
  | cons c s ih =>
    obtain ⟨n, rfl⟩ : ∃ n, fuel = n + 1 := ⟨fuel - 1, by simp at hfuel; omega⟩
    have h0 : m off = c.val := by
      have := h 0 (by simp)
      rwa [Nat.add_zero, cstrBytes_cons_zero] at this
    have htail : cstrAt m (off + 1) n = s := by
      apply ih
      · simp at hfuel; omega
      intro k hk
      have := h (k + 1) (by simp; omega)
      rw [cstrBytes_cons_succ] at this
      rw [← this]
      congr 1
      omega
    simp [cstrAt, h0, c.property, htail]

/-- Less fuel cuts the string. -/
theorem cstrAt_take (h : n ≤ fuel) : cstrAt m off n = (cstrAt m off fuel).take n := by
  induction n generalizing off fuel with
  | zero => simp [cstrAt]
  | succ n ih =>
    obtain ⟨k, rfl⟩ : ∃ k, fuel = k + 1 := ⟨fuel - 1, by omega⟩
    by_cases h0 : m off = 0
    · simp [cstrAt, h0]
    · have htail : cstrAt m (off + 1) n = (cstrAt m (off + 1) k).take n := ih (by omega)
      simp only [cstrAt, h0, dite_false, List.take_succ_cons, htail]

/-- A string that ends in front of `n` does not depend on further fuel. -/
theorem cstrAt_fuel (hlen : (cstrAt m off n).length < n) (hfuel : n ≤ fuel) :
    cstrAt m off fuel = cstrAt m off n := by
  rw [cstrAt_take hfuel, List.length_take] at hlen
  rw [cstrAt_take hfuel, List.take_of_length_le (by omega)]

/-- A short string does not depend on the bytes behind it. -/
theorem cstrAt_congr_short (hfuel : n < fuel)
    (hlen : (cstrAt m off fuel).length ≤ n) (h : ∀ k, k ≤ n → m' (off + k) = m (off + k)) :
    cstrAt m' off fuel = cstrAt m off fuel := by
  have hsame : cstrAt m' off (n + 1) = cstrAt m off (n + 1) :=
    cstrAt_congr fun k hk => h k (by omega)
  have hshort : (cstrAt m off (n + 1)).length < n + 1 := by
    rw [cstrAt_take (show n + 1 ≤ fuel by omega), List.length_take]
    omega
  rw [cstrAt_fuel (n := n + 1) (by rw [hsame]; exact hshort) (by omega), hsame,
    ← cstrAt_fuel hshort (show n + 1 ≤ fuel by omega)]

end ByteStore
