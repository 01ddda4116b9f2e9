import LufiraOS.Lib.Bytes
import Mathlib

/-!
# Formatted output into a buffer

`vsnprintf` reads the format piece by piece and counts the characters it prints, whether or not the
buffer has room for them.  What it prints for a conversion is compared with what the C standard
says. A format that ends inside a conversion is read past its end, and a number that does not fit
an `int` has no defined result.
-/

namespace Printf

open ByteStore List

/-! ### The format -/

/-- `*fmt == c`. -/
def starts (c : UInt8) (fmt : CStr) : Bool := fmt.head?.any (·.1 == c)

def isDigit (c : CChar) : Bool := decide (48 ≤ c.1) && decide (c.1 ≤ 57)

/-- What stands between `%` and the conversion character; the numbers by their digits. -/
structure Directive where
  zero : Bool
  width : CStr
  precision : Option CStr
  long : Bool

/-- The flag, the width, the precision and the length, and what is left of the format. -/
def directive (fmt : CStr) : Directive × CStr :=
  let zero := starts 48 fmt
  let fmt := if zero then fmt.tail else fmt
  let width := fmt.takeWhile isDigit
  let fmt := fmt.dropWhile isDigit
  let dot := starts 46 fmt
  let precision := if dot then some (fmt.tail.takeWhile isDigit) else none
  let fmt := if dot then fmt.tail.dropWhile isDigit else fmt
  let long := starts 108 fmt
  let fmt := if long then fmt.tail else fmt
  let fmt := if long && starts 108 fmt then fmt.tail else fmt
  (⟨zero, width, precision, long⟩, fmt)

theorem length_directive_le (fmt : CStr) : (directive fmt).2.length ≤ fmt.length := by
  have hdrop (l : CStr) : (l.dropWhile isDigit).length ≤ l.length := (dropWhile_suffix _).length_le
  grind [directive]

/-- An argument: a word of 64 bits, or a string or the null pointer. -/
inductive Arg where
  | word (w : BitVec 64)
  | str (s : Option CStr)

/-- What a conversion is to print; an unsigned number with its conversion character. -/
inductive Job where
  | signed (v : Int)
  | unsigned (v : Nat) (c : UInt8)
  | pointer (v : Nat)
  | string (s : List UInt8)
  | char (c : UInt8)
  | percent
  | other (c : UInt8)

/-- `"(null)"`. -/
def null : List UInt8 := [40, 110, 117, 108, 108, 41]

/-- What is done with a word: `d` and `i`, `p`, `c`, or else `u`, `x` and `X`. -/
def wordJob (d : Directive) (c : UInt8) (w : BitVec 64) : Job :=
  if c = 100 ∨ c = 105 then .signed (if d.long then w.toInt else (w.setWidth 32).toInt)
  else if c = 112 then .pointer w.toNat
  else if c = 99 then .char (UInt8.ofBitVec (w.setWidth 8))
  else .unsigned (if d.long then w.toNat else (w.setWidth 32).toNat) c

/-- The conversion character takes its argument; there is none if the arguments do not match. -/
def job (d : Directive) (c : UInt8) (args : List Arg) : Option (Job × List Arg) :=
  if c = 115 then
    match args with
    | .str s :: args => some (.string ((s.map (·.map Subtype.val)).getD null), args)
    | _ => none
  else if c ∈ [100, 105, 112, 99, 117, 120, 88] then
    match args with
    | .word w :: args => some (wordJob d c w, args)
    | _ => none
  else some (if c = 37 then .percent else .other c, args)

/-- A piece of the format: a character, a conversion, or the end inside of one. -/
inductive Item where
  | char (c : UInt8)
  | conv (d : Directive) (j : Job)
  | cut

/-- The pieces of the format with their arguments; a `%` at its end is none. -/
def items : CStr → List Arg → Option (List Item)
  | [], _ => some []
  | c :: fmt, args =>
    if c.1 ≠ 37 then (items fmt args).map (.char c.1 :: ·)
    else if fmt = [] then some []
    else if starts 37 fmt then (items fmt.tail args).map (.char 37 :: ·)
    else
      match _h : (directive fmt).2 with
      | [] => some [.cut]
      | c :: rest => (job (directive fmt).1 c.1 args).bind fun x =>
        (items rest x.2).map (.conv (directive fmt).1 x.1 :: ·)
termination_by fmt => fmt.length
decreasing_by
  · simp
  · simp only [length_tail, length_cons]
    omega
  · have hle := length_directive_le fmt
    rw [_h, length_cons] at hle
    rw [length_cons]
    omega

/-! ### What is printed -/

/-- The number that digits stand for. -/
def value (ds : CStr) : Nat := ds.foldl (fun n c => n * 10 + (c.1.toNat - 48)) 0

/-- The loop that reads a number into an `int`; the number only grows, and undefined is what happens
when it does not fit. -/
def readInt (ds : CStr) : Option Nat := if value ds < 2 ^ 31 then some (value ds) else none

/-- The table of `format_uint`. -/
def digit (d : Nat) : UInt8 := UInt8.ofNat (if d < 10 then 48 + d else 55 + d)

def lower (c : UInt8) : UInt8 := if 65 ≤ c ∧ c ≤ 70 then c + 32 else c

/-- The loop of `format_uint`. -/
def digitLoop (base : Nat) : (turns value : Nat) → List UInt8
  | 0, _ => []
  | turns + 1, value =>
    if value = 0 then [] else digit (value % base) :: digitLoop base turns (value / base)

/-- `format_uint`, the digits in the order in which they are printed. -/
def formatUint (value base : Nat) : List UInt8 :=
  if value = 0 then [48] else (digitLoop base value value).reverse

/-- What the cases of the numbers print; no `int` in it overflows while the output is below 2³¹. -/
def putNumber (d : Directive) (width precision : Nat) (neg : Bool) (value : Nat)
    (tmp : List UInt8) : List UInt8 :=
  let hasPrecision := d.precision.isSome
  let digitZeros := if hasPrecision ∧ tmp.length < precision then precision - tmp.length else 0
  let printDigits := decide ¬ (hasPrecision ∧ precision = 0 ∧ value = 0)
  let total := (if printDigits then tmp.length + digitZeros else 0) + if neg then 1 else 0
  let pad := width - total
  let useZeroPad := d.zero && !hasPrecision
  (if useZeroPad then [] else replicate pad 32) ++ (if neg then [45] else []) ++
    (if useZeroPad then replicate pad 48 else []) ++
    if printDigits then replicate digitZeros 48 ++ tmp else []

/-- The cases of the conversion character; `-v` is undefined for the most negative `long`, and so is
`len++` for a string that is too long for an `int`. -/
def Job.print (d : Directive) (width precision : Nat) : Job → Option (List UInt8)
  | .signed v =>
    if v = -2 ^ 63 then none
    else some (putNumber d width precision (v < 0) v.natAbs (formatUint v.natAbs 10))
  | .unsigned v c =>
    let tmp := formatUint v (if c = 117 then 10 else 16)
    some (putNumber d width precision false v (if c = 120 then tmp.map lower else tmp))
  | .pointer v => some (48 :: 120 :: formatUint v 16)
  | .string s =>
    let useLen := if d.precision.isSome ∧ precision < s.length then precision else s.length
    if s.length < 2 ^ 31 then some (replicate (width - useLen) 32 ++ s.take useLen) else none
  | .char c => some [c]
  | .percent => some [37, 37]
  | .other c => some [37, c]

/-- One turn of the loop.  At the end of the format the NUL is taken for a conversion character, and
the next one is read behind it. -/
def Item.print : Item → Option (List UInt8)
  | .char c => some [c]
  | .conv d j => (readInt d.width).bind fun width =>
    (readInt (d.precision.getD [])).bind fun precision => j.print d width precision
  | .cut => none

def emit : List Item → Option (List UInt8)
  | [] => some []
  | i :: is => i.print.bind fun t => (emit is).map (t ++ ·)

/-- `sink_t`. -/
structure Sink where
  buf : Bytes
  size : Nat
  pos : Nat

def sinkPutc (sk : Sink) (c : UInt8) : Sink :=
  { sk with
    buf := if sk.pos + 1 < sk.size then Function.update sk.buf sk.pos c else sk.buf
    pos := sk.pos + 1 }

/-- `vsnprintf`: what it returns and the buffer afterwards. -/
def vsnprintf (buf : Bytes) (size : Nat) (fmt : CStr) (args : List Arg) : Option (Int × Bytes) :=
  ((items fmt args).bind emit).map fun out =>
    let sk := out.foldl sinkPutc ⟨buf, size, 0⟩
    let term := if sk.pos < size then sk.pos else size - 1
    ((sk.pos : Int).bmod (2 ^ 32), if 0 < size then Function.update sk.buf term 0 else sk.buf)

/-! ### What the standard says -/

/-- A number without zeros in front. -/
def numeral (base value : Nat) : List UInt8 :=
  if value = 0 then [48] else ((Nat.digits base value).map digit).reverse

/-- A number has at least as many digits as the precision, none if both are 0, and is filled up to
the width with spaces, or behind its sign with zeros if the flag is there and no precision. -/
def numberText (d : Directive) (sign : List UInt8) (v : Nat) (digits : List UInt8) : List UInt8 :=
  let precision := d.precision.map value
  let body := if precision = some 0 ∧ v = 0 then []
    else replicate (precision.getD 0 - digits.length) 48 ++ digits
  let pad := value d.width - (sign.length + body.length)
  if d.zero && d.precision.isNone then sign ++ replicate pad 48 ++ body
  else replicate pad 32 ++ sign ++ body

/-- What a conversion stands for. -/
def Job.text (d : Directive) : Job → List UInt8
  | .signed v => numberText d (if v < 0 then [45] else []) v.natAbs (numeral 10 v.natAbs)
  | .unsigned v c =>
    let digits := numeral (if c = 117 then 10 else 16) v
    numberText d [] v (if c = 120 then digits.map lower else digits)
  | .pointer v => 48 :: 120 :: numeral 16 v
  | .string s =>
    let s := s.take ((d.precision.map value).getD s.length)
    replicate (value d.width - s.length) 32 ++ s
  | .char c => [c]
  | .percent => [37]
  | .other c => [37, c]

def Item.text : Item → List UInt8
  | .char c => [c]
  | .conv d j => j.text d
  | .cut => []

/-- The expansion of the format. -/
def expand (is : List Item) : List UInt8 := is.flatMap Item.text

/-- The buffer with the first characters of `out` and a NUL. -/
def stored (buf : Bytes) (size : Nat) (out : List UInt8) : Bytes := fun i =>
  if size = 0 then buf i
  else if i < min out.length (size - 1) then out.getD i 0
  else if i = min out.length (size - 1) then 0
  else buf i

/-- `vsnprintf` returns the length of `out` and stores what fits of it. -/
def Prints (buf : Bytes) (size : Nat) (fmt : CStr) (args : List Arg) (out : List UInt8) : Prop :=
  vsnprintf buf size fmt args = some ((out.length : Int), stored buf size out)

/-- **The condition** on a conversion: it is not the most negative `long`, its string is not too
long, and `%` stands alone. -/
def Job.Fits : Job → Prop
  | .signed v => v ≠ -2 ^ 63
  | .string s => s.length < 2 ^ 31
  | .percent => False
  | _ => True

/-- **The condition** on a piece: its numbers fit an `int`, and the format does not end in it. -/
def Item.Fits : Item → Prop
  | .char _ => True
  | .conv d j => value d.width < 2 ^ 31 ∧ value (d.precision.getD []) < 2 ^ 31 ∧ j.Fits
  | .cut => False

theorem digitLoop_eq {base turns v : Nat} (hbase : 1 < base) (h : v ≤ turns) :
    digitLoop base turns v = (Nat.digits base v).map digit := by
  induction turns generalizing v with
  | zero =>
    rw [Nat.le_zero.1 h, Nat.digits_zero]
    rfl
  | succ turns ih =>
    rw [digitLoop]
    split
    · next hv =>
      rw [hv, Nat.digits_zero]
      rfl
    · next hv =>
      have hlt := Nat.div_lt_self (Nat.pos_of_ne_zero hv) hbase
      rw [Nat.digits_def' hbase (Nat.pos_of_ne_zero hv), map_cons, ih (by omega)]

theorem formatUint_eq {base : Nat} (hbase : 1 < base) (v : Nat) :
    formatUint v base = numeral base v := by
  rw [formatUint, numeral, digitLoop_eq hbase (Nat.le_refl v)]

/-- **Numbers** are printed as the standard says. -/
theorem putNumber_eq (d : Directive) (neg : Bool) (v : Nat) (tmp : List UInt8) :
    putNumber d (value d.width) (value (d.precision.getD [])) neg v tmp =
      numberText d (if neg then [45] else []) v tmp := by
  obtain ⟨zero, width, precision, long⟩ := d
  unfold putNumber numberText
  cases precision with
  | none => cases neg <;> cases zero <;> simp [Nat.add_comm]
  | some p =>
    have hzeros : (if tmp.length < value p then value p - tmp.length else 0) =
        value p - tmp.length := by split <;> omega
    by_cases hv : value p = 0 ∧ v = 0
    · cases neg <;> simp [hv]
    · cases neg <;> simp [hv, hzeros, Nat.add_comm]

/-- The output is the text if it fits, and otherwise undefined or too long by up to its length. -/
def Right (fits : Prop) (print : Option (List UInt8)) (text : List UInt8) : Prop :=
  print = some text ∧ fits ∨
    ¬ fits ∧ ∀ out ∈ print, text.length < out.length ∧ out.length ≤ 2 * text.length

theorem Right.append {f g : Prop} {p q : Option (List UInt8)} {t u : List UInt8}
    (hp : Right f p t) (hq : Right g q u) :
    Right (f ∧ g) (p.bind fun a => q.map (a ++ ·)) (t ++ u) := by
  rcases hp with ⟨rfl, hf⟩ | ⟨hf, hp⟩
  · rcases hq with ⟨rfl, hg⟩ | ⟨hg, hq⟩
    · exact .inl ⟨rfl, hf, hg⟩
    refine .inr ⟨fun h => hg h.2, fun out hout => ?_⟩
    obtain ⟨b, hb, rfl⟩ := Option.mem_map.1 hout
    have := hq b hb
    simp only [length_append]
    omega
  refine .inr ⟨fun h => hf h.1, fun out hout => ?_⟩
  obtain ⟨a, ha, hout⟩ := Option.mem_bind_iff.1 hout
  obtain ⟨b, hb, rfl⟩ := Option.mem_map.1 hout
  have := hp a ha
  have hle : u.length ≤ b.length ∧ b.length ≤ 2 * u.length := by
    rcases hq with ⟨rfl, -⟩ | ⟨-, hq⟩
    · cases hb
      omega
    · have := hq b hb
      omega
  simp only [length_append]
  omega

/-- A conversion that fits is printed as the standard says; `%` with something before it is printed
twice, and the others are undefined. -/
theorem Job.print_right (d : Directive) (j : Job) :
    Right j.Fits (j.print d (value d.width) (value (d.precision.getD []))) (j.text d) := by
  cases j with
  | signed v =>
    by_cases hv : v = -2 ^ 63
    · exact .inr ⟨fun h => h hv, by simp [Job.print, hv]⟩
    refine .inl ⟨(if_neg hv).trans (congrArg some ?_), hv⟩
    rw [formatUint_eq (by decide), putNumber_eq]
    simp [Job.text]
  | unsigned v c =>
    have hbase : 1 < if c = 117 then 10 else 16 := by split <;> decide
    refine .inl ⟨congrArg some ?_, trivial⟩
    rw [formatUint_eq hbase, putNumber_eq]
    rfl
  | string s =>
    by_cases hs : s.length < 2 ^ 31
    · refine .inl ⟨(if_pos hs).trans (congrArg some ?_), hs⟩
      unfold Job.text
      cases d.precision with
      | none => simp
      | some p =>
        by_cases hp : value p < s.length
        · simp [hp, Nat.le_of_lt hp]
        · simp [hp, Nat.not_lt.1 hp]
    · exact .inr ⟨hs, by rw [Job.print, if_neg hs]; nofun⟩
  | percent => exact .inr ⟨id, by simp [Job.print, Job.text]⟩
  | pointer v => exact .inl ⟨by rw [Job.print, formatUint_eq (by decide), Job.text], trivial⟩
  | char c | other c => exact .inl ⟨rfl, trivial⟩

theorem Item.print_right (i : Item) : Right i.Fits i.print i.text := by
  cases i with
  | char c => exact .inl ⟨rfl, trivial⟩
  | cut => exact .inr ⟨id, nofun⟩
  | conv d j =>
    simp only [Item.print, Item.Fits, Item.text, readInt]
    by_cases hw : value d.width < 2 ^ 31
    · by_cases hp : value (d.precision.getD []) < 2 ^ 31
      · rw [if_pos hw, if_pos hp, and_iff_right hw, and_iff_right hp]
        exact j.print_right d
      · exact .inr ⟨fun h => hp h.2.1, by rw [if_pos hw, if_neg hp]; nofun⟩
    · exact .inr ⟨fun h => hw h.1, by rw [if_neg hw]; nofun⟩

theorem emit_right (is : List Item) : Right (∀ i ∈ is, i.Fits) (emit is) (expand is) := by
  induction is with
  | nil => exact .inl ⟨rfl, nofun⟩
  | cons i is ih =>
    rw [forall_mem_cons]
    exact i.print_right.append ih

/-! ### The buffer -/

/-- What fits is stored, and everything is counted. -/
theorem foldl_sinkPutc (buf : Bytes) (size : Nat) (out : List UInt8) :
    out.foldl sinkPutc ⟨buf, size, 0⟩ = ⟨fun i =>
      if i < out.length ∧ i + 1 < size then out.getD i 0 else buf i, size, out.length⟩ := by
  induction out using reverseRecOn with
  | nil => simp
  | append_singleton out c ih =>
    rw [foldl_append, ih, foldl_cons, foldl_nil, sinkPutc, length_append, length_singleton]
    refine congrArg (Sink.mk · size (out.length + 1)) (funext fun i => ?_)
    dsimp only
    rcases Nat.lt_trichotomy i out.length with hi | rfl | hi
    · rw [getD_append _ _ _ _ hi]
      split <;> simp [hi, Nat.ne_of_lt hi, Nat.lt_succ_of_lt hi]
    · split <;> simp [*]
    · split <;> simp [Nat.not_lt_of_gt hi, Nat.ne_of_gt hi, Nat.not_lt.2 hi]

/-- The buffer after the NUL. -/
theorem finish_eq (buf : Bytes) (size : Nat) (out : List UInt8) :
    (if 0 < size then Function.update (out.foldl sinkPutc ⟨buf, size, 0⟩).buf
      (if out.length < size then out.length else size - 1) 0
      else (out.foldl sinkPutc ⟨buf, size, 0⟩).buf) = stored buf size out := by
  rw [foldl_sinkPutc]
  funext i
  unfold stored
  rcases Nat.eq_zero_or_pos size with rfl | hsize
  · simp
  have hterm : (if out.length < size then out.length else size - 1) = min out.length
      (size - 1) := by
    split <;> omega
  rw [if_pos hsize, hterm, if_neg (by omega), Function.update_apply]
  split
  · rw [if_neg (by omega)]
  · have hin : (i < out.length ∧ i + 1 < size) ↔ i < min out.length (size - 1) := by omega
    simp only [hin]

/-- **`vsnprintf`** returns the length of the expansion and stores what fits of it, exactly if the
format does not end inside a conversion, its numbers fit an `int`, `%` follows `%` directly and no
argument is the most negative `long` or too long a string. -/
theorem prints_iff (buf : Bytes) (size : Nat) {fmt : CStr} {args : List Arg} {is : List Item}
    (hargs : items fmt args = some is) (hlen : (expand is).length < 2 ^ 31) :
    Prints buf size fmt args (expand is) ↔ ∀ i ∈ is, i.Fits := by
  unfold Prints vsnprintf
  have hpos (out : List UInt8) : (out.foldl sinkPutc ⟨buf, size, 0⟩).pos = out.length := by
    rw [foldl_sinkPutc]
  simp only [hargs, Option.bind_some, hpos, finish_eq]
  rcases emit_right is with ⟨hout, hfits⟩ | ⟨hno, hlong⟩
  · have hret : ((expand is).length : Int).bmod (2 ^ 32) = (expand is).length := by
      rw [Int.bmod_def]
      split <;> omega
    exact iff_of_true (by rw [hout, Option.map_some, hret]) hfits
  refine iff_of_false (fun h => ?_) hno
  obtain ⟨out, hout, hret⟩ := Option.map_eq_some_iff.1 h
  have hcount := hlong out hout
  rw [Prod.mk.injEq, Int.bmod_def] at hret
  split at hret <;> omega

/-- `"%5i"`. -/
def fiveWide : CStr := [⟨37, by decide⟩, ⟨53, by decide⟩, ⟨105, by decide⟩]

/-- It prints -42 behind two spaces. -/
theorem prints_iff_fiveWide : ∃ is, items fiveWide [.word (-42)] = some is ∧
    expand is = [32, 32, 45, 52, 50] ∧ Prints zeros 4 fiveWide [.word (-42)] (expand is) := by
  let d : Directive := ⟨false, [⟨53, by decide⟩], none, false⟩
  have hargs : items fiveWide [.word (-42)] = some [.conv d (.signed (-42))] := by
    rw [fiveWide, items, if_neg (by decide), if_neg (by decide), if_neg (by decide)]
    change (items [] []).map (.conv d (.signed (-42)) :: ·) = _
    rw [items, Option.map_some]
  have hexpand : expand [.conv d (.signed (-42))] = [32, 32, 45, 52, 50] := by
    simp [d, expand, Item.text, Job.text, numberText, numeral, value, digit]
  refine ⟨_, hargs, hexpand, (prints_iff _ _ hargs (by rw [hexpand]; decide)).2 ?_⟩
  simp [d, Item.Fits, Job.Fits, value]

/-- **A format that ends inside a conversion**, `"%5"`, is read past its end. -/
theorem not_prints_cut : items (fiveWide.take 2) [] = some [.cut] ∧
    ∀ buf size, ¬ Prints buf size (fiveWide.take 2) [] (expand [.cut]) := by
  have hargs : items (fiveWide.take 2) [] = some [.cut] := by
    rw [fiveWide, take_succ_cons, items, if_neg (by decide), if_neg (by decide), if_neg (by decide)]
    rfl
  refine ⟨hargs, fun buf size h => ?_⟩
  rw [Prints, vsnprintf, hargs] at h
  cases h

end Printf
