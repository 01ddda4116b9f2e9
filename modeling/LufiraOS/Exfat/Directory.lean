import Mathlib

/-!
# Directories of exFAT

A directory is a chain of clusters, each an array of entries of 32 bytes.  A name is a set of
entries that lie in one cluster: the file entry `0x85`, the stream extension `0xC0` behind it and
the entries `0xC1` of the name.  `walk_dir` goes from set to set and ends at the first entry
`0x00`; `find_free_run` looks for that entry and wants the whole new set behind it in the same
cluster.
-/

namespace Exfat

/-- An entry of a directory. -/
abbrev Slot := Nat → UInt8

def zeroSlot : Slot := fun _ => 0

/-- The image of a directory in the cache: its entries in the order of the chain, and how many of
them a cluster has. -/
structure Dir where
  perCluster : Nat
  slots : List Slot

namespace Dir

/-- The entry at a position.  What lies behind the image is not followed. -/
def slot (d : Dir) (p : Nat) : Slot := d.slots.getD p zeroSlot

def total (d : Dir) : Nat := d.slots.length

/-- The type of an entry. -/
def type (d : Dir) (p : Nat) : UInt8 := d.slot p 0

/-- The end of the cluster of a position. -/
def clusterEnd (d : Dir) (p : Nat) : Nat := (p / d.perCluster + 1) * d.perCluster

end Dir

/-- `rd16`. -/
def rd16 (s : Slot) (off : Nat) : Nat := (s off).toNat + 256 * (s (off + 1)).toNat

/-- `rd32`. -/
def rd32 (s : Slot) (off : Nat) : Nat := rd16 s off + 2 ^ 16 * rd16 s (off + 2)

/-- `rd64`. -/
def rd64 (s : Slot) (off : Nat) : Nat := rd32 s off + 2 ^ 32 * rd32 s (off + 4)

/-- What `walk_dir` passes to its callback, and what `get_meta` finds there. -/
structure Visit where
  pos : Nat
  secCount : Nat
  name : List UInt8
  attrs : Nat
  firstCluster : Nat
  size : Nat
  deriving DecidableEq

/-- The attribute `0x10`. -/
def Visit.isDir (v : Visit) : Bool := v.attrs.testBit 4

namespace Dir

/-- A character of a name: what is not ASCII becomes a question mark. -/
def charOf (ch : Nat) : UInt8 := if 0 < ch ∧ ch < 128 then UInt8.ofNat ch else 63

/-- The characters of an entry `0xC1`. -/
def charsOf (s : Slot) : List UInt8 := (List.range 15).map fun k => charOf (rd16 s (2 + 2 * k))

/-- The name of the set at a position: it ends before an entry that is not `0xC1`. -/
def nameAt (d : Dir) (p secCount : Nat) : List UInt8 :=
  ((((List.range (secCount - 1)).map fun s => d.slot (p + 2 + s)).takeWhile
    fun ne => ne 0 == 0xC1).flatMap charsOf).take (d.slot (p + 1) 3).toNat

/-- There is a set at the position: it ends in the cluster and has a stream extension. -/
def isSet (d : Dir) (p : Nat) : Bool :=
  d.type p == 0x85 && p + 1 + (d.slot p 1).toNat ≤ d.clusterEnd p && d.type (p + 1) == 0xC0

/-- The set at a position. -/
def visitAt (d : Dir) (p : Nat) : Visit where
  pos := p
  secCount := (d.slot p 1).toNat
  name := d.nameAt p (d.slot p 1).toNat
  attrs := rd16 (d.slot p) 4
  firstCluster := rd32 (d.slot (p + 1)) 20
  size := rd64 (d.slot (p + 1)) 24

/-- Where the walk goes from a position. -/
def next (d : Dir) (p : Nat) : Nat := if d.isSet p then p + 1 + (d.slot p 1).toNat else p + 1

/-- What the callback is given at a position. -/
def visits (d : Dir) (p : Nat) : List Visit := if d.isSet p then [d.visitAt p] else []

/-- The loops of `walk_dir`, for a number of turns: the sets in order, and where it ends. -/
def walkLoop (d : Dir) : (turns : Nat) → (p : Nat) → List Visit × Nat
  | 0, p => ([], p)
  | turns + 1, p =>
    if d.total ≤ p ∨ d.type p = 0 then ([], p)
    else
      let rest := walkLoop d turns (d.next p)
      (d.visits p ++ rest.1, rest.2)

/-- `walk_dir` from a position. -/
def walkFrom (d : Dir) (p : Nat) : List Visit × Nat := d.walkLoop (d.total - p) p

/-- The sets of a directory. -/
def entries (d : Dir) : List Visit := (d.walkFrom 0).1

/-- Where the walk ends. -/
def walkEnd (d : Dir) : Nat := (d.walkFrom 0).2

end Dir

/-- A letter without case, as `find_cb` compares them. -/
def upper (c : UInt8) : UInt8 := if 97 ≤ c ∧ c ≤ 122 then c - 32 else c

/-- `find_cb`: the names differ in case only. -/
def sameName (a b : List UInt8) : Bool := a.map upper == b.map upper

/-- The search for a component of a path in `exfat_lookup_path`. -/
def Dir.lookup (d : Dir) (name : List UInt8) : Option Visit :=
  d.entries.find? fun v => sameName name v.name

/-! ### Walking -/

section Walk

variable {d d' : Dir} {p q : Nat} {vs : List Visit}

theorem Dir.lt_next (d : Dir) (p : Nat) : p < d.next p := by
  unfold next
  split <;> omega

theorem Dir.walkLoop_turns (d : Dir) (m n p : Nat) (hm : d.total - p ≤ m) (hn : d.total - p ≤ n) :
    d.walkLoop m p = d.walkLoop n p := by
  induction m generalizing n p with
  | zero =>
    cases n with
    | zero => rfl
    | succ n => rw [walkLoop, walkLoop, if_pos (.inl (by omega))]
  | succ m ih =>
    cases n with
    | zero => rw [walkLoop, walkLoop, if_pos (.inl (by omega))]
    | succ n =>
      have hlt := d.lt_next p
      rw [walkLoop, walkLoop, ih n (d.next p) (by omega) (by omega)]

theorem Dir.walkFrom_end (h : d.total ≤ p ∨ d.type p = 0) : d.walkFrom p = ([], p) := by
  unfold walkFrom
  cases d.total - p with
  | zero => rfl
  | succ n => rw [walkLoop, if_pos h]

theorem Dir.walkFrom_step (hp : p < d.total) (hzero : d.type p ≠ 0) :
    d.walkFrom p = (d.visits p ++ (d.walkFrom (d.next p)).1, (d.walkFrom (d.next p)).2) := by
  have hlt := d.lt_next p
  obtain ⟨n, hn⟩ : ∃ n, d.total - p = n + 1 := ⟨d.total - p - 1, by omega⟩
  have hstop : ¬ (d.total ≤ p ∨ d.type p = 0) := by
    rintro (h | h)
    · omega
    · exact hzero h
  rw [walkFrom, hn, walkLoop, if_neg hstop,
    d.walkLoop_turns n (d.total - d.next p) (d.next p) (by omega) (Nat.le_refl _)]
  rfl

/-- The walk goes from one position to another and meets these sets. -/
inductive Path (d : Dir) : Nat → List Visit → Nat → Prop
  | nil (p : Nat) : Path d p [] p
  | step {p q : Nat} {vs : List Visit} (hp : p < d.total) (hzero : d.type p ≠ 0)
      (h : Path d (d.next p) vs q) : Path d p (d.visits p ++ vs) q

theorem Path.walkFrom (h : Path d p vs q) :
    d.walkFrom p = (vs ++ (d.walkFrom q).1, (d.walkFrom q).2) := by
  induction h with
  | nil p => rfl
  | step hp hzero _ ih => rw [Dir.walkFrom_step hp hzero, ih, List.append_assoc]

theorem Path.le (h : Path d p vs q) : p ≤ q := by
  induction h with
  | nil p => exact Nat.le_refl _
  | @step p q vs _ _ _ ih => exact Nat.le_trans (Nat.le_of_lt (d.lt_next p)) ih

/-- Every walk is a way to its end. -/
theorem Dir.path_end (d : Dir) (p : Nat) : Path d p (d.walkFrom p).1 (d.walkFrom p).2 ∧
    (d.total ≤ (d.walkFrom p).2 ∨ d.type (d.walkFrom p).2 = 0) := by
  induction hn : d.total - p using Nat.strong_induction_on generalizing p with
  | _ n ih =>
    by_cases hstop : d.total ≤ p ∨ d.type p = 0
    · rw [Dir.walkFrom_end hstop]
      exact ⟨.nil p, hstop⟩
    rw [not_or, Nat.not_le] at hstop
    have hlt := d.lt_next p
    rw [Dir.walkFrom_step hstop.1 hstop.2]
    obtain ⟨hpath, hend⟩ := ih (d.total - d.next p) (by omega) (d.next p) rfl
    exact ⟨.step hstop.1 hstop.2 hpath, hend⟩

/-- The end is not behind the directory: a set ends in its cluster. -/
theorem Path.le_total (hcluster : ∀ p < d.total, d.clusterEnd p ≤ d.total)
    (hp : p ≤ d.total) (h : Path d p vs q) : q ≤ d.total := by
  induction h with
  | nil p => exact hp
  | @step p q vs hlt hzero _ ih =>
    refine ih ?_
    unfold Dir.next
    split
    · next hset =>
      simp only [Dir.isSet, Bool.and_eq_true, decide_eq_true_eq] at hset
      exact Nat.le_trans hset.1.2 (hcluster p hlt)
    · exact hlt

/-- The two directories agree before a position at which neither has a stream extension. -/
structure AgreeBelow (d d' : Dir) (q : Nat) : Prop where
  perCluster : d'.perCluster = d.perCluster
  total : q ≤ d'.total
  slots : ∀ p < q, d'.slot p = d.slot p
  stream : d.type q ≠ 0xC0
  stream' : d'.type q ≠ 0xC0

theorem AgreeBelow.isSet (h : AgreeBelow d d' q) (hp : p < q) : d'.isSet p = d.isSet p := by
  have hclusterEnd : d'.clusterEnd p = d.clusterEnd p := by
    unfold Dir.clusterEnd
    rw [h.perCluster]
  unfold Dir.isSet
  rw [Dir.type, h.slots p hp, hclusterEnd, ← Dir.type]
  by_cases hnext : p + 1 < q
  · rw [Dir.type, Dir.type, h.slots _ hnext, ← Dir.type]
    rfl
  have hq : p + 1 = q := by omega
  have hno : (d.type (p + 1) == 0xC0) = false := by
    rw [hq]
    exact beq_false_of_ne h.stream
  have hno' : (d'.type (p + 1) == 0xC0) = false := by
    rw [hq]
    exact beq_false_of_ne h.stream'
  rw [hno, hno', Bool.and_false]

theorem AgreeBelow.next (h : AgreeBelow d d' q) (hp : p < q) : d'.next p = d.next p := by
  unfold Dir.next
  rw [h.isSet hp, h.slots p hp]

/-- A set that ends before the position is read alike. -/
theorem AgreeBelow.visits (h : AgreeBelow d d' q) (hp : d.next p ≤ q) :
    d'.visits p = d.visits p := by
  have hlt := d.lt_next p
  unfold Dir.visits
  rw [h.isSet (by omega)]
  by_cases hset : d.isSet p = true
  · rw [if_pos hset, if_pos hset]
    rw [Dir.next, if_pos hset] at hp
    have hat : ∀ j, j < p + 1 + (d.slot p 1).toNat → d'.slot j = d.slot j := fun j hj =>
      h.slots j (by omega)
    have hsec : d'.slot p = d.slot p := hat p (by omega)
    by_cases hzero : (d.slot p 1).toNat = 0
    · -- without secondary entries the stream extension is behind the set
      have hq : p + 1 < q := by
        rcases Nat.lt_or_ge (p + 1) q with hlt | hge
        · exact hlt
        have : p + 1 = q := by omega
        simp only [Dir.isSet, Bool.and_eq_true, beq_iff_eq] at hset
        rw [this] at hset
        exact absurd hset.2 h.stream
      simp only [Dir.visitAt, Dir.nameAt, hsec, h.slots _ hq, hzero]
      rfl
    have hstream : d'.slot (p + 1) = d.slot (p + 1) := hat _ (by omega)
    have hnames : ((List.range ((d.slot p 1).toNat - 1)).map fun s => d'.slot (p + 2 + s)) =
        (List.range ((d.slot p 1).toNat - 1)).map fun s => d.slot (p + 2 + s) := by
      refine List.map_congr_left fun s hs => hat _ ?_
      have := List.mem_range.1 hs
      omega
    simp only [Dir.visitAt, Dir.nameAt, hsec, hstream, hnames]
  · rw [if_neg hset, if_neg hset]

/-- **A way to a position** depends on the entries before it. -/
theorem Path.of_agreeBelow (h : AgreeBelow d d' q) (hpath : Path d p vs q) :
    Path d' p vs q := by
  induction hpath with
  | nil p => exact .nil p
  | @step p q vs hp hzero hrest ih =>
    have hle := hrest.le
    have hlt := d.lt_next p
    have hpq : p < q := by omega
    have hstep : Path d' p (d'.visits p ++ vs) q := by
      refine .step (Nat.lt_of_lt_of_le hpq h.total) ?_ ?_
      · rw [Dir.type, h.slots p hpq]
        exact hzero
      · rw [h.next hpq]
        exact ih h
    rwa [h.visits hle] at hstep

/-- **The first set that matches**: the way to it, and what comes behind. -/
theorem Dir.lookup_split {name : List UInt8} {v : Visit} (h : d.lookup name = some v) :
    ∃ pre, Path d 0 pre v.pos ∧ v.pos < d.total ∧ d.isSet v.pos = true ∧ v = d.visitAt v.pos ∧
      sameName name v.name = true ∧ (∀ w ∈ pre, sameName name w.name = false) ∧
      d.entries = pre ++ v :: (d.walkFrom (d.next v.pos)).1 := by
  unfold lookup entries at *
  obtain ⟨hpath, hend⟩ := d.path_end 0
  generalize (d.walkFrom 0).1 = all at hpath h
  generalize (d.walkFrom 0).2 = e at hpath hend
  generalize hstart : 0 = s at hpath
  clear hstart
  induction hpath with
  | nil p => cases h
  | @step p q vs hp hzero hrest ih =>
    by_cases hset : d.isSet p = true
    · rw [visits, if_pos hset, List.singleton_append] at h ⊢
      by_cases hsame : sameName name (d.visitAt p).name = true
      · rw [List.find?_cons_of_pos (p := fun v : Visit => sameName name v.name) hsame,
          Option.some.injEq] at h
        subst h
        refine ⟨[], .nil p, hp, hset, rfl, hsame, fun w hw => absurd hw List.not_mem_nil, ?_⟩
        have hwalk := hrest.walkFrom
        rw [Dir.walkFrom_end hend, List.append_nil] at hwalk
        rw [show (d.visitAt p).pos = p from rfl, hwalk]
        rfl
      rw [List.find?_cons_of_neg (p := fun v : Visit => sameName name v.name) hsame] at h
      obtain ⟨pre, hpre, hlt, hset', hv, hname, hnone, hall⟩ := ih h hend
      refine ⟨d.visitAt p :: pre, ?_, hlt, hset', hv, hname, ?_, by rw [hall]; rfl⟩
      · have hpath := Path.step hp hzero hpre
        rwa [visits, if_pos hset] at hpath
      intro w hw
      rcases List.mem_cons.1 hw with rfl | hw
      · exact Bool.eq_false_iff.2 hsame
      · exact hnone w hw
    · rw [visits, if_neg hset, List.nil_append] at h ⊢
      obtain ⟨pre, hpre, hlt, hset', hv, hname, hnone, hall⟩ := ih h hend
      refine ⟨pre, ?_, hlt, hset', hv, hname, hnone, hall⟩
      have hpath := Path.step hp hzero hpre
      rwa [visits, if_neg hset] at hpath

end Walk

end Exfat
