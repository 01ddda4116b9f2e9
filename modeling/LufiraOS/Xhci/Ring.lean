import Mathlib
import LufiraOS.Lib.Run

/-!
# The producer rings of the xHCI driver

A command or transfer ring is a page of 256 TRBs, of which the last is a Link TRB
back to the first.  The driver writes a TRB field by field, the control word with the
cycle bit last; the controller reads the ring at the same time.  A TRB belongs to the
controller when its cycle bit is the controller's cycle state, so both sides turn their
state over once per lap.

A step of the system is one store of the driver or one look of the controller at the
TRB in front of it.  The TRBs of the ring are numbered by the calls that wrote them;
number `n` lies in slot `n % 255` and belongs to lap `n / 255`.
-/

namespace Xhci

open List BitVec

variable {t : Trb} {s : System}

/-- `xhci_trb_t`. -/
structure Trb where
  parameter : BitVec 64
  status : BitVec 32
  control : BitVec 32
  deriving DecidableEq

/-- The cycle bit of a control word. -/
def Trb.cycle (t : Trb) : Bool := t.control.getLsbD 0

/-- The type of a Link TRB. -/
def Trb.isLink (t : Trb) : Bool := (t.control >>> 10) &&& 0x3F#32 = 6#32

/-- `TRB_CONTROL_TC`. -/
def Trb.toggleCycle (t : Trb) : Bool := t.control.getLsbD 1

/-- `cycle_state & TRB_CONTROL_CYCLE`. -/
def cycleWord (c : Bool) : BitVec 32 := if c then 1#32 else 0#32

/-- The control word of the Link TRB: `TRB_TYPE_LINK`, `TRB_CONTROL_TC` and the cycle bit. -/
def linkControl (c : Bool) : BitVec 32 := (6#32 <<< 10) ||| 2#32 ||| cycleWord c

/-- `xhci_ring_t` of a ring that is no event ring. -/
structure Ring where
  trbs : Nat → Trb
  phys : BitVec 64
  enqueueIndex : Nat
  cycleState : Bool

/-- `xhci_ring_init`, with the page the allocator answered. -/
def ringInit (phys : BitVec 64) : Ring where
  trbs := fun i => if i = 255 then ⟨phys, 0, linkControl true⟩ else ⟨0, 0, 0⟩
  phys := phys
  enqueueIndex := 0
  cycleState := true

def Ring.put (r : Ring) (i : Nat) (t : Trb) : Ring :=
  { r with trbs := fun j => if j = i then t else r.trbs j }

/-- Where `xhci_ring_enqueue` is: between two calls, or in front of one of its stores. -/
inductive Pc where
  | idle
  | parameter (t : Trb)
  | status (t : Trb)
  | control (t : Trb)
  | link

/-- The ring, the call in progress, the controller's place in the ring, and what has passed:
the TRBs of all calls, those whose control word is written, and those the controller took. -/
structure System where
  ring : Ring
  pc : Pc
  index : Nat
  cycle : Bool
  calls : List Trb
  published : List Trb
  seen : List Trb

def System.init (phys : BitVec 64) : System :=
  ⟨ringInit phys, .idle, 0, true, [], [], []⟩

/-- One store of `xhci_ring_enqueue`.  The index is advanced with the store of the control word;
on the last slot the Link TRB gets the cycle bit of the lap that ends, and the state turns over. -/
def System.produce (s : System) : System :=
  let slot := s.ring.trbs s.ring.enqueueIndex
  match s.pc with
  | .idle => s
  | .parameter t =>
    { s with
      ring := s.ring.put s.ring.enqueueIndex { slot with parameter := t.parameter }
      pc := .status t }
  | .status t =>
    { s with
      ring := s.ring.put s.ring.enqueueIndex { slot with status := t.status }
      pc := .control t }
  | .control t =>
    { s with
      ring := { s.ring.put s.ring.enqueueIndex
          { slot with control := t.control ||| cycleWord s.ring.cycleState } with
        enqueueIndex := s.ring.enqueueIndex + 1 }
      pc := if 255 ≤ s.ring.enqueueIndex + 1 then .link else .idle
      published := s.published ++ [t] }
  | .link =>
    { s with
      ring := { s.ring.put 255
          { s.ring.trbs 255 with control := linkControl s.ring.cycleState } with
        enqueueIndex := 0
        cycleState := !s.ring.cycleState }
      pc := .idle }

/-- One look of the controller: it takes a TRB with its cycle state and goes on to the next; it
follows the Link TRB, and turns its state over when that says so.  The Link TRB is the one in slot
255, which by its type it is as well: `isLink_iff_index`. -/
def System.consume (s : System) : System :=
  let t := s.ring.trbs s.index
  if t.cycle = s.cycle then
    if s.index = 255 then
      { s with
        index := (t.parameter - s.ring.phys).toNat / 16
        cycle := if t.toggleCycle then !s.cycle else s.cycle }
    else { s with index := s.index + 1, seen := s.seen ++ [t] }
  else s

inductive Step where
  /-- The driver calls `xhci_ring_enqueue`. -/
  | call (t : Trb)
  | produce
  | consume

def System.step (s : System) : Step → System
  | .call t => { s with pc := .parameter t, calls := s.calls ++ [t] }
  | .produce => s.produce
  | .consume => s.consume

/-- A call is made when the one before it is over, with a clear cycle bit, and leaves at most 254
TRBs that the controller has not taken. -/
def System.Allowed (s : System) : Step → Prop
  | .call t => s.pc = .idle ∧ t.cycle = false ∧ s.calls.length + 1 ≤ s.seen.length + 254
  | _ => True

/-! ### Control words -/

/-- The TRB as it was passed: the cycle bit is taken off. -/
def Trb.passed (t : Trb) : Trb := { t with control := t.control &&& ~~~1#32 }

/-- The TRB as it stands in the ring. -/
def Trb.tagged (t : Trb) (c : Bool) : Trb := { t with control := t.control ||| cycleWord c }

theorem cycle_tagged (ht : t.cycle = false) (c : Bool) : (t.tagged c).cycle = c := by
  unfold Trb.cycle at ht
  show (t.control ||| cycleWord c).getLsbD 0 = c
  rw [getLsbD_or, ht]
  cases c <;> rfl

theorem getLsbD_cycleWord (c : Bool) {i : Nat} (hi : i ≠ 0) : (cycleWord c).getLsbD i = false := by
  cases c
  · exact getLsbD_zero
  · exact getLsbD_one.trans (by simp [hi])

theorem passed_tagged (ht : t.cycle = false) (c : Bool) : (t.tagged c).passed = t := by
  unfold Trb.cycle at ht
  have hcontrol : (t.control ||| cycleWord c) &&& ~~~1#32 = t.control := by
    refine eq_of_getLsbD_eq fun i hi => ?_
    rw [getLsbD_and, getLsbD_or, getLsbD_not, getLsbD_one]
    by_cases h0 : i = 0
    · subst h0
      rw [ht]
      simp
    · rw [getLsbD_cycleWord c h0]
      simp [hi, h0]
  unfold Trb.tagged Trb.passed
  rw [hcontrol]

@[simp] theorem cycle_linkControl (p : BitVec 64) (st : BitVec 32) (c : Bool) :
    (Trb.mk p st (linkControl c)).cycle = c := by
  have hbit : (linkControl c).getLsbD 0 = c := by cases c <;> rfl
  exact hbit

@[simp] theorem toggleCycle_linkControl (p : BitVec 64) (st : BitVec 32) (c : Bool) :
    (Trb.mk p st (linkControl c)).toggleCycle = true := by
  have hbit : (linkControl c).getLsbD 1 = true := by cases c <;> rfl
  exact hbit

/-! ### The invariant -/

/-- The cycle bit of lap `n`. -/
def lapBit (n : Nat) : Bool := n % 2 == 0

theorem lapBit_succ (n : Nat) : lapBit (n + 1) = !lapBit n := by
  unfold lapBit
  rcases Nat.mod_two_eq_zero_or_one n with h | h <;> simp [Nat.add_mod, h]

/-- The call in progress has not written its control word. -/
def Pc.pending : Pc → List Trb
  | .idle => []
  | .parameter t => [t]
  | .status t => [t]
  | .control t => [t]
  | .link => []

/-- How often the Link TRB has been written. -/
def System.wraps (s : System) : Nat :=
  match s.pc with
  | .link => s.published.length / 255 - 1
  | _ => s.published.length / 255

/-- What the driver has written of the call in progress. -/
def System.Written (s : System) : Prop :=
  let slot := s.ring.trbs (s.published.length % 255)
  match s.pc with
  | .status t => slot.parameter = t.parameter
  | .control t => slot.parameter = t.parameter ∧ slot.status = t.status
  | _ => True

structure System.Inv (s : System) : Prop where
  calls : s.calls = s.published ++ s.pc.pending
  clear : ∀ t ∈ s.calls, t.cycle = false
  room : s.calls.length ≤ s.seen.length + 254
  -- the driver's side
  producer : match s.pc with
    | .link => s.ring.enqueueIndex = 255 ∧ s.published.length % 255 = 0 ∧
        0 < s.published.length ∧ s.ring.cycleState = lapBit (s.published.length / 255 - 1)
    | _ => s.ring.enqueueIndex = s.published.length % 255 ∧
        s.ring.cycleState = lapBit (s.published.length / 255)
  written : s.Written
  -- the slots: the last lap, the slot that is written next, and those never written
  cell : ∀ n (h : n < s.published.length), s.published.length < n + 255 →
    s.ring.trbs (n % 255) = s.published[n].tagged (lapBit (n / 255))
  stale : ∀ n < s.published.length, s.published.length = n + 255 →
    (s.ring.trbs (n % 255)).cycle = lapBit (n / 255)
  fresh : ∀ i < 255, s.published.length ≤ i → (s.ring.trbs i).cycle = false
  link : s.ring.trbs 255 = ⟨s.ring.phys, 0, linkControl (lapBit (s.wraps - 1))⟩
  -- the controller's side
  seen : s.seen.length ≤ s.published.length ∧
    s.seen.map Trb.passed = s.published.take s.seen.length
  consumer : s.index = s.seen.length % 255 ∧ s.cycle = lapBit (s.seen.length / 255) ∨
    s.index = 255 ∧ 0 < s.seen.length ∧ s.seen.length % 255 = 0 ∧
      s.cycle = lapBit (s.seen.length / 255 - 1)

theorem inv_init (phys : BitVec 64) : (System.init phys).Inv where
  calls := rfl
  clear := by simp [System.init]
  room := by simp [System.init]
  producer := ⟨rfl, by simp [System.init, ringInit, lapBit]⟩
  written := trivial
  cell n h := by simp [System.init] at h
  stale n h := by simp [System.init] at h
  fresh i hi _ := by
    have hne : i ≠ 255 := by omega
    show Trb.cycle (if i = 255 then _ else _) = false
    rw [if_neg hne]
    decide
  link := by simp [System.init, ringInit, System.wraps, lapBit]
  seen := ⟨Nat.le_refl _, rfl⟩
  consumer := .inl ⟨rfl, by simp [System.init, lapBit]⟩

@[simp] theorem put_trbs_self (r : Ring) (i : Nat) (t : Trb) : (r.put i t).trbs i = t := by
  simp [Ring.put]

theorem put_trbs_of_ne (r : Ring) {i j : Nat} (t : Trb) (h : j ≠ i) :
    (r.put i t).trbs j = r.trbs j := by
  simp [Ring.put, h]

/-- Two TRBs of one lap's distance or less lie in different slots. -/
theorem slot_ne {m n : Nat} (hmn : m < n) (hn : n < m + 255) : m % 255 ≠ n % 255 := by omega

/-! ### The controller's step -/

section

variable (hs : s.Inv)

include hs

theorem published_le : s.published.length ≤ s.calls.length := by
  rw [hs.calls, length_append]
  exact Nat.le_add_right _ _

theorem clear_published {n : Nat} (h : n < s.published.length) : s.published[n].cycle = false := by
  refine hs.clear _ ?_
  rw [hs.calls]
  exact mem_append_left _ (getElem_mem h)

/-- With a written TRB in front of it the controller takes that one. -/
theorem consume_of_lt (h : s.seen.length < s.published.length)
    (hindex : s.index = s.seen.length % 255) (hcycle : s.cycle = lapBit (s.seen.length / 255)) :
    s.consume = { s with
      index := s.index + 1
      seen := s.seen ++ [s.published[s.seen.length].tagged (lapBit (s.seen.length / 255))] } := by
  have hroom := hs.room
  have hlen := published_le hs
  have hcell := hs.cell s.seen.length h (by omega)
  have hmatch : (s.ring.trbs s.index).cycle = s.cycle := by
    rw [hindex, hcell, cycle_tagged (clear_published hs h), hcycle]
  have hslot : s.index ≠ 255 := by omega
  simp only [System.consume]
  rw [if_pos hmatch, if_neg hslot, hindex, hcell]

/-- In front of the slot that is written next the controller waits. -/
theorem consume_of_eq (h : s.seen.length = s.published.length)
    (hindex : s.index = s.seen.length % 255) (hcycle : s.cycle = lapBit (s.seen.length / 255)) :
    s.consume = s := by
  have hmiss : (s.ring.trbs s.index).cycle ≠ s.cycle := by
    rw [hindex, hcycle]
    by_cases hlap : s.published.length < 255
    · -- the first lap has not come to this slot
      have hmod : s.seen.length % 255 = s.published.length := by omega
      have hdiv : s.seen.length / 255 = 0 := by omega
      rw [hmod, hs.fresh _ hlap (Nat.le_refl _), hdiv]
      decide
    -- the slot holds the TRB of the lap before
    have hold := hs.stale (s.published.length - 255) (by omega) (by omega)
    have hmod : s.seen.length % 255 = (s.published.length - 255) % 255 := by omega
    have hdiv : s.seen.length / 255 = (s.published.length - 255) / 255 + 1 := by omega
    rw [hmod, hold, hdiv, lapBit_succ]
    simp
  simp only [System.consume]
  rw [if_neg hmiss]

/-- On the Link TRB the controller follows it, or waits when nothing lies behind it. -/
theorem consume_of_link (hindex : s.index = 255)
    (hpos : 0 < s.seen.length) (hmod : s.seen.length % 255 = 0)
    (hcycle : s.cycle = lapBit (s.seen.length / 255 - 1)) :
    s.consume = { s with index := 0, cycle := lapBit (s.seen.length / 255) } ∨
      s.consume = s ∧ s.seen.length = s.published.length := by
  have hback : s.seen.length / 255 = s.seen.length / 255 - 1 + 1 := by omega
  by_cases hmatch : (s.ring.trbs s.index).cycle = s.cycle
  · left
    simp only [System.consume]
    rw [if_pos hmatch, if_pos hindex, hindex, hs.link, toggleCycle_linkControl, if_pos rfl,
      sub_self, hcycle, hback, lapBit_succ]
    rfl
  right
  have hwait : s.consume = s := by
    simp only [System.consume]
    rw [if_neg hmatch]
  refine ⟨hwait, ?_⟩
  -- with a TRB of the next lap written, the Link TRB has this lap's bit
  by_contra hne
  apply hmatch
  have hle := hs.seen.1
  have hroom := hs.room
  have hlen := published_le hs
  have hwraps : s.wraps = s.seen.length / 255 := by
    have hproducer := hs.producer
    unfold System.wraps
    cases hpc : s.pc with
    | link =>
      rw [hpc] at hproducer
      omega
    | _ => dsimp only; omega
  rw [hindex, hs.link, cycle_linkControl, hcycle, hwraps]

theorem inv_consume : s.consume.Inv := by
  obtain ⟨hle, hseen⟩ := hs.seen
  rcases hs.consumer with ⟨hindex, hcycle⟩ | ⟨hindex, hpos, hmod, hcycle⟩
  · by_cases h : s.seen.length < s.published.length
    · rw [consume_of_lt hs h hindex hcycle]
      refine { hs with room := ?_, seen := ⟨?_, ?_⟩, consumer := ?_ }
      · have hroom := hs.room
        simp only [length_append, length_singleton]
        omega
      · simp only [length_append, length_singleton]
        omega
      · simp only [map_append, map_cons, map_nil, length_append,
          length_singleton, hseen, passed_tagged (clear_published hs h)]
        exact take_append_getElem h
      dsimp only
      rw [length_append, length_singleton, hindex, hcycle]
      by_cases hlast : s.seen.length % 255 = 254
      · right
        refine ⟨by omega, by omega, by omega, ?_⟩
        congr 1
        omega
      left
      refine ⟨by omega, ?_⟩
      congr 1
      omega
    · rw [consume_of_eq hs (by omega) hindex hcycle]
      exact hs
  · rcases consume_of_link hs hindex hpos hmod hcycle with heq | ⟨heq, -⟩
    · rw [heq]
      exact { hs with consumer := .inl ⟨hmod.symm, rfl⟩ }
    · rw [heq]
      exact hs

/-! ### The driver's steps -/

theorem inv_call (hok : s.Allowed (.call t)) : (s.step (.call t)).Inv := by
  obtain ⟨hidle, hclear, hroom⟩ := hok
  have hcalls : s.calls = s.published := by
    have h := hs.calls
    rw [hidle] at h
    exact h.trans (append_nil _)
  have hproducer := hs.producer
  have hlink := hs.link
  unfold System.wraps at hlink
  rw [hidle] at hproducer hlink
  refine { hs with
    calls := ?_, clear := ?_, room := ?_, producer := hproducer, written := trivial, link := hlink }
  · show s.calls ++ [t] = s.published ++ [t]
    rw [hcalls]
  · intro t' ht'
    rcases mem_append.1 ht' with h | h
    · exact hs.clear t' h
    · rw [mem_singleton.1 h]
      exact hclear
  · show (s.calls ++ [t]).length ≤ s.seen.length + 254
    rw [length_append, length_singleton]
    exact hroom

/-- A store to the slot that is written next that leaves its control word alone keeps the slots of
the last lap and every cycle bit. -/
theorem inv_fill {pc : Pc} {slot : Trb} (hindex : s.ring.enqueueIndex = s.published.length % 255)
    (hstate : s.ring.cycleState = lapBit (s.published.length / 255))
    (hcontrol : slot.control = (s.ring.trbs (s.published.length % 255)).control)
    (hpc : pc ≠ .link) (hold : s.pc ≠ .link) (hpending : pc.pending = s.pc.pending)
    (hwritten : System.Written
      { s with ring := s.ring.put (s.published.length % 255) slot, pc := pc }) :
    System.Inv { s with ring := s.ring.put (s.published.length % 255) slot, pc := pc } := by
  have hcycle : ∀ i, ((s.ring.put (s.published.length % 255) slot).trbs i).cycle =
      (s.ring.trbs i).cycle := by
    intro i
    by_cases hi : i = s.published.length % 255
    · subst hi
      rw [put_trbs_self]
      unfold Trb.cycle
      rw [hcontrol]
    · rw [put_trbs_of_ne _ _ hi]
  have hwraps : ∀ {r : Ring} {q : Pc}, q ≠ .link →
      System.wraps { s with ring := r, pc := q } = s.published.length / 255 := by
    intro r q hq
    cases q with
    | link => exact absurd rfl hq
    | _ => rfl
  refine { hs with
    calls := ?_, producer := ?_, written := hwritten, cell := ?_, stale := ?_, fresh := ?_,
    link := ?_ }
  · rw [hpending]
    exact hs.calls
  · cases pc with
    | link => exact absurd rfl hpc
    | _ => exact ⟨hindex, hstate⟩
  · intro n hn hlap
    rw [put_trbs_of_ne _ _ (slot_ne hn hlap)]
    exact hs.cell n hn hlap
  · intro n hn hlap
    exact (hcycle _).trans (hs.stale n hn hlap)
  · intro i hi hlap
    exact (hcycle _).trans (hs.fresh i hi hlap)
  · have hne : 255 ≠ s.published.length % 255 := by omega
    have hlink := hs.link
    rw [show s.wraps = _ from hwraps hold] at hlink
    rw [put_trbs_of_ne _ _ hne, hwraps hpc]
    exact hlink

/-- The store of the control word hands the TRB over. -/
theorem inv_publish (hpc : s.pc = .control t) : s.produce.Inv := by
  have hproducer := hs.producer
  have hwritten := hs.written
  have hlink := hs.link
  have hcalls := hs.calls
  unfold System.Written at hwritten
  unfold System.wraps at hlink
  rw [hpc] at hproducer hwritten hlink hcalls
  obtain ⟨hindex, hstate⟩ := hproducer
  obtain ⟨hparameter, hstatus⟩ := hwritten
  have hslot : { s.ring.trbs (s.published.length % 255) with
      control := t.control ||| cycleWord s.ring.cycleState } =
      t.tagged (lapBit (s.published.length / 255)) := by
    dsimp only
    rw [hstate, hparameter, hstatus]
    rfl
  have hlen : (s.published ++ [t]).length = s.published.length + 1 := by simp
  have hput : ∀ i x, (s.ring.put i x).cycleState = s.ring.cycleState := fun _ _ => rfl
  unfold System.produce
  rw [hpc]
  dsimp only
  rw [hindex, hslot]
  refine { hs with
    calls := ?_, producer := ?_, written := ?_, cell := ?_, stale := ?_, fresh := ?_, link := ?_,
    seen := ?_ }
  · rw [hcalls]
    split <;> exact (append_nil _).symm
  · dsimp only
    rw [hlen, hput, hstate]
    by_cases hlast : 255 ≤ s.published.length % 255 + 1
    · rw [if_pos hlast]
      refine ⟨by omega, by omega, by omega, ?_⟩
      congr 1
      omega
    rw [if_neg hlast]
    refine ⟨by omega, ?_⟩
    congr 1
    omega
  · unfold System.Written
    by_cases hlast : 255 ≤ s.published.length % 255 + 1
    · simp only [if_pos hlast]
    · simp only [if_neg hlast]
  · intro n hn hlap
    rw [hlen] at hn hlap
    by_cases hnew : n = s.published.length
    · subst hnew
      rw [put_trbs_self, getElem_concat_length rfl]
    have hn' : n < s.published.length := by omega
    rw [put_trbs_of_ne _ _ (slot_ne hn' (by omega)), getElem_append_left hn']
    exact hs.cell n hn' (by omega)
  · intro n hn hlap
    rw [hlen] at hn hlap
    have hn' : n < s.published.length := by omega
    rw [put_trbs_of_ne _ _ (slot_ne hn' (by omega)), hs.cell n hn' (by omega),
      cycle_tagged (clear_published hs hn')]
  · intro i hi hlap
    rw [hlen] at hlap
    rw [put_trbs_of_ne _ _ (by omega)]
    exact hs.fresh i hi (by omega)
  · unfold System.wraps
    rw [put_trbs_of_ne _ _ (by omega), hlink, hlen]
    by_cases hlast : 255 ≤ s.published.length % 255 + 1
    · have hdiv : (s.published.length + 1) / 255 - 1 = s.published.length / 255 := by omega
      simp only [if_pos hlast, hdiv]
      rfl
    have hdiv : (s.published.length + 1) / 255 = s.published.length / 255 := by omega
    simp only [if_neg hlast, hdiv]
    rfl
  · obtain ⟨hle, hseen⟩ := hs.seen
    dsimp only
    rw [hlen, take_append_of_le_length hle]
    exact ⟨by omega, hseen⟩

/-- The store of the Link TRB ends the lap. -/
theorem inv_wrap (hpc : s.pc = .link) : s.produce.Inv := by
  have hproducer := hs.producer
  have hlink := hs.link
  have hcalls := hs.calls
  rw [hpc] at hproducer hcalls
  obtain ⟨-, hmod, hpos, hstate⟩ := hproducer
  have hback : s.published.length / 255 = s.published.length / 255 - 1 + 1 := by omega
  unfold System.produce
  rw [hpc]
  refine { hs with
    calls := hcalls, producer := ⟨hmod.symm, ?_⟩, written := trivial, cell := ?_, stale := ?_,
    fresh := ?_, link := ?_ }
  · rw [hstate, hback, lapBit_succ]
    rfl
  · intro n hn hlap
    rw [put_trbs_of_ne _ _ (by omega)]
    exact hs.cell n hn hlap
  · intro n hn hlap
    rw [put_trbs_of_ne _ _ (by omega)]
    exact hs.stale n hn hlap
  · intro i hi hlap
    rw [put_trbs_of_ne _ _ (by omega)]
    exact hs.fresh i hi hlap
  · rw [put_trbs_self, hlink, hstate]
    rfl

theorem inv_produce : s.produce.Inv := by
  have hproducer := hs.producer
  have hwritten := hs.written
  unfold System.Written at hwritten
  cases hpc : s.pc with
  | idle =>
    have hidle : s.produce = s := by simp only [System.produce, hpc]
    rw [hidle]
    exact hs
  | parameter t | status t =>
    rw [hpc] at hproducer hwritten
    unfold System.produce
    rw [hpc]
    rw [hproducer.1]
    refine inv_fill hs hproducer.1 hproducer.2 rfl (by simp) (by simp [hpc]) (by rw [hpc]; rfl) ?_
    simp [System.Written, hwritten]
  | control t => exact inv_publish hs hpc
  | link => exact inv_wrap hs hpc

theorem inv_step {e : Step} (hok : s.Allowed e) : (s.step e).Inv := by
  cases e with
  | call t => exact inv_call hs hok
  | produce => exact inv_produce hs
  | consume => exact inv_consume hs

end

theorem inv_run {phys : BitVec 64} {steps : List Step}
    (hsteps : Run.Meets System.step System.Allowed (System.init phys) steps) :
    (Run.run System.step (System.init phys) steps).Inv :=
  hsteps.invariant (fun _ _ hs hok => inv_step hs hok) (inv_init phys)

/-! ### What the controller sees -/

/-- With a written TRB ahead the controller takes it, at once or after the Link TRB. -/
theorem consume_progress (hs : s.Inv) (h : s.seen.length < s.published.length) :
    s.consume.seen.length = s.seen.length + 1 ∨
      s.consume.consume.seen.length = s.seen.length + 1 := by
  rcases hs.consumer with ⟨hindex, hcycle⟩ | ⟨hindex, hpos, hmod, hcycle⟩
  · left
    rw [consume_of_lt hs h hindex hcycle]
    simp
  right
  rcases consume_of_link hs hindex hpos hmod hcycle with heq | ⟨-, hnone⟩
  · have hnext : s.consume.Inv := inv_consume hs
    rw [heq] at hnext ⊢
    rw [consume_of_lt hnext h hmod.symm rfl]
    simp
  · omega

/-- **The ring carries every TRB once and in order.**  In every interleaving of the calls with the
controller the TRBs it has taken are the first of those passed, unchanged but for the cycle bit;
and while the calls are ahead of it, between two calls, it goes on. -/
theorem ring_delivers (phys : BitVec 64) (steps : List Step)
    (hsteps : Run.Meets System.step System.Allowed (System.init phys) steps) :
    let s := Run.run System.step (System.init phys) steps
    s.seen.map Trb.passed <+: s.calls ∧
      (s.pc = .idle → s.published = s.calls) ∧
      (s.seen.length < s.published.length →
        s.consume.seen.length = s.seen.length + 1 ∨
          s.consume.consume.seen.length = s.seen.length + 1) := by
  intro s
  have hs : s.Inv := inv_run hsteps
  refine ⟨?_, ?_, consume_progress hs⟩
  · rw [hs.seen.2, hs.calls]
    exact (List.take_prefix _ _).trans (prefix_append _ _)
  intro hidle
  rw [hs.calls, hidle]
  exact (append_nil _).symm

/-! ### The Link TRB -/

theorem isLink_tagged (t : Trb) (c : Bool) : (t.tagged c).isLink = t.isLink := by
  have htype : (t.control ||| cycleWord c) >>> 10 = t.control >>> 10 := by
    refine eq_of_getLsbD_eq fun i _ => ?_
    rw [getLsbD_ushiftRight, getLsbD_ushiftRight, getLsbD_or, getLsbD_cycleWord c (by omega),
      Bool.or_false]
  show decide ((t.control ||| cycleWord c) >>> 10 &&& 0x3F#32 = 6#32) = _
  rw [htype]
  rfl

/-- **A TRB that the controller takes is a Link TRB exactly in slot 255**, if no call passes one. -/
theorem isLink_iff_index (hs : s.Inv) (hcalls : ∀ t ∈ s.calls, t.isLink = false)
    (htake : (s.ring.trbs s.index).cycle = s.cycle) :
    (s.ring.trbs s.index).isLink = true ↔ s.index = 255 := by
  rcases hs.consumer with ⟨hindex, hcycle⟩ | ⟨hindex, -⟩
  · have hslot : s.index ≠ 255 := by omega
    refine iff_of_false ?_ hslot
    have hlt : s.seen.length < s.published.length := by
      refine Nat.lt_of_le_of_ne hs.seen.1 fun heq => ?_
      have hwaits := congrArg System.index (consume_of_eq hs heq hindex hcycle)
      simp only [System.consume, if_pos htake, if_neg hslot] at hwaits
      omega
    have hroom := hs.room
    have hlen := published_le hs
    rw [hindex, hs.cell s.seen.length hlt (by omega), isLink_tagged, hcalls]
    · simp
    · rw [hs.calls]
      exact mem_append_left _ (getElem_mem hlt)
  · refine iff_of_true ?_ hindex
    rw [hindex, hs.link]
    have htype : ∀ c, linkControl c >>> 10 &&& 0x3F#32 = 6#32 := by decide
    exact decide_eq_true (htype _)

instance (s : System) (e : Step) : Decidable (s.Allowed e) :=
  match e with
  | .call _ =>
    have : Decidable (s.pc = .idle) := match s.pc with
      | .idle => isTrue rfl
      | .parameter _ | .status _ | .control _ | .link => isFalse nofun
    inferInstanceAs (Decidable (_ ∧ _ ∧ _))
  | .produce | .consume => isTrue trivial

/-- A TRB is enqueued, and the controller looks at the ring. -/
def enqueued (i : Nat) : List Step :=
  [.call ⟨BitVec.ofNat 64 i, 1, 0x400⟩, .produce, .produce, .produce, .consume]

/-- A lap of the ring, the Link TRB and one TRB of the next lap. -/
def lap : List Step := (List.range 255).flatMap enqueued ++ [.produce, .consume] ++ enqueued 255

set_option maxRecDepth 20000 in
/-- The controller has followed the Link TRB and taken all. -/
theorem ring_delivers_lap :
    let s := Run.run System.step (System.init 0x1000) lap
    s.seen.map Trb.passed <+: s.calls ∧ s.seen.length = 256 := by
  have hsteps : Run.Meets System.step System.Allowed (System.init 0x1000) lap := by decide +kernel
  exact ⟨(ring_delivers 0x1000 lap hsteps).1, by decide +kernel⟩

end Xhci
