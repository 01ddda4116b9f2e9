import Mathlib
import LufiraOS.Lib.Run

/-!
# The completion queues of the NVMe driver

The driver has an admin queue pair and an I/O queue pair of depth 2.  A call rings the
doorbell for one command and then polls the completion entry at its head until the phase
tag of that entry is the one it expects.  The controller runs beside it: between any two
polls it may post completions of commands it was given, on either pair, as long as the
completion queue has room.  Its phase tag starts at 1 and turns over with each lap.

The driver starts with the tag 0 on a zeroed queue.  So the first poll of a pair either
takes an entry that was never posted, or finds the first completion already there and
waits for a tag that entry will never get.
-/

namespace Nvme

variable {p : Pair} {q r : QueueId} {s : State}

inductive QueueId where
  | admin
  | io
  deriving DecidableEq

/-- `nvme_cmd_t`: sixteen words, which the queues only hand on. -/
abbrev Cmd := Fin 16 → UInt32

/-- `nvme_cqe_t`: the word with status and phase tag, and which completion the entry is, if the
controller wrote it. -/
structure Cqe where
  statusPhase : Nat
  number : Option Nat

/-- A completion: of which command (counted from 0 on its pair), and its status field. -/
structure Completion where
  command : Nat
  status : Nat
  deriving DecidableEq

/-- A queue pair.  `doorbell` is the head the driver has written; `submitted`, `posted` and
`consumed` are what has passed. -/
structure Pair where
  sq : Nat → Cmd
  sqTail : Nat
  cq : Nat → Cqe
  cqHead : Nat
  phase : Nat
  doorbell : Nat
  submitted : List Cmd
  posted : List Completion
  consumed : List (Option Nat)

/-- A pair as `nvme_init` leaves it: pages of zeros, all indices and the phase 0. -/
def Pair.init : Pair where
  sq := fun _ _ => 0
  sqTail := 0
  cq := fun _ => ⟨0, none⟩
  cqHead := 0
  phase := 0
  doorbell := 0
  submitted := []
  posted := []
  consumed := []

/-- `NVME_ADMIN_QDEPTH` and `NVME_IO_QDEPTH`. -/
def queueDepth : Nat := 2

/-- The controller's phase tag for its `n`-th completion. -/
def phaseTag (n : Nat) : Nat := if n / queueDepth % 2 = 0 then 1 else 0

/-- The controller may post: the command was given to it and is not complete, and the entry after
the next is not the head the driver last reported. -/
def Pair.canPost (p : Pair) (c : Completion) : Prop :=
  c.command < p.submitted.length ∧ c.command ∉ p.posted.map Completion.command ∧
    (p.posted.length + 1) % queueDepth ≠ p.doorbell

instance (p : Pair) (c : Completion) : Decidable (p.canPost c) := by
  unfold Pair.canPost
  infer_instance

def Pair.post (p : Pair) (c : Completion) : Pair :=
  if p.canPost c then
    { p with
      cq := fun i => if i = p.posted.length % queueDepth then
        ⟨2 * c.status + phaseTag p.posted.length, some p.posted.length⟩ else p.cq i
      posted := p.posted ++ [c] }
  else p

/-- `submit_cmd`. -/
def Pair.submitCmd (p : Pair) (cmd : Cmd) : Pair :=
  let tail := p.sqTail + 1
  { p with
    sq := fun i => if i = p.sqTail then cmd else p.sq i
    sqTail := if tail = queueDepth then 0 else tail
    submitted := p.submitted ++ [cmd] }

/-- The part of `wait_completion` that takes the entry at the head and reports the new head. -/
def Pair.take (p : Pair) : Pair :=
  let head := p.cqHead + 1
  let wrapped := head = queueDepth
  { p with
    cqHead := if wrapped then 0 else head
    phase := if wrapped then p.phase ^^^ 1 else p.phase
    doorbell := if wrapped then 0 else head
    consumed := p.consumed ++ [(p.cq p.cqHead).number] }

/-- How a call ended: its pair, the number of its command there, the value returned, and whether the
controller had by then posted that command's completion with status 0. -/
structure Return where
  queue : QueueId
  command : Nat
  value : Int
  completed : Bool

structure State where
  pairs : QueueId → Pair
  log : List Return

def State.init : State := ⟨fun _ => Pair.init, []⟩

def State.set (s : State) (q : QueueId) (p : Pair) : State :=
  { s with pairs := fun r => if r = q then p else s.pairs r }

/-- What the controller does in one moment: it posts some completions. -/
abbrev Moment := List (QueueId × Completion)

def State.post (s : State) (x : QueueId × Completion) : State :=
  s.set x.1 ((s.pairs x.1).post x.2)

def State.posts (s : State) (m : Moment) : State := m.foldl State.post s

/-- A polling loop of `wait_completion` with `n` rounds left; `i` polls are over.  The controller
acts before each poll.  The result is the answer, if a poll matched. -/
def spin (q : QueueId) (controller : Nat → Moment) : Nat → Nat → State → State × Option Int
  | 0, _, s => (s, none)
  | n + 1, i, s =>
    let s := s.posts (controller i)
    let p := s.pairs q
    let sp := (p.cq p.cqHead).statusPhase
    if sp % 2 = p.phase then (s.set q p.take, some (if sp / 2 = 0 then 0 else -1))
    else spin q controller n (i + 1) s

/-- `wait_completion`: `NVME_WAIT_FAST_SPIN_ITERS` polls, then `NVME_WAIT_SLOW_TIMEOUT_MS` more. -/
def waitCompletion (q : QueueId) (controller : Nat → Moment) (s : State) : State × Int :=
  match spin q controller 200000 0 s with
  | (s, some r) => (s, r)
  | (s, none) =>
    match spin q controller 2000 200000 s with
    | (s, some r) => (s, r)
    | (s, none) => (s, -1)

/-- A call of `admin_command` or `io_command`, with what the controller does before each poll. -/
structure Call where
  queue : QueueId
  cmd : Cmd
  controller : Nat → Moment

/-- `admin_command` and `io_command`. -/
def command (s : State) (c : Call) : State :=
  let number := (s.pairs c.queue).submitted.length
  let (s, value) :=
    waitCompletion c.queue c.controller (s.set c.queue ((s.pairs c.queue).submitCmd c.cmd))
  { s with log := s.log ++ [⟨c.queue, number, value,
      decide (Completion.mk number 0 ∈ (s.pairs c.queue).posted)⟩] }

/-- A call that answered 0 did so after its completion was posted with status 0, and every posted
completion was taken once. -/
def State.Sound (s : State) : Prop :=
  (∀ r ∈ s.log, r.value = 0 → r.completed = true) ∧
    ∀ q, ∀ n < (s.pairs q).posted.length, (s.pairs q).consumed.count (some n) = 1

/-! ### One pair -/

/-- Nothing has been posted or taken on the pair. -/
structure Pair.Fresh (p : Pair) : Prop where
  cq : p.cq 0 = ⟨0, none⟩
  cqHead : p.cqHead = 0
  phase : p.phase = 0
  doorbell : p.doorbell = 0
  posted : p.posted = []
  consumed : p.consumed = []

/-- The first completion is in the entry at the head, the driver waits for the other tag, and the
queue is full. -/
structure Pair.Stuck (p : Pair) : Prop where
  cq : (p.cq 0).statusPhase % 2 = 1
  cqHead : p.cqHead = 0
  phase : p.phase = 0
  doorbell : p.doorbell = 0
  posted : p.posted.length = 1
  consumed : p.consumed = []

theorem fresh_init : Pair.init.Fresh := ⟨rfl, rfl, rfl, rfl, rfl, rfl⟩

theorem Pair.Fresh.post (hp : p.Fresh) (c : Completion) : (p.post c).Fresh ∨ (p.post c).Stuck := by
  unfold Pair.post
  split
  · right
    have hlen : p.posted.length = 0 := by rw [hp.posted]; rfl
    refine ⟨?_, hp.cqHead, hp.phase, hp.doorbell, ?_, hp.consumed⟩
    · simp only [hlen, queueDepth, Nat.zero_mod, if_pos, phaseTag]
      simp
    · simp [hlen]
  · exact .inl hp

/-- A full queue keeps the controller from posting. -/
theorem Pair.Stuck.post (hp : p.Stuck) (c : Completion) : p.post c = p := by
  refine if_neg fun hcan => hcan.2.2 ?_
  rw [hp.posted, hp.doorbell]
  rfl

theorem Pair.Fresh.submitCmd (hp : p.Fresh) (cmd : Cmd) : (p.submitCmd cmd).Fresh :=
  ⟨hp.cq, hp.cqHead, hp.phase, hp.doorbell, hp.posted, hp.consumed⟩

theorem Pair.Stuck.submitCmd (hp : p.Stuck) (cmd : Cmd) : (p.submitCmd cmd).Stuck :=
  ⟨hp.cq, hp.cqHead, hp.phase, hp.doorbell, hp.posted, hp.consumed⟩

/-! ### A stuck pair stays stuck -/

@[simp] theorem set_pairs_self (s : State) (q : QueueId) (p : Pair) : (s.set q p).pairs q = p := by
  simp [State.set]

theorem set_pairs_of_ne (s : State) (p : Pair) (h : r ≠ q) : (s.set q p).pairs r = s.pairs r := by
  simp [State.set, h]

/-- What holds of a pair and of what is stored there holds after the store. -/
theorem set_pairs_of (P : Pair → Prop) (hs : P (s.pairs q)) (hp : q = r → P p) :
    P ((s.set r p).pairs q) := by
  by_cases hq : q = r
  · subst hq
    rw [set_pairs_self]
    exact hp rfl
  · rw [set_pairs_of_ne _ _ hq]
    exact hs

theorem stuck_post (hs : (s.pairs q).Stuck) (x : QueueId × Completion) :
    ((s.post x).pairs q).Stuck := by
  refine set_pairs_of Pair.Stuck hs fun hq => ?_
  rw [← hq, hs.post]
  exact hs

theorem stuck_posts (hs : (s.pairs q).Stuck) (m : Moment) :
    ((s.posts m).pairs q).Stuck :=
  Run.invariant (I := fun t : State => (t.pairs q).Stuck) (fun _ x h => stuck_post h x) hs m

/-- A poll that matches is one of the other pair. -/
theorem stuck_set_take (hs : (s.pairs q).Stuck)
    (hmatch : ((s.pairs r).cq (s.pairs r).cqHead).statusPhase % 2 = (s.pairs r).phase) :
    ((s.set r (s.pairs r).take).pairs q).Stuck := by
  refine set_pairs_of Pair.Stuck hs fun hq => ?_
  rw [← hq, hs.cqHead, hs.phase, hs.cq] at hmatch
  cases hmatch

/-- No poll of a stuck pair matches, and polls of the other pair leave it alone. -/
theorem stuck_spin (controller : Nat → Moment) (n i : Nat)
    (hs : ((s.posts (controller i)).pairs q).Stuck) :
    ((spin r controller (n + 1) i s).1.pairs q).Stuck := by
  induction n generalizing i s with
  | zero =>
    rw [spin]
    split
    · exact stuck_set_take hs (by assumption)
    · exact hs
  | succ n ih =>
    rw [spin]
    split
    · exact stuck_set_take hs (by assumption)
    · exact ih (i + 1) (stuck_posts hs _)

theorem waitCompletion_cases (q : QueueId) (controller : Nat → Moment) (s : State) :
    let fast := (spin q controller 200000 0 s).1
    (waitCompletion q controller s).1 = fast ∨
      (waitCompletion q controller s).1 = (spin q controller 2000 200000 fast).1 := by
  unfold waitCompletion
  rcases spin q controller 200000 0 s with ⟨s', _ | v⟩
  · right
    dsimp only
    rcases spin q controller 2000 200000 s' with ⟨s'', _ | v⟩ <;> rfl
  · exact .inl rfl

theorem stuck_waitCompletion (controller : Nat → Moment)
    (hs : ((s.posts (controller 0)).pairs q).Stuck) :
    ((waitCompletion r controller s).1.pairs q).Stuck := by
  have hfast := stuck_spin (r := r) controller 199999 0 hs
  rcases waitCompletion_cases r controller s with h | h
  · rw [h]
    exact hfast
  · rw [h]
    exact stuck_spin controller 1999 200000 (stuck_posts hfast _)

theorem stuck_command (hs : (s.pairs q).Stuck) (c : Call) : ((command s c).pairs q).Stuck := by
  refine stuck_waitCompletion c.controller (stuck_posts ?_ _)
  refine set_pairs_of Pair.Stuck hs fun hq => ?_
  rw [← hq]
  exact hs.submitCmd c.cmd

theorem not_sound_of_stuck (hs : (s.pairs q).Stuck) : ¬ s.Sound := by
  intro hsound
  have hcount := hsound.2 q 0 (by rw [hs.posted]; exact Nat.one_pos)
  rw [hs.consumed] at hcount
  simp at hcount

/-! ### The first call -/

theorem fresh_posts (hs : (s.pairs q).Fresh) (m : Moment) :
    ((s.posts m).pairs q).Fresh ∨ ((s.posts m).pairs q).Stuck := by
  refine Run.invariant (I := fun t : State => (t.pairs q).Fresh ∨ (t.pairs q).Stuck) ?_ (.inl hs) m
  rintro s x (hs | hs)
  · refine set_pairs_of (fun p => p.Fresh ∨ p.Stuck) (.inl hs) fun hq => ?_
    rw [← hq]
    exact hs.post x.2
  · exact .inr (stuck_post hs x)

/-- A fresh pair that is still fresh at the first poll answers 0 with nothing posted. -/
theorem spin_fresh (controller : Nat → Moment) (n i : Nat)
    (hs : ((s.posts (controller i)).pairs q).Fresh) :
    spin q controller (n + 1) i s =
      ((s.posts (controller i)).set q ((s.posts (controller i)).pairs q).take, some 0) := by
  have hentry : ((s.posts (controller i)).pairs q).cq ((s.posts (controller i)).pairs q).cqHead =
      ⟨0, none⟩ := by
    rw [hs.cqHead, hs.cq]
  unfold spin
  dsimp only
  rw [hentry, hs.phase]
  rfl

/-- The log holds a call that answered 0 without its completion. -/
def State.Lied (s : State) : Prop := ∃ r ∈ s.log, r.value = 0 ∧ r.completed = false

theorem not_sound_of_lied (hs : s.Lied) : ¬ s.Sound := by
  intro hsound
  obtain ⟨r, hr, hvalue, hcompleted⟩ := hs
  rw [hsound.1 r hr hvalue] at hcompleted
  cases hcompleted

theorem log_posts (s : State) (m : Moment) : (s.posts m).log = s.log := by
  induction m generalizing s with
  | nil => rfl
  | cons x m ih => exact ih (s.post x)

theorem log_spin (q : QueueId) (controller : Nat → Moment) (n i : Nat) (s : State) :
    (spin q controller n i s).1.log = s.log := by
  induction n generalizing i s with
  | zero => rfl
  | succ n ih =>
    unfold spin
    dsimp only
    split
    · exact log_posts s _
    · exact (ih (i + 1) _).trans (log_posts s _)

theorem log_waitCompletion (q : QueueId) (controller : Nat → Moment) (s : State) :
    (waitCompletion q controller s).1.log = s.log := by
  have hfast := log_spin q controller 200000 0 s
  rcases waitCompletion_cases q controller s with h | h
  · rw [h, hfast]
  · rw [h, log_spin, hfast]

theorem log_command (s : State) (c : Call) : ∃ r, (command s c).log = s.log ++ [r] := by
  refine ⟨_, congrArg (· ++ [_]) (log_waitCompletion c.queue c.controller _)⟩

theorem lied_command (hs : s.Lied) (c : Call) : (command s c).Lied := by
  obtain ⟨r, hr, hlied⟩ := hs
  obtain ⟨r', hlog⟩ := log_command s c
  refine ⟨r, ?_, hlied⟩
  rw [hlog]
  exact List.mem_append_left _ hr

/-- The first call on a fresh pair answers 0 too early, or leaves the pair stuck. -/
theorem command_fresh {c : Call} (hs : (s.pairs c.queue).Fresh) :
    (command s c).Lied ∨ ((command s c).pairs c.queue).Stuck := by
  have hsubmit : ((s.set c.queue ((s.pairs c.queue).submitCmd c.cmd)).pairs c.queue).Fresh := by
    rw [set_pairs_self]
    exact hs.submitCmd c.cmd
  generalize hs1 : s.set c.queue ((s.pairs c.queue).submitCmd c.cmd) = s1 at hsubmit
  rcases fresh_posts hsubmit (c.controller 0) with hfresh | hstuck
  · left
    have hspin := spin_fresh c.controller 199999 0 hfresh
    have hwait : waitCompletion c.queue c.controller s1 = ((s1.posts (c.controller 0)).set c.queue
          ((s1.posts (c.controller 0)).pairs c.queue).take, 0) := by
      unfold waitCompletion
      rw [hspin]
    refine ⟨⟨c.queue, (s.pairs c.queue).submitted.length, 0, false⟩, ?_, rfl, rfl⟩
    unfold command
    rw [hs1, hwait]
    apply List.mem_append_right
    have hposted : (((s1.posts (c.controller 0)).pairs c.queue).take).posted = [] := hfresh.posted
    simp [hposted]
  · right
    subst hs1
    exact stuck_waitCompletion c.controller hstuck

/-! ### Whole sessions -/

theorem sound_init : State.init.Sound := by
  constructor
  · intro r hr
    cases hr
  · intro q n hn
    cases hn

/-- **The driver and the controller never agree.**  Whatever the controller posts and when, the
calls of a session meet their contract only if there are none: the first call lies or its
completion is never taken. -/
theorem sound_iff_no_calls (calls : List Call) :
    (Run.run command State.init calls).Sound ↔ calls = [] := by
  constructor
  · intro hsound
    cases calls with
    | nil => rfl
    | cons c rest =>
      exfalso
      rcases command_fresh (s := State.init) (c := c) fresh_init with hlied | hstuck
      · exact not_sound_of_lied
          (Run.invariant (I := State.Lied) (fun _ c h => lied_command h c) hlied rest) hsound
      exact not_sound_of_stuck (Run.invariant (I := fun t : State => (t.pairs c.queue).Stuck)
          (fun _ c h => stuck_command h c) hstuck rest) hsound
  · intro hnil
    subst hnil
    exact sound_init

/-- The controller completes the first Identify after the driver's first poll. -/
def slowIdentify : Call where
  queue := .admin
  cmd i := if i = 0 then 0x10006 else if i = 6 then 0x5000 else if i = 10 then 1 else 0
  controller := fun i => if i = 1 then [(.admin, ⟨0, 0⟩)] else []

/-- Identify answers 0 before the controller has posted anything. -/
theorem slowIdentify_lies : ¬ (Run.run command State.init [slowIdentify]).Sound := by
  rcases command_fresh (s := State.init) (c := slowIdentify) fresh_init with hlied | hstuck
  · exact not_sound_of_lied hlied
  · exact not_sound_of_stuck hstuck

end Nvme
