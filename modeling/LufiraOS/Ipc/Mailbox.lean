import LufiraOS.Lib.RingBuffer
import LufiraOS.Lib.Run
import LufiraOS.Process.Core

/-!
# Mailboxes

`kernel/system/ipc/mailbox.c`: the mailbox of one process, which alone receives from
it while anyone may send.  The ring is changed with interrupts off.  What a sender does
after that, setting the process it found waiting ready, is a step of its own, so other
senders may come in between.
-/

namespace Ipc

open Scheduler (PState)

/-- `MAX_IPC_MSG_PAYLOAD`. -/
def maxPayload : Nat := 96

/-- `MAX_IPC_MAILBOX_SLOTS`. -/
def mailboxSlots : Nat := 32

/-- `ipc_msg_t`. -/
structure Msg where
  sender : Nat
  len : Nat
  payload : List UInt8
  deriving DecidableEq, Repr

/-- What a message says: who sent it, and its bytes. -/
def Msg.content (m : Msg) : Nat × List UInt8 := (m.sender, m.payload.take m.len)

/-- The mailbox, its owner, and the senders that have not yet woken it.  `receiving`
is the loop of `mailbox_recv` the owner is in: its timeout and the time that has passed.
The code has no `sent` and `received`: they record what was sent with success and
what `mailbox_recv` has returned. -/
structure Mailbox where
  ring : RingBuffer Msg
  waiter : Bool
  state : PState
  receiving : Option (Int × Nat)
  wakes : Nat
  sent : List (Nat × List UInt8)
  received : List Msg

namespace Mailbox

/-- `mailbox_init`, in the memory `buffer` that `kmalloc` gave to the process. -/
def init (buffer : Nat → Msg) : Mailbox where
  ring := ⟨buffer, mailboxSlots, 0, 0, 0⟩
  waiter := false
  state := .ready
  receiving := none
  wakes := 0
  sent := []
  received := []

/-- The slot as `mailbox_send` leaves it: behind the new bytes lie those of an older
message. -/
def filled (mb : Mailbox) (sender : Nat) (data : List UInt8) : Msg where
  sender := sender
  len := data.length
  payload := data ++ (mb.ring.buffer mb.ring.writePos).payload.drop data.length

/-- `mailbox_send` up to `mailbox_unlock`: whether it succeeds, and the mailbox. -/
def send (mb : Mailbox) (sender : Nat) (data : List UInt8) : Bool × Mailbox :=
  if maxPayload < data.length then (false, mb)
  else if mailboxSlots ≤ mb.ring.count then (false, mb)
  else
    (true, { mb with
      ring := mb.ring.push (mb.filled sender data)
      waiter := false
      wakes := mb.wakes + (if mb.waiter then 1 else 0)
      sent := mb.sent ++ [(sender, data)] })

/-- The end of `mailbox_send`: `waiter->state = PROCESS_READY`. -/
def wake (mb : Mailbox) : Mailbox :=
  if mb.wakes = 0 then mb else { mb with wakes := mb.wakes - 1, state := .ready }

/-- How one turn of the loop of `mailbox_recv` ends. -/
inductive Turn
  | got (m : Msg)
  | failed
  | waits

/-- One turn of the loop of `mailbox_recv`. -/
def turn (mb : Mailbox) (timeout : Int) (elapsed : Nat) : Turn × Mailbox :=
  if 0 < mb.ring.count then
    (.got mb.ring.front, { mb with
      ring := mb.ring.pop
      receiving := none
      received := mb.received ++ [mb.ring.front] })
  else if timeout = 0 then (.failed, { mb with receiving := none })
  else if 0 < timeout then
    if timeout ≤ elapsed then (.failed, { mb with receiving := none })
    else (.waits, { mb with state := .sleeping, receiving := some (timeout, elapsed + 10) })
  else (.waits, { mb with waiter := true, state := .blocked, receiving := some (timeout, elapsed) })

/-- `mailbox_recv` begins, or goes on where it was suspended. -/
def recv (mb : Mailbox) (timeout : Int) : Turn × Mailbox :=
  match mb.receiving with
  | none => mb.turn timeout 0
  | some (t, elapsed) => mb.turn t elapsed

/-- What can happen next.  `owner` is whatever else is done to the state of the owner:
signals, the timer, the scheduler, and what the owner does outside of `mailbox_recv`. -/
inductive Step
  | send (sender : Nat) (data : List UInt8)
  | wake
  | recv (timeout : Int)
  | owner (st : PState)

/-- One step.  Only the owner itself waits for something, and not elsewhere while it is
in `mailbox_recv`. -/
def step (mb : Mailbox) : Step → Mailbox
  | .send sender data => (mb.send sender data).2
  | .wake => mb.wake
  | .recv timeout => if mb.state = .running then (mb.recv timeout).2 else mb
  | .owner st =>
    if (st = .blocked ∨ st = .sleeping) ∧ (mb.state ≠ .running ∨ mb.receiving ≠ none) then mb
    else { mb with state := st }

/-- The queue `q` lies in the ring, behind what was received; a recorded waiter has
seen an empty mailbox; and a receiver that is blocked is recorded or about to be woken. -/
structure Sound (mb : Mailbox) (q : List Msg) : Prop where
  size : mb.ring.size = mailboxSlots
  holds : mb.ring.Holds q
  order : (mb.received ++ q).map Msg.content = mb.sent
  empty : mb.waiter = true → mb.ring.count = 0
  woken : mb.state = .blocked → mb.receiving ≠ none → mb.waiter = true ∨ 0 < mb.wakes

variable {mb : Mailbox} {q : List Msg}

theorem sound_init (buffer : Nat → Msg) : (init buffer).Sound [] where
  size := rfl
  holds := ⟨rfl, Nat.zero_le _, Nat.succ_pos 31, rfl, fun i hi => absurd hi (Nat.not_lt_zero i)⟩
  order := rfl
  empty h := nomatch h
  woken h := nomatch h

theorem content_filled (mb : Mailbox) (sender : Nat) (data : List UInt8) :
    (mb.filled sender data).content = (sender, data) := by
  simp [Msg.content, filled]

theorem Sound.send (h : mb.Sound q) (sender : Nat) (data : List UInt8) :
    (mb.send sender data = (false, mb)) ∨ (mb.send sender data).1 = true ∧
        (mb.send sender data).2.Sound (q ++ [mb.filled sender data]) := by
  unfold Mailbox.send
  split
  · exact .inl rfl
  split
  · exact .inl rfl
  · next hroom =>
    have hlt : mb.ring.count < mb.ring.size := by
      rw [h.size]
      exact Nat.lt_of_not_le hroom
    refine .inr ⟨rfl, h.size, h.holds.push hlt _, ?_, (fun hw => nomatch hw), ?_⟩
    · show (mb.received ++ (q ++ [mb.filled sender data])).map Msg.content =
        mb.sent ++ [(sender, data)]
      rw [← List.append_assoc, List.map_append, h.order, List.map_singleton, content_filled]
    intro hstate hrecv
    refine .inr ?_
    show 0 < mb.wakes + (if mb.waiter then 1 else 0)
    rcases h.woken hstate hrecv with hw | hw
    · rw [hw]
      exact Nat.succ_pos _
    · omega

theorem Sound.wake (h : mb.Sound q) : mb.wake.Sound q := by
  unfold Mailbox.wake
  split
  · exact h
  · exact ⟨h.size, h.holds, h.order, h.empty, fun hstate => nomatch hstate⟩

theorem Sound.turn (h : mb.Sound q) (hrun : mb.state = .running) (timeout : Int) (elapsed : Nat) :
    (∃ m q', q = m :: q' ∧ (mb.turn timeout elapsed).1 = .got m ∧
        (mb.turn timeout elapsed).2.Sound q' ∧
        (mb.turn timeout elapsed).2.received = mb.received ++ [m]) ∨
      (∀ m, (mb.turn timeout elapsed).1 ≠ .got m) ∧ (mb.turn timeout elapsed).2.Sound q ∧
        (mb.turn timeout elapsed).2.received = mb.received := by
  unfold Mailbox.turn
  by_cases hcount : 0 < mb.ring.count
  · rw [if_pos hcount]
    cases q with
    | nil =>
      have hlen := h.holds.length
      rw [List.length_nil] at hlen
      omega
    | cons m q' =>
      have hfront : mb.ring.front = m := h.holds.front
      refine .inl ⟨m, q', rfl, by rw [hfront], ?_, by rw [hfront]⟩
      refine ⟨h.size, h.holds.pop, ?_, fun hw => ?_, fun hstate => ?_⟩
      · show (mb.received ++ [mb.ring.front] ++ q').map Msg.content = mb.sent
        rw [hfront, List.append_assoc]
        exact h.order
      · have hzero := h.empty hw
        omega
      have hstate' : mb.state = .blocked := hstate
      rw [hrun] at hstate'
      cases hstate'
  rw [if_neg hcount]
  have hzero : mb.ring.count = 0 := by omega
  have hleft : ({ mb with receiving := none } : Mailbox).Sound q :=
    ⟨h.size, h.holds, h.order, h.empty, fun _ hne => absurd rfl hne⟩
  split
  · exact .inr ⟨(fun m hm => nomatch hm), hleft, rfl⟩
  split
  · split
    · exact .inr ⟨(fun m hm => nomatch hm), hleft, rfl⟩
    · refine .inr ⟨(fun m hm => nomatch hm), ?_, rfl⟩
      exact ⟨h.size, h.holds, h.order, h.empty, fun hstate => nomatch hstate⟩
  · refine .inr ⟨(fun m hm => nomatch hm), ?_, rfl⟩
    exact ⟨h.size, h.holds, h.order, fun _ => hzero, fun _ _ => .inl rfl⟩

theorem Sound.recv (h : mb.Sound q) (hrun : mb.state = .running) (timeout : Int) :
    (∃ m q', q = m :: q' ∧ (mb.recv timeout).1 = .got m ∧ (mb.recv timeout).2.Sound q' ∧
        (mb.recv timeout).2.received = mb.received ++ [m]) ∨
      (∀ m, (mb.recv timeout).1 ≠ .got m) ∧ (mb.recv timeout).2.Sound q ∧
        (mb.recv timeout).2.received = mb.received := by
  unfold Mailbox.recv
  split
  · exact h.turn hrun timeout 0
  · exact h.turn hrun _ _

theorem sent_recv (mb : Mailbox) (timeout : Int) : (mb.recv timeout).2.sent = mb.sent := by
  have hturn : ∀ t elapsed, (mb.turn t elapsed).2.sent = mb.sent := by
    intro t elapsed
    unfold Mailbox.turn
    repeat' split
    all_goals rfl
  unfold Mailbox.recv
  split <;> exact hturn _ _

theorem sent_send {sender : Nat} {data : List UInt8} (h : (mb.send sender data).1 = true) :
    (mb.send sender data).2.sent = mb.sent ++ [(sender, data)] := by
  unfold Mailbox.send at h ⊢
  split at h
  · cases h
  split at h
  · cases h
  · next hlen hroom => rw [if_neg hlen, if_neg hroom]

theorem sent_wake (mb : Mailbox) : mb.wake.sent = mb.sent := by
  unfold Mailbox.wake
  split <;> rfl

theorem sent_owner (mb : Mailbox) (st : PState) : (mb.step (.owner st)).sent = mb.sent := by
  unfold Mailbox.step
  dsimp only
  split <;> rfl

theorem Sound.owner (h : mb.Sound q) (st : PState) : (mb.step (.owner st)).Sound q := by
  unfold Mailbox.step
  dsimp only
  split
  · exact h
  · next hst =>
    refine ⟨h.size, h.holds, h.order, h.empty, fun hstate hne => ?_⟩
    exact absurd ⟨.inl hstate, .inr hne⟩ hst

/-- **One step.** -/
theorem Sound.step (h : mb.Sound q) (e : Step) : ∃ q', (mb.step e).Sound q' := by
  cases e with
  | send sender data =>
    rcases h.send sender data with heq | ⟨-, hsound⟩
    · exact ⟨q, by rw [Mailbox.step, heq]; exact h⟩
    · exact ⟨_, hsound⟩
  | wake => exact ⟨q, h.wake⟩
  | recv timeout =>
    unfold Mailbox.step
    dsimp only
    split
    · next hrun =>
      rcases h.recv hrun timeout with ⟨m, q', -, -, hsound, -⟩ | ⟨-, hsound, -⟩
      · exact ⟨q', hsound⟩
      · exact ⟨q, hsound⟩
    · exact ⟨q, h⟩
  | owner st => exact ⟨q, h.owner st⟩

theorem exists_sound_of_run (buffer : Nat → Msg) (steps : List Step) :
    ∃ q, (Run.run step (init buffer) steps).Sound q := by
  have hstep : ∀ (mb : Mailbox) (e : Step), (∃ q, mb.Sound q) → ∃ q, (mb.step e).Sound q :=
    fun _ e hs => hs.elim fun _ h => h.step e
  exact Run.invariant hstep ⟨[], sound_init buffer⟩ steps

/-- **The mailbox.**  Whatever happens in whatever order, `mailbox_recv` has returned a
prefix of what was sent, each message with its sender and its bytes; the positions of
the ring fit its count, which is at most 32; and unless a sender is about to wake it, the
owner is not blocked in `mailbox_recv` while a message is there. -/
theorem fifo_of_run (buffer : Nat → Msg) (steps : List Step) :
    let mb := Run.run step (init buffer) steps
    mb.received.map Msg.content <+: mb.sent ∧
      mb.ring.count ≤ mailboxSlots ∧ mb.ring.readPos < mailboxSlots ∧
      mb.ring.writePos = (mb.ring.readPos + mb.ring.count) % mailboxSlots ∧
      (mb.wakes = 0 → ¬ (mb.state = .blocked ∧ mb.receiving ≠ none ∧ 0 < mb.ring.count)) := by
  intro mb
  obtain ⟨q, h⟩ := exists_sound_of_run buffer steps
  have hfits := h.holds.fits
  have hread := h.holds.read
  have hwrite := h.holds.write
  rw [h.size] at hfits hread hwrite
  refine ⟨⟨q.map Msg.content, ?_⟩, hfits, hread, hwrite, fun hwakes hblocked => ?_⟩
  · rw [← List.map_append]
    exact h.order
  obtain ⟨hstate, hrecv, hcount⟩ := hblocked
  rcases h.woken hstate hrecv with hw | hw
  · have hzero := h.empty hw
    exact absurd hcount (by rw [hzero]; exact Nat.lt_irrefl 0)
  · rw [hwakes] at hw
    exact Nat.lt_irrefl 0 hw

end Mailbox

end Ipc
