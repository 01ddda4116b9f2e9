import LufiraOS.Ipc.Mailbox

/-!
# Calls to a service

`service_call` in `kernel/system/syscall/syscall.c` sends a request to a service and
takes messages out of the mailbox of its caller until one comes from the service.  The
others are dropped, and a message that the service sent before the request is taken for
its answer.
-/

namespace Ipc

open Scheduler (PState)

/-- A call that has placed its request.  `result` is what it returns: the reply, or
nothing for -1.  `earlier` is what had been sent to the caller by then, and `dropped`
what the call has thrown away. -/
structure Call where
  mailbox : Mailbox
  service : Nat
  replyLen : Nat
  result : Option (Option (List UInt8))
  earlier : List (Nat × List UInt8)
  dropped : List Msg

namespace Call

/-- `service_call` behind its `mailbox_send`. -/
def start (mb : Mailbox) (service replyLen : Nat) : Call where
  mailbox := mb
  service := service
  replyLen := replyLen
  result := none
  earlier := mb.sent
  dropped := []

/-- One turn of the loop of `service_call`. -/
def turn (c : Call) : Call :=
  match c.mailbox.recv (-1) with
  | (.waits, mb) => { c with mailbox := mb }
  | (.failed, mb) => { c with mailbox := mb, result := some none }
  | (.got m, mb) =>
    if m.sender ≠ c.service then { c with mailbox := mb, dropped := c.dropped ++ [m] }
    else if m.len ≠ c.replyLen then { c with mailbox := mb, result := some none }
    else { c with mailbox := mb, result := some (some (m.payload.take c.replyLen)) }

/-- One step while the call is under way; afterwards the caller does as it likes. -/
def step (c : Call) (e : Mailbox.Step) : Call :=
  match e with
  | .recv _ => if c.mailbox.state = .running ∧ c.result = none then c.turn else c
  | e => if c.result = none then { c with mailbox := c.mailbox.step e } else c

/-- A message from someone else comes only when an answer is already there. -/
def Quiet (c : Call) : Mailbox.Step → Prop
  | .send sender _ => sender = c.service ∨ 0 < c.mailbox.ring.count
  | _ => True

instance (c : Call) (e : Mailbox.Step) : Decidable (c.Quiet e) :=
  match e with
  | .send _ _ => inferInstanceAs (Decidable (_ ∨ _))
  | .wake | .recv _ | .owner _ => inferInstanceAs (Decidable True)

/-- What the claim asks of a call that returns a reply: it is a message of the service
that was sent after the request, and nobody else's message was thrown away. -/
def Faithful (c : Call) : Prop :=
  ∀ reply, c.result = some (some reply) →
    (∃ later, c.mailbox.sent = c.earlier ++ later ∧ (c.service, reply) ∈ later) ∧ c.dropped = []

/-- Before the answer everything that was sent is in the mailbox, the answer first; and
then the answer was first. -/
structure Sound (c : Call) (q : List Msg) : Prop where
  mailbox : c.mailbox.Sound q
  dropped : c.dropped = []
  first : c.result = none → ∀ m ∈ q.head?, m.sender = c.service
  later : c.result = none → c.mailbox.sent = c.earlier ++ q.map Msg.content
  reply : ∀ reply, c.result = some (some reply) →
    ∃ later, c.mailbox.sent = c.earlier ++ later ∧ (c.service, reply) ∈ later

variable {c : Call} {q : List Msg}

theorem sound_start {mb : Mailbox} (h : mb.Sound []) (service replyLen : Nat) :
    (start mb service replyLen).Sound [] where
  mailbox := h
  dropped := rfl
  first _ _ hm := nomatch hm
  later _ := (List.append_nil _).symm
  reply _ h := nomatch h

/-- Something happens to the mailbox that leaves its messages as they are. -/
theorem Sound.remailbox {mb : Mailbox} (h : c.Sound q) (hres : c.result = none) (hmb : mb.Sound q)
    (hsent : mb.sent = c.mailbox.sent) : ({ c with mailbox := mb } : Call).Sound q := by
  refine ⟨hmb, h.dropped, h.first, fun hn => hsent.trans (h.later hn), fun reply hr => ?_⟩
  rw [hres] at hr
  cases hr

theorem Sound.turn (h : c.Sound q) (hrun : c.mailbox.state = .running) (hres : c.result = none) :
    ∃ q', c.turn.Sound q' := by
  have hrecv := h.mailbox.recv hrun (-1)
  have hsent := Mailbox.sent_recv c.mailbox (-1)
  unfold Call.turn
  generalize c.mailbox.recv (-1) = out at hrecv hsent ⊢
  obtain ⟨t, mb⟩ := out
  have hkept : ∀ {q}, mb.Sound q → ({ c with mailbox := mb, result := some none } : Call).Sound q :=
    fun hmb => ⟨hmb, h.dropped, (fun hn => nomatch hn), (fun hn => nomatch hn),
      fun _ hn => nomatch hn⟩
  cases t with
  | waits =>
    obtain ⟨_, _, _, hgot, _⟩ | ⟨-, hmb, -⟩ := hrecv
    · cases hgot
    exact ⟨q, h.remailbox hres hmb hsent⟩
  | failed =>
    obtain ⟨_, _, _, hgot, _⟩ | ⟨-, hmb, -⟩ := hrecv
    · cases hgot
    · exact ⟨q, hkept hmb⟩
  | got m =>
    obtain ⟨m', q', hq, hgot, hmb, -⟩ | ⟨hnot, -⟩ := hrecv
    · obtain rfl : m = m' := Mailbox.Turn.got.inj hgot
      have hservice : m.sender = c.service := h.first hres m (by rw [hq]; rfl)
      dsimp only
      rw [if_neg (not_not.2 hservice)]
      refine ⟨q', ?_⟩
      split
      · exact hkept hmb
      · next hlen =>
        refine ⟨hmb, h.dropped, (fun hn => nomatch hn), (fun hn => nomatch hn), fun reply hr => ?_⟩
        obtain rfl : m.payload.take c.replyLen = reply := Option.some.inj (Option.some.inj hr)
        refine ⟨q.map Msg.content, hsent.trans (h.later hres), ?_⟩
        rw [hq, List.map_cons]
        have hcontent : m.content = (c.service, m.payload.take c.replyLen) := by
          rw [Msg.content, hservice, not_not.1 hlen]
        exact hcontent ▸ List.mem_cons_self
    · exact absurd rfl (hnot m)

/-- **One step** of a call that is left in peace. -/
theorem Sound.step (h : c.Sound q) (e : Mailbox.Step) (hquiet : c.Quiet e) :
    ∃ q', (c.step e).Sound q' := by
  by_cases hres : c.result = none
  · cases e with
    | recv timeout =>
      unfold Call.step
      dsimp only
      split
      · next hrun => exact h.turn hrun.1 hres
      · exact ⟨q, h⟩
    | send sender data =>
      have hstep : c.step (.send sender data) =
          { c with mailbox := (c.mailbox.send sender data).2 } := if_pos hres
      rw [hstep]
      rcases h.mailbox.send sender data with heq | ⟨hok, hmb⟩
      · rw [heq]
        exact ⟨q, h⟩
      refine ⟨_, hmb, h.dropped, fun _ m hm => ?_, fun _ => ?_, fun reply hr => ?_⟩
      · cases q with
        | nil =>
          obtain rfl : c.mailbox.filled sender data = m := Option.some.inj hm
          refine hquiet.resolve_right fun hcount => ?_
          rw [← h.mailbox.holds.length] at hcount
          exact Nat.lt_irrefl 0 hcount
        | cons m' q' => exact h.first hres m hm
      · show (c.mailbox.send sender data).2.sent = _
        rw [List.map_append, ← List.append_assoc, ← h.later hres, List.map_singleton,
          Mailbox.content_filled]
        exact Mailbox.sent_send hok
      · rw [hres] at hr
        cases hr
    | wake =>
      have hstep : c.step .wake = { c with mailbox := c.mailbox.wake } := if_pos hres
      rw [hstep]
      exact ⟨q, h.remailbox hres h.mailbox.wake (Mailbox.sent_wake c.mailbox)⟩
    | owner st =>
      have hstep : c.step (.owner st) = { c with mailbox := c.mailbox.step (.owner st) } :=
        if_pos hres
      rw [hstep]
      exact ⟨q, h.remailbox hres (h.mailbox.owner st) (Mailbox.sent_owner c.mailbox st)⟩
  · have hstep : c.step e = c := by
      unfold Call.step
      split
      · exact if_neg fun hh => hres hh.2
      · exact if_neg hres
    rw [hstep]
    exact ⟨q, h⟩

/-- **A call that is left in peace.**  The mailbox of the caller is empty when the
request has been placed, and until the answer is there only the service sends to it:
then a reply is an answer to the request, and nothing is lost. -/
theorem faithful_of_run {mb : Mailbox} (hempty : mb.Sound []) (service replyLen : Nat)
    (steps : List Mailbox.Step)
    (hmeets : Run.Meets step Quiet (start mb service replyLen) steps) :
    (Run.run step (start mb service replyLen) steps).Faithful := by
  have hstep : ∀ (c : Call) (e : Mailbox.Step), (∃ q, c.Sound q) → c.Quiet e →
      ∃ q, (c.step e).Sound q := fun _ e hs hok => hs.elim fun _ h => h.step e hok
  obtain ⟨q, h⟩ := hmeets.invariant hstep ⟨[], sound_start hempty service replyLen⟩
  exact fun reply hr => ⟨h.reply reply hr, h.dropped⟩

/-- The mailbox of a process that runs, with nothing in it. -/
def idle : Mailbox := (Mailbox.init fun _ => ⟨0, 0, []⟩).step (.owner .running)

/-- The caller blocks, the service answers, and the caller goes on. -/
def answered : List Mailbox.Step := [.recv 0, .send 7 [42], .wake, .owner .running, .recv 0]

theorem faithful_of_run_answered :
    idle.Sound [] ∧ Run.Meets step Quiet (start idle 7 1) answered ∧
      (Run.run step (start idle 7 1) answered).result = some (some [42]) ∧
      (Run.run step (start idle 7 1) answered).Faithful :=
  ⟨(Mailbox.sound_init _).owner _, by decide, by decide,
    faithful_of_run ((Mailbox.sound_init _).owner _) 7 1 answered (by decide)⟩

/-- An old message of the service is taken for the answer, and a message of process 5
that comes before the answer is lost. -/
theorem not_faithful_stale :
    ¬ (Run.run step (start (idle.step (.send 7 [1])) 7 1) [.recv 0]).Faithful ∧
      ¬ (Run.run step (start idle 7 1) (.send 5 [9] :: .recv 0 :: answered)).Faithful := by
  refine ⟨fun h => ?_, fun h => ?_⟩
  · obtain ⟨⟨later, hsent, hmem⟩, -⟩ := h [1] (by decide)
    have hearlier : ([(7, [1])] : List (Nat × List UInt8)) = [(7, [1])] ++ later := hsent
    rw [List.self_eq_append_right.1 hearlier] at hmem
    cases hmem
  have hdropped := (h [42] (by decide)).2
  revert hdropped
  decide

end Call

end Ipc
