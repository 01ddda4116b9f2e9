import LufiraOS.Process.Outcome

/-!
# Terminated and stopped processes

`mailbox_send`, `pipe_wake`, `driver_irq_notify`, the sound ring and the console set
the process that their pointer leads to ready, whatever state it is in.  So a process
that is stopped or killed while it waits comes back to life.  Without that, a
terminated process stays terminated until it is removed, and a stopped one stops until
it is continued or terminated.
-/

namespace Scheduler

namespace State

variable {s s' : State} {a : Nat}

/-- How a terminated process and a stopped one may go on. -/
structure Steady (s : State) (e : Step) (s' : State) : Prop where
  terminated : ∀ x, (s.node x).state = .terminated →
    s'.nodes x = none ∨ (s'.node x).state = .terminated
  stopped : ∀ x, (s.node x).state = .stopped →
    (s'.node x).state = .stopped ∨ (s'.node x).state = .terminated ∨ s.continued e = some x

/-- A free address has the state of the default node. -/
theorem exists_node {x : Nat} {st : PState} (h : (s.node x).state = st) (hst : st ≠ .ready) :
    ∃ n, s.nodes x = some n ∧ n.state = st := by
  cases hn : s.nodes x with
  | none =>
    rw [node, hn] at h
    exact absurd h.symm hst
  | some n =>
    rw [node, hn] at h
    exact ⟨n, rfl, h⟩

/-- What becomes of the nodes that last. -/
theorem Steady.of_nodes {e : Step} (h : ∀ x n, s.nodes x = some n → Lasts true n.state →
    (n.state = .terminated ∧ s'.nodes x = none) ∨ ∃ n', s'.nodes x = some n' ∧
      (n'.state = n.state ∨ n'.state = .terminated ∨ s.continued e = some x ∧ n.state = .stopped)) :
    Steady s e s' where
  terminated x hx := by
    obtain ⟨n, hn, hst⟩ := exists_node hx (by simp)
    rcases h x n hn (by rw [hst]; trivial) with ⟨-, hnone⟩ | ⟨n', hn', hn''⟩
    · exact .inl hnone
    rw [State.node, hn']
    rcases hn'' with heq | heq | ⟨-, heq⟩
    · exact .inr (heq.trans hst)
    · exact .inr heq
    · cases heq.symm.trans hst
  stopped x hx := by
    obtain ⟨n, hn, hst⟩ := exists_node hx (by simp)
    rcases h x n hn (by rw [hst]; rfl) with ⟨heq, -⟩ | ⟨n', hn', hn''⟩
    · cases heq.symm.trans hst
    rw [State.node, hn']
    rcases hn'' with heq | heq | ⟨heq, -⟩
    · exact .inl (heq.trans hst)
    · exact .inr (.inl heq)
    · exact .inr (.inr heq)

/-- What is left alone is steady, so only the node that changes is looked at. -/
theorem Change.steady {drop : Nat → Prop} {P : Node → Node → Prop} {s₀ : State}
    (h : Change true a drop P s₀ s s') (e : Step) (hP : ∀ n n', P n n' → Lasts true n.state →
      n'.state = n.state ∨ n'.state = .terminated ∨ s.continued e = some a ∧ n.state = .stopped) :
    Steady s e s' := by
  refine .of_nodes fun x n hn hl => ?_
  by_cases hxa : x = a
  · subst hxa
    obtain ⟨n', hn', hp⟩ := h.self n hn
    exact .inr ⟨n', hn', hP n n' hp hl⟩
  rcases h.others x n hxa hn with ⟨hterm, -, hnone⟩ | ⟨n', hn', hk⟩
  · exact .inl ⟨hterm, hnone⟩
  · exact .inr ⟨n', hn', .inl (hk.lasts hl)⟩

/-- **One step** out of a state in which the pointers are in order. -/
theorem Settled.steady_step {l : List Nat} (hset : Settled true s) (h : Ringed s l) (e : Step)
    (hclear : Clear true s e) : Steady s e (s.step e) := by
  obtain ⟨heffect, -⟩ := h.stepEffect hset e hclear
  cases heffect with
  | effect heffect =>
    cases heffect with
    | kept ho hk =>
      refine .of_nodes fun x n hn hl => ?_
      obtain ⟨n', hn', hkept⟩ := hk.node x n hn
      exact .inr ⟨n', hn', .inl (hkept.lasts hl)⟩
    | ended ho hsome hidle hchange =>
      exact hchange.steady e fun n n' hp _ => .inr (.inl hp.2.1)
    | stopped hb ho hsome hidle hchange =>
      refine hchange.steady e fun n n' hp hl => .inl (hp.2.trans ?_)
      cases hst : n.state <;> simp [hst, Lasts] at hl ⊢
      exact hp.1 hst
    | continued hb ho hc hsome hchange =>
      exact hchange.steady e fun n n' hp _ => .inr (.inr ⟨hc, hp.1⟩)
  | reaped hreap ho hdropped =>
    refine .of_nodes fun x n hn hl => ?_
    rcases hdropped.node x n hn with ⟨hterm, -, hnone⟩ | ⟨n', hn', hk⟩
    · exact .inl ⟨hterm, hnone⟩
    · exact .inr ⟨n', hn', .inl (hk.lasts hl)⟩
  | moved ho hchange =>
    -- the current process is neither terminated nor stopped
    have hcur := hset.current
    obtain ⟨n₀, hn₀⟩ := Option.isSome_iff_exists.1 h.current_isSome
    rw [State.node, hn₀] at hcur
    have hself : ∀ n, s.nodes s.current = some n → ¬ Lasts true n.state := by
      intro n hn
      obtain rfl := Option.some.inj (hn₀.symm.trans hn)
      exact hcur
    have hchange' : Change true s.current (fun x => (s.node x).ppid = (s.node s.current).pid)
        (fun n n' => Placed true n n' ∧ ¬ Lasts true n.state) s s (s.step e) :=
      { hchange with
        self := fun n hn => by
          obtain ⟨n', hn', hp⟩ := hchange.self n hn
          exact ⟨n', hn', hp, hself n hn⟩ }
    exact hchange'.steady e fun n n' hp hl => absurd hl hp.2

/-- **The state machine.**  In every run in which no process is stopped while a pointer
records it, and none is terminated while a pointer other than an interrupt line's does,
every step leaves terminated processes terminated or removes them, and stopped
ones stopped unless it terminates or continues them. -/
theorem steady_of_run (ha : a ≠ 0) (steps : List Step) (e : Step)
    (hmeets : Run.Meets State.step (Clear true) (processInit a) (steps ++ [e])) :
    Steady (Run.run State.step (processInit a) steps) e
      (Run.run State.step (processInit a) (steps ++ [e])) := by
  obtain ⟨hsteps, hlast⟩ := hmeets.append
  obtain ⟨⟨l, hring, -⟩, hset⟩ := settled_of_run ha hsteps
  rw [Run.run_append]
  exact hset.steady_step hring e hlast.1

/-- Two processes; the first one waits for a message. -/
def waiting : List Step :=
  [.spawn ⟨some 32, true, true⟩ false, .spawn ⟨some 48, true, true⟩ false, .schedule,
    .block (.mailbox 32)]

/-- The second process stops itself and is continued by nobody. -/
theorem steady_of_run_waiting :
    (16 : Nat) ≠ 0 ∧
      Run.Meets State.step (Clear true) (processInit 16)
        (waiting ++ [.signal 2 sigstop ⟨none, false, false⟩] ++ [.wake (.mailbox 32)]) ∧
      Steady (Run.run State.step (processInit 16)
          (waiting ++ [.signal 2 sigstop ⟨none, false, false⟩]))
        (.wake (.mailbox 32))
        (Run.run State.step (processInit 16)
          (waiting ++ [.signal 2 sigstop ⟨none, false, false⟩] ++ [.wake (.mailbox 32)])) :=
  ⟨by decide, by decide, steady_of_run (by decide) _ _ (by decide)⟩

/-- A message wakes a process that was stopped, and one that was killed, while it waited
for it. -/
theorem not_steady_wake :
    ¬ Steady (Run.run State.step (processInit 16)
        (waiting ++ [.signal 1 sigstop ⟨none, false, false⟩])) (.wake (.mailbox 32))
      (Run.run State.step (processInit 16)
        (waiting ++ [.signal 1 sigstop ⟨none, false, false⟩, .wake (.mailbox 32)])) ∧
    ¬ Steady (Run.run State.step (processInit 16)
        (waiting ++ [.signal 1 sigkill ⟨none, false, false⟩])) (.wake (.mailbox 32))
      (Run.run State.step (processInit 16)
        (waiting ++ [.signal 1 sigkill ⟨none, false, false⟩, .wake (.mailbox 32)])) := by
  refine ⟨fun h => ?_, fun h => ?_⟩
  · have hstop := h.stopped 32 (by decide)
    revert hstop
    decide
  have hterm := h.terminated 32 (by decide)
  revert hterm
  decide

end State

end Scheduler
